import EmuleQt.Math.Utf
import EmuleQt.Utils.SafeFile

namespace EmuleQt.Utils

open Math

/-- `QString`: UTF-16 code units, with or without partners for its surrogates. -/
abbrev QString := List UInt16

namespace QString

instance lawfulBEq : LawfulBEq QString := inferInstance

/-- The characters `toUtf8` sees; a lone surrogate counts as a question mark. -/
def chars (s : QString) : List Char := (utf16Chars s).map (·.getD '?')

def toUtf8 (s : QString) : List UInt8 := utf8 (chars s)

def toLatin1 (s : QString) : List UInt8 :=
  s.map fun u => if u.toNat ≤ 0xFF then UInt8.ofNat u.toNat else 0x3F

def fromLatin1 (raw : List UInt8) : QString := raw.map fun b => UInt16.ofNat b.toNat

def kBom : List UInt8 := [0xEF,0xBB,0xBF]

/-- UTF-8 decoding, U+FFFD for each byte that begins no character. -/
def decodeUtf8 (raw : List UInt8) : QString :=
  (utf8Chars raw).flatMap fun c => utf16 (c.getD '\uFFFD')

/-- `QString::fromUtf8` passes over a byte order mark. -/
def fromUtf8 (raw : List UInt8) : QString :=
  decodeUtf8 (if raw.take 3 = kBom then raw.drop 3 else raw)

end QString

open QString

inductive UTF8Mode
  | None | OptBOM | Raw
  deriving DecidableEq

/-- The bytes of a string as `writeString`, `writeLongString` and `writeNewEd2kTag` encode it. -/
def encodeString (s : QString) : UTF8Mode → List UInt8
  | .Raw => toUtf8 s
  | .OptBOM => if s.any fun u => decide (u.toNat>0x7F) then kBom++toUtf8 s else toLatin1 s
  | .None => toLatin1 s

def writeString (s : QString) (encode : UTF8Mode) : Except FileException Unit × List UInt8 :=
  let raw := encodeString s encode
  if raw.length > 0xFFFF then (.error ⟨"String too long for 16-bit length prefix"⟩, [])
  else (.ok (), writeUInt16 raw.length ++ raw)

/-- The string of the bytes `readString` has read. -/
def decodeString (optUTF8 : Bool) (raw : List UInt8) : QString :=
  if raw.take 3=kBom then fromUtf8 (raw.drop 3)
  else if optUTF8 && !(utf8Chars raw).contains none then decodeUtf8 raw
  else fromLatin1 raw

def readStringOf (optUTF8 : Bool) (rawSize : Nat) : Reader QString :=
  if rawSize=0 then pure []
  else do
    let raw ← Reader.read rawSize
    pure (decodeString optUTF8 raw)

def readString (optUTF8 : Bool) : Reader QString := do
  let rawSize ← Reader.readUInt16
  readStringOf optUTF8 rawSize

/-- Characters without up to `n` byte order marks in front. -/
def dropMarks : (n : Nat) → List Char → List Char
  | 0, cs => cs
  | _ + 1, [] => []
  | n+1, c::cs => if c = '\uFEFF' then dropMarks n cs else c::cs

/-- What a string becomes when it is written and read again. -/
def reread (s : QString) (encode : UTF8Mode) : QString :=
  (dropMarks (if encode = .Raw then 2 else 1) (chars s)).flatMap utf16

theorem dropMarks_of_head {cs : List Char} (h : cs.head? ≠ some '\uFEFF') (n : Nat) :
    dropMarks n cs=cs := by
  cases n with
  | zero => rfl
  | succ n =>
    cases cs with
    | nil => rfl
    | cons c cs =>
      have hc : c ≠ '\uFEFF' := fun hc => h (by rw [hc]; rfl)
      rw [dropMarks,if_neg hc]

theorem decodeUtf8_utf8 (cs : List Char) : decodeUtf8 (utf8 cs)=cs.flatMap utf16 := by
  rw [decodeUtf8,utf8Chars_utf8,List.flatMap_map]
  rfl

theorem utf8_drop_bom (cs : List Char) : (utf8 ('\uFEFF'::cs)).drop 3=utf8 cs := by
  rfl

theorem fromUtf8_utf8 (cs : List Char) : fromUtf8 (utf8 cs)=(dropMarks 1 cs).flatMap utf16 := by
  have hbom : (utf8 cs).take 3=kBom ↔ cs.head? = some '\uFEFF' := utf8_take_bom cs
  rw [fromUtf8]
  by_cases h : cs.head? = some '\uFEFF'
  · cases cs with
    | nil => cases h
    | cons c cs =>
      obtain rfl := Option.some.inj h
      rw [if_pos (hbom.mpr h),utf8_drop_bom,decodeUtf8_utf8]
      rfl
  · rw [if_neg (fun htake => h (hbom.mp htake)),decodeUtf8_utf8,dropMarks_of_head h]

theorem decodeString_utf8 (cs : List Char) :
    decodeString true (utf8 cs)=(dropMarks 2 cs).flatMap utf16 := by
  have hbom : (utf8 cs).take 3=kBom ↔ cs.head? = some '\uFEFF' := utf8_take_bom cs
  rw [decodeString]
  by_cases h : cs.head? = some '\uFEFF'
  · cases cs with
    | nil => cases h
    | cons c cs =>
      obtain rfl := Option.some.inj h
      rw [if_pos (hbom.mpr h),utf8_drop_bom,fromUtf8_utf8]
      rfl
  · have hvalid : (true && !(utf8Chars (utf8 cs)).contains none)=true := by
      rw [utf8Chars_utf8]
      simp
    rw [if_neg (fun htake => h (hbom.mp htake)),if_pos hvalid,decodeUtf8_utf8,
      dropMarks_of_head h]

theorem utf16Chars_ascii {s : QString} (h : ∀ u∈s,u.toNat≤0x7F) :
    utf16Chars s=s.map fun u => some (Char.ofNat u.toNat) := by
  induction s with
  | nil => rfl
  | cons u s ih =>
    obtain ⟨hu,hs⟩ := List.forall_mem_cons.mp h
    have hhigh : isHighSurrogate u=false := decide_eq_false (by omega)
    have hlow : isLowSurrogate u=false := decide_eq_false (by omega)
    have hsingle : singleUnit u=some (Char.ofNat u.toNat) := by
      rw [singleUnit,hhigh,hlow]
      rfl
    cases s with
    | nil => rw [utf16Chars,hsingle,List.map_cons,List.map_nil]
    | cons v s => rw [utf16Chars,hhigh,Bool.false_and,if_neg (by simp),hsingle,ih hs,
        List.map_cons (l := v::s)]

theorem toLatin1_ascii {s : QString} (h : ∀ u∈s,u.toNat≤0x7F) :
    toLatin1 s=toUtf8 s ∧ (chars s).head? ≠ some '\uFEFF' := by
  have hchar : ∀ u : UInt16, u.toNat≤0x7F → (Char.ofNat u.toNat).toNat=u.toNat := by
    intro u hu
    have hvalid : u.toNat.isValidChar := Or.inl (by omega)
    rw [Char.ofNat,dif_pos hvalid]
    rfl
  rw [toUtf8,chars,utf16Chars_ascii h,List.map_map]
  constructor
  · rw [toLatin1,utf8,List.flatMap_map]
    induction s with
    | nil => rfl
    | cons u s ih =>
      obtain ⟨hu,hs⟩ := List.forall_mem_cons.mp h
      have hbyte : String.utf8EncodeChar (Char.ofNat u.toNat)=[UInt8.ofNat u.toNat] := by
        rw [utf8EncodeChar_ascii (by rw [hchar u hu]; omega),hchar u hu]
      rw [List.map_cons,List.flatMap_cons,if_pos (by omega),ih hs]
      simp only [Function.comp_apply,Option.getD_some,hbyte]
      rfl
  · cases s with
    | nil => simp
    | cons u s =>
      obtain ⟨hu,-⟩ := List.forall_mem_cons.mp h
      intro hhead
      have hbom := congrArg (Option.map Char.toNat) hhead
      have htop := hchar u hu
      simp only [List.map_cons,Function.comp_apply,Option.getD_some,List.head?_cons,
        Option.map_some,Option.some.injEq] at hbom
      have hvalue : ('\uFEFF' : Char).toNat=0xFEFF := rfl
      omega

theorem decodeString_encodeString (s : QString) {encode : UTF8Mode} (h : encode ≠ .None) :
    decodeString true (encodeString s encode)=reread s encode := by
  cases encode with
  | None => exact absurd rfl h
  | Raw => exact decodeString_utf8 (chars s)
  | OptBOM =>
    have hone : (if UTF8Mode.OptBOM = .Raw then 2 else 1)=1 := rfl
    rw [encodeString,reread,hone]
    by_cases hascii : (s.any fun u => decide (u.toNat>0x7F))=true
    · rw [if_pos hascii,decodeString,if_pos (by rfl)]
      exact fromUtf8_utf8 (chars s)
    · have hlow : ∀ u∈s,u.toNat≤0x7F := by
        intro u hu
        by_contra hgt
        exact hascii (List.any_eq_true.mpr ⟨u,hu,decide_eq_true (by omega)⟩)
      obtain ⟨hbytes,hhead⟩ := toLatin1_ascii hlow
      rw [if_neg hascii,hbytes,toUtf8,decodeString_utf8,dropMarks_of_head hhead,
        dropMarks_of_head hhead]

theorem readStringOf_append (s : QString) {encode : UTF8Mode} (h : encode ≠ .None)
    (rest : List UInt8) :
    readStringOf true (encodeString s encode).length (encodeString s encode++rest) =
      .ok (reread s encode, rest) := by
  have hdecode := decodeString_encodeString s h
  by_cases hempty : encodeString s encode=[]
  · rw [hempty] at hdecode ⊢
    have hnil : decodeString true []=[] := by
      simp [decodeString,decodeUtf8,utf8Chars,kBom]
    rw [readStringOf,List.length_nil,if_pos rfl,← hdecode,hnil]
    rfl
  · have hread := Reader.read_append (rfl : (encodeString s encode).length=_) rest
    rw [readStringOf,if_neg (fun hlen => hempty (List.length_eq_zero_iff.mp hlen)),
      Reader.bind_ok hread,hdecode]
    rfl

theorem reread_eq {cs : List Char} (h : cs.head? ≠ some '\uFEFF') (encode : UTF8Mode) :
    reread (cs.flatMap utf16) encode=cs.flatMap utf16 := by
  have hchars : chars (cs.flatMap utf16)=cs := by
    rw [chars,utf16Chars_utf16,List.map_map]
    exact List.map_id cs
  rw [reread,hchars,dropMarks_of_head h]

end EmuleQt.Utils
