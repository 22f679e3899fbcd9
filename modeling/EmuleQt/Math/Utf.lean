import Mathlib.Data.List.Basic

namespace EmuleQt.Math

/-- The UTF-16 code units of a character. -/
def utf16 (c : Char) : List UInt16 :=
  if c.toNat < 0x10000 then [UInt16.ofNat c.toNat]
  else [UInt16.ofNat (0xD800 + (c.toNat - 0x10000) / 0x400),
    UInt16.ofNat (0xDC00 + (c.toNat - 0x10000) % 0x400)]

def isHighSurrogate (u : UInt16) : Bool := decide (0xD800≤u.toNat ∧ u.toNat<0xDC00)

def isLowSurrogate (u : UInt16) : Bool := decide (0xDC00≤u.toNat ∧ u.toNat<0xE000)

def surrogatePair (high low : UInt16) : Char :=
  Char.ofNat (0x10000+(high.toNat-0xD800)*0x400+(low.toNat-0xDC00))

def singleUnit (u : UInt16) : Option Char :=
  if isHighSurrogate u || isLowSurrogate u then none else some (Char.ofNat u.toNat)

/-- The characters of UTF-16 text, none for a surrogate without its partner. -/
def utf16Chars : List UInt16 → List (Option Char)
  | [] => []
  | [u] => [singleUnit u]
  | u::v::rest =>
    if isHighSurrogate u && isLowSurrogate v then some (surrogatePair u v)::utf16Chars rest
    else singleUnit u::utf16Chars (v::rest)

theorem char_range (c : Char) :
    c.toNat<0x110000 ∧ (c.toNat<0xD800 ∨ 0xE000≤c.toNat) := by
  have h := c.valid
  change c.val.toNat<0x110000 ∧ (c.val.toNat<0xD800 ∨ 0xE000≤c.val.toNat)
  omega

theorem utf16Chars_append (c : Char) (rest : List UInt16) :
    utf16Chars (utf16 c++rest)=some c::utf16Chars rest := by
  obtain ⟨hmax,hgap⟩ := char_range c
  have hc := Char.ofNat_toNat c
  by_cases hsmall : c.toNat<0x10000
  · have hunit : (UInt16.ofNat c.toNat).toNat=c.toNat := by
      rw [UInt16.toNat_ofNat']
      omega
    have hhigh : isHighSurrogate (UInt16.ofNat c.toNat)=false := by
      rw [isHighSurrogate,hunit,decide_eq_false_iff_not]
      omega
    have hlow : isLowSurrogate (UInt16.ofNat c.toNat)=false := by
      rw [isLowSurrogate,hunit,decide_eq_false_iff_not]
      omega
    have hsingle : singleUnit (UInt16.ofNat c.toNat)=some c := by
      rw [singleUnit,hhigh,hlow,hunit,hc]
      rfl
    rw [utf16,if_pos hsmall]
    cases rest with
    | nil => simp [utf16Chars,hsingle]
    | cons v rest => simp [utf16Chars,hhigh,hsingle]
  · have hu : (UInt16.ofNat (0xD800+(c.toNat-0x10000)/0x400)).toNat =
        0xD800+(c.toNat-0x10000)/0x400 := by
      rw [UInt16.toNat_ofNat']
      omega
    have hv : (UInt16.ofNat (0xDC00+(c.toNat-0x10000)%0x400)).toNat =
        0xDC00+(c.toNat-0x10000)%0x400 := by
      rw [UInt16.toNat_ofNat']
      omega
    rw [utf16,if_neg hsmall,List.cons_append,List.cons_append,List.nil_append,utf16Chars]
    have hpair : (isHighSurrogate (UInt16.ofNat (0xD800+(c.toNat-0x10000)/0x400)) &&
        isLowSurrogate (UInt16.ofNat (0xDC00+(c.toNat-0x10000)%0x400)))=true := by
      rw [isHighSurrogate,isLowSurrogate,hu,hv]
      simp only [Bool.and_eq_true,decide_eq_true_eq]
      omega
    rw [if_pos hpair,surrogatePair,hu,hv,
      show 0x10000+(0xD800+(c.toNat-0x10000)/0x400-0xD800)*0x400 +
        (0xDC00+(c.toNat-0x10000)%0x400-0xDC00)=c.toNat by omega,hc]

theorem utf16Chars_utf16 (cs : List Char) : utf16Chars (cs.flatMap utf16)=cs.map some := by
  induction cs with
  | nil => rfl
  | cons c cs ih => rw [List.flatMap_cons,utf16Chars_append,ih,List.map_cons]

/-- UTF-8 of characters. -/
def utf8 (cs : List Char) : List UInt8 := cs.flatMap String.utf8EncodeChar

/-- The character some bytes begin with. -/
def utf8Head? (bytes : List UInt8) : Option Char := bytes.toByteArray.utf8DecodeChar? 0

/-- The characters of bytes read as UTF-8, none for a byte that begins no character. -/
def utf8Chars : List UInt8 → List (Option Char)
  | [] => []
  | b::bytes =>
    match utf8Head? (b::bytes) with
    | some c => some c::utf8Chars (bytes.drop (c.utf8Size-1))
    | none => none::utf8Chars bytes
termination_by bytes => bytes.length
decreasing_by
  all_goals simp only [List.length_drop,List.length_cons]; omega

theorem utf8Head?_append (c : Char) (rest : List UInt8) :
    utf8Head? (String.utf8EncodeChar c++rest)=some c := by
  rw [utf8Head?,List.toByteArray_append]
  exact ByteArray.utf8DecodeChar?_utf8EncodeChar_append

theorem utf8Chars_append (c : Char) (rest : List UInt8) :
    utf8Chars (String.utf8EncodeChar c++rest)=some c::utf8Chars rest := by
  have hhead := utf8Head?_append c rest
  have hlen := String.length_utf8EncodeChar c
  cases henc : String.utf8EncodeChar c with
  | nil => exact absurd henc String.utf8EncodeChar_ne_nil
  | cons b bytes =>
    rw [henc,List.length_cons] at hlen
    rw [henc,List.cons_append] at hhead
    rw [List.cons_append,utf8Chars,hhead]
    simp only
    rw [show c.utf8Size-1=bytes.length by omega,List.drop_left]

theorem utf8Chars_utf8 (cs : List Char) : utf8Chars (utf8 cs)=cs.map some := by
  induction cs with
  | nil => simp [utf8,utf8Chars]
  | cons c cs ih =>
    rw [utf8,List.flatMap_cons,utf8Chars_append,List.map_cons,← ih]
    rfl

/-- An ASCII character is its own byte. -/
theorem utf8EncodeChar_ascii {c : Char} (h : c.toNat<0x80) :
    String.utf8EncodeChar c=[UInt8.ofNat c.toNat] := by
  have hval : c.val.toNat≤0x7F := Nat.le_of_lt_succ h
  simp only [String.utf8EncodeChar,if_pos hval]
  rfl

theorem utf8EncodeChar_bom : String.utf8EncodeChar '\uFEFF'=[0xEF,0xBB,0xBF] := by decide

/-- UTF-8 begins with the bytes of the byte order mark when its text does. -/
theorem utf8_take_bom (cs : List Char) :
    (utf8 cs).take 3=[0xEF,0xBB,0xBF] ↔ cs.head? = some '\uFEFF' := by
  cases cs with
  | nil => simp [utf8]
  | cons c cs =>
    have hcons : utf8 (c::cs)=String.utf8EncodeChar c++utf8 cs := by
      rfl
    rw [List.head?_cons,Option.some.injEq]
    constructor
    · intro h
      have hbytes : String.utf8EncodeChar c++utf8 cs =
          String.utf8EncodeChar '\uFEFF'++(utf8 (c::cs)).drop 3 := by
        rw [utf8EncodeChar_bom,← h,List.take_append_drop,hcons]
      have hc := utf8Head?_append c (utf8 cs)
      rw [hbytes,utf8Head?_append] at hc
      exact (Option.some.inj hc).symm
    · rintro rfl
      rw [hcons,utf8EncodeChar_bom]
      rfl

end EmuleQt.Math
