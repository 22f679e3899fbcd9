import EmuleQt.Protocol.ED2KLinkRoundTrip
import Mathlib.Data.List.GetD

namespace EmuleQt.Protocol

open Math Net Utils Utils.QString

def hexValue (ch : UInt16) : Option Nat := hexCharValue ch

/-- The loop of `decodeLinkField`; `run` is the literal text since the last escape. -/
def linkFieldOctets : QString → (run : QString) → Option (List UInt8)
  | [], run => some (toUtf8 run)
  | u::a::b::rest, run =>
    if u=percent then
      match hexValue a, hexValue b with
      | some hi, some lo =>
        (linkFieldOctets rest []).map fun octets => toUtf8 run++UInt8.ofNat (16*hi+lo)::octets
      | _, _ => none
    else linkFieldOctets (a::b::rest) (run++[u])
  | u::rest, run => if u=percent then none else linkFieldOctets rest (run++[u])

def isControl (c : UInt16) : Bool := decide (c.toNat < 0x20 ∨ c.toNat = 0x7F)

def decodeLinkField (field : QString) : Option QString :=
  match linkFieldOctets field [] with
  | none => none
  | some octets => if (fromUtf8 octets).any isControl then none else some (fromUtf8 octets)

/-- What `encodeLinkField` writes for an octet. -/
def encodeLinkOctet (b : UInt8) : QString :=
  if b.toNat<0x21 ∨ 0x7E<b.toNat ∨ b=0x25 ∨ b=0x7C then
    [percent,base16Char (b.toNat/16),base16Char (b.toNat%16)]
  else [UInt16.ofNat b.toNat]

def encodeLinkField (field : QString) : QString := (toUtf8 field).flatMap encodeLinkOctet

def ED2KHttpCacheLink.toLink (link : ED2KHttpCacheLink) : QString :=
  let out := lit "ed2k://|httpcache|" ++ encodeLinkField link.name ++ pipe ::
    encodeLinkField link.baseUrl ++ pipe :: encodeLinkField link.secret
  let out := if link.keyId = [] then out else out ++ lit "|k=" ++ encodeLinkField link.keyId
  out ++ lit "|/"

/-- What the parser asks a `QUrl` in strict mode. -/
structure QUrl where
  isValid : Bool
  isRelative : Bool
  scheme : QString
  host : QString
  userInfo : QString
  hasQuery : Bool
  hasFragment : Bool

def QUrl.isBase (url : QUrl) : Bool :=
  url.isValid && !url.isRelative && decide (url.host ≠ []) &&
    decide (toLower url.scheme=lit "http" ∨ toLower url.scheme=lit "https") &&
    decide (url.userInfo=[]) && !url.hasQuery && !url.hasFragment

def isSecret (secret : QString) : Bool :=
  decide (secret≠[] ∧ secret.length≤512) &&
    secret.all fun c => decide (0x21≤c.toNat ∧ c.toNat≤0x7E)

/-- `\A[A-Za-z0-9._-]{1,32}\z` -/
def isKeyId (keyId : QString) : Bool :=
  decide (1≤keyId.length ∧ keyId.length≤32) && keyId.all fun c =>
    decide ((0x41≤c.toNat ∧ c.toNat≤0x5A) ∨ (0x61≤c.toNat ∧ c.toNat≤0x7A) ∨
      (0x30≤c.toNat ∧ c.toNat≤0x39) ∨ c.toNat=0x2E ∨ c.toNat=0x5F ∨ c.toNat=0x2D)

def equalsSign : UInt16 := 0x3D

/-- The loop over the fields after the secret. -/
def parseCacheOptions : List QString → ED2KHttpCacheLink → Option ED2KHttpCacheLink
  | [], link => some link
  | option::options, link =>
    let eq := option.idxOf equalsSign
    if equalsSign ∉ option ∨ eq=0 then none
    else if (option.take eq).map foldCase ≠ lit "k" then parseCacheOptions options link
    else
      match decodeLinkField (option.drop (eq+1)) with
      | none => none
      | some keyId =>
        if isKeyId keyId then parseCacheOptions options { link with keyId := keyId } else none

def parseHttpCacheLink (strictUrl : QString → QUrl) (parts : List QString) :
    Option ED2KHttpCacheLink :=
  if parts.length < 5 ∨ parts.getLast? ≠ some [slash] then none
  else
    match decodeLinkField (parts.getD 1 []), decodeLinkField (parts.getD 2 []),
      decodeLinkField (parts.getD 3 []) with
    | some name, some baseUrl, some secret =>
      if (strictUrl baseUrl).isBase = false then none
      else if isSecret secret = false then none
      else parseCacheOptions ((parts.drop 4).dropLast) ⟨name, baseUrl, secret, []⟩
    | _, _, _ => none

/-- The reader whose `parseHttpCacheLink` is this one. -/
def LinkReader.withHttpCache (r : LinkReader) (strictUrl : QString → QUrl) : LinkReader :=
  { r with parseHttpCacheLink := EmuleQt.Protocol.parseHttpCacheLink strictUrl }

variable {bs : List UInt8} {cs : List Char} {s : QString} {b : UInt8} {u : UInt16}

theorem encodeLinkOctet_escaped (h : b.toNat<0x21 ∨ 0x7E<b.toNat ∨ b=0x25 ∨ b=0x7C) :
    encodeLinkOctet b=[percent,base16Char (b.toNat/16),base16Char (b.toNat%16)] := if_pos h

theorem encodeLinkOctet_plain (h : ¬ (b.toNat<0x21 ∨ 0x7E<b.toNat ∨ b=0x25 ∨ b=0x7C)) :
    encodeLinkOctet b=[UInt16.ofNat b.toNat] := if_neg h

theorem plainUnit_toNat (h : ¬ (b.toNat<0x21 ∨ 0x7E<b.toNat ∨ b=0x25 ∨ b=0x7C)) :
    (UInt16.ofNat b.toNat).toNat=b.toNat := by
  rw [UInt16.toNat_ofNat']
  omega

theorem plainUnit_ne (h : ¬ (b.toNat<0x21 ∨ 0x7E<b.toNat ∨ b=0x25 ∨ b=0x7C)) :
    UInt16.ofNat b.toNat≠percent ∧ UInt16.ofNat b.toNat≠pipe := by
  have hvalue := plainUnit_toNat h
  have hpercent : b.toNat≠0x25 := fun hb => h (.inr (.inr (.inl (UInt8.toNat_inj.mp hb))))
  have hpipe : b.toNat≠0x7C := fun hb => h (.inr (.inr (.inr (UInt8.toNat_inj.mp hb))))
  exact ⟨fun heq => hpercent (hvalue.symm.trans (congrArg UInt16.toNat heq)),
    fun heq => hpipe (hvalue.symm.trans (congrArg UInt16.toNat heq))⟩

theorem base16Char_ne (n : Nat) (h : n<16) : base16Char n≠percent ∧ base16Char n≠pipe := by
  revert n
  decide

theorem encodeLinkOctet_units (h : u∈encodeLinkOctet b) : u≠pipe ∧ u.toNat≤0x7F := by
  obtain ⟨hhi,hlo,-⟩ := byte_halves b
  by_cases hb : b.toNat<0x21 ∨ 0x7E<b.toNat ∨ b=0x25 ∨ b=0x7C
  · rw [encodeLinkOctet_escaped hb] at h
    have hdigit : ∀ n,n<16 → (base16Char n).toNat≤0x7F := by decide
    simp only [List.mem_cons,List.not_mem_nil,or_false] at h
    rcases h with rfl | rfl | rfl
    · decide
    · exact ⟨(base16Char_ne _ hhi).2,hdigit _ hhi⟩
    · exact ⟨(base16Char_ne _ hlo).2,hdigit _ hlo⟩
  · rw [encodeLinkOctet_plain hb] at h
    obtain rfl := List.mem_singleton.mp h
    exact ⟨(plainUnit_ne hb).2,by rw [plainUnit_toNat hb]; omega⟩

theorem pipe_not_mem_encode (bs : List UInt8) : pipe∉bs.flatMap encodeLinkOctet := fun h => by
  obtain ⟨b,-,hu⟩ := List.mem_flatMap.mp h
  exact (encodeLinkOctet_units hu).1 rfl

theorem toUtf8_ascii (h : ∀ u∈s,u.toNat≤0x7F) :
    toUtf8 s=s.map fun u => UInt8.ofNat u.toNat := by
  rw [← (toLatin1_ascii h).1,toLatin1]
  refine List.map_congr_left fun u hu => ?_
  rw [if_pos (Nat.le_trans (h u hu) (by decide))]

theorem linkFieldOctets_encode {run : QString} (h : ∀ u∈run,u.toNat≤0x7F) :
    linkFieldOctets (bs.flatMap encodeLinkOctet) run=some (toUtf8 run++bs) := by
  induction bs generalizing run with
  | nil => rw [List.flatMap_nil,linkFieldOctets,List.append_nil]
  | cons b bs ih =>
    obtain ⟨hhi,hlo,hb⟩ := byte_halves b
    rw [List.flatMap_cons]
    by_cases hesc : b.toNat<0x21 ∨ 0x7E<b.toNat ∨ b=0x25 ∨ b=0x7C
    · rw [encodeLinkOctet_escaped hesc,List.cons_append,List.cons_append,List.cons_append,
        List.nil_append,linkFieldOctets,if_pos rfl,hexValue,hexValue,
        hexCharValue_base16Char hhi,hexCharValue_base16Char hlo]
      dsimp only
      rw [hb,ih (fun u hu => absurd hu List.not_mem_nil),Option.map_some]
      rfl
    · rw [encodeLinkOctet_plain hesc,List.singleton_append]
      have hstep : linkFieldOctets (UInt16.ofNat b.toNat::bs.flatMap encodeLinkOctet) run =
          linkFieldOctets (bs.flatMap encodeLinkOctet) (run++[UInt16.ofNat b.toNat]) := by
        generalize bs.flatMap encodeLinkOctet=rest
        rcases rest with _ | ⟨x,_ | ⟨y,rest⟩⟩ <;> exact if_neg (plainUnit_ne hesc).1
      have hascii : ∀ u∈run++[UInt16.ofNat b.toNat], u.toNat≤0x7F := by
        intro u hu
        rcases List.mem_append.mp hu with hu | hu
        · exact h u hu
        · rw [List.mem_singleton.mp hu,plainUnit_toNat hesc]
          omega
      rw [hstep,ih hascii,toUtf8_ascii hascii,toUtf8_ascii h,List.map_append,List.map_cons,
        List.map_nil,plainUnit_toNat hesc,UInt8.ofNat_toNat,List.append_assoc]
      rfl

theorem decodeLinkField_octets (bs : List UInt8) :
    decodeLinkField (bs.flatMap encodeLinkOctet) =
      if (fromUtf8 bs).any isControl then none else some (fromUtf8 bs) := by
  rw [decodeLinkField,linkFieldOctets_encode (fun u hu => absurd hu List.not_mem_nil)]
  rfl

theorem toUtf8_text (cs : List Char) : toUtf8 (cs.flatMap utf16)=utf8 cs := by
  rw [toUtf8,chars,utf16Chars_utf16,List.map_map]
  exact congrArg utf8 (List.map_id cs)

theorem decodeLinkField_text {field out : QString} (h : decodeLinkField field=some out) :
    (∃ cs : List Char, out=cs.flatMap utf16) ∧ out.any isControl=false := by
  unfold decodeLinkField at h
  split at h
  · cases h
  · next octets _ =>
    split_ifs at h with hcontrol
    obtain rfl := Option.some.inj h
    refine ⟨?_,Bool.eq_false_of_not_eq_true hcontrol⟩
    exact ⟨_,(List.flatMap_map _ _ _).symm⟩

theorem decodeLinkField_encode (hcontrol : (cs.flatMap utf16).any isControl=false)
    (hmark : cs.head? ≠ some '\uFEFF') :
    decodeLinkField (encodeLinkField (cs.flatMap utf16))=some (cs.flatMap utf16) := by
  rw [encodeLinkField,toUtf8_text,decodeLinkField_octets,fromUtf8_utf8,dropMarks_of_head hmark,
    hcontrol,if_neg Bool.false_ne_true]

/-- What becomes of an encoded octet when encoded bars are replaced. -/
def replacedOctet (b : UInt8) : QString := if b=0x7C then [pipe] else encodeLinkOctet b

theorem replaceEncodedBars_plain (h : u≠percent) (s : QString) :
    replaceEncodedBars (u::s)=u::replaceEncodedBars s := by
  rcases s with _ | ⟨x,_ | ⟨y,s⟩⟩
  · rfl
  · rfl
  · rw [replaceEncodedBars,if_neg fun hbar => h hbar.1]

theorem isBar_iff (b : UInt8) : base16Char (b.toNat/16)=0x37 ∧
    foldCase (base16Char (b.toNat%16))=0x63 ↔ b=0x7C := by
  obtain ⟨hhi,hlo,-⟩ := byte_halves b
  have hseven : ∀ n,n<16 → (base16Char n=0x37 ↔ n=7) := by decide
  have hc : ∀ n,n<16 → (foldCase (base16Char n)=0x63 ↔ n=12) := by decide
  rw [hseven _ hhi,hc _ hlo,← UInt8.toNat_inj]
  show _ ↔ b.toNat=124
  omega

theorem replaceEncodedBars_encode (bs : List UInt8) (s : QString) :
    replaceEncodedBars (bs.flatMap encodeLinkOctet++s) =
      bs.flatMap replacedOctet++replaceEncodedBars s := by
  induction bs with
  | nil => rfl
  | cons b bs ih =>
    obtain ⟨hhi,hlo,-⟩ := byte_halves b
    rw [List.flatMap_cons,List.flatMap_cons,List.append_assoc,List.append_assoc,← ih,
      replacedOctet]
    generalize bs.flatMap encodeLinkOctet++s=rest
    by_cases hesc : b.toNat<0x21 ∨ 0x7E<b.toNat ∨ b=0x25 ∨ b=0x7C
    · rw [encodeLinkOctet_escaped hesc,List.cons_append,List.cons_append,List.cons_append,
        List.nil_append,replaceEncodedBars]
      by_cases hbar : b=0x7C
      · rw [if_pos ⟨rfl,(isBar_iff b).mpr hbar⟩,if_pos hbar,List.singleton_append]
      · rw [if_neg fun h => hbar ((isBar_iff b).mp h.2),if_neg hbar,
          replaceEncodedBars_plain (base16Char_ne _ hhi).1,
          replaceEncodedBars_plain (base16Char_ne _ hlo).1]
        rfl
    · rw [if_neg fun hbar => hesc (.inr (.inr (.inr hbar))),encodeLinkOctet_plain hesc,
        List.singleton_append,List.singleton_append,replaceEncodedBars_plain (plainUnit_ne hesc).1]

theorem bar_of_escape (h : lit "%7c" <:+: (bs.flatMap encodeLinkOctet).map foldCase) :
    (0x7C : UInt8)∈bs := by
  induction bs with
  | nil => exact absurd (List.infix_nil.mp h) (by decide)
  | cons b bs ih =>
    obtain ⟨hhi,hlo,-⟩ := byte_halves b
    have hdigit : ∀ n,n<16 → foldCase (base16Char n)≠percent := by decide
    rw [List.flatMap_cons,List.map_append] at h
    by_cases hesc : b.toNat<0x21 ∨ 0x7E<b.toNat ∨ b=0x25 ∨ b=0x7C
    · rw [encodeLinkOctet_escaped hesc] at h
      rcases List.infix_cons_iff.mp h with h | h
      · obtain ⟨t,ht⟩ := h
        have hhigh : (0x37 : UInt16)=foldCase (base16Char (b.toNat/16)) :=
          (List.cons.inj (List.cons.inj ht).2).1
        have hlow : (0x63 : UInt16)=foldCase (base16Char (b.toNat%16)) :=
          (List.cons.inj (List.cons.inj (List.cons.inj ht).2).2).1
        have hseven : ∀ n,n<16 → 0x37=foldCase (base16Char n) → base16Char n=0x37 := by
          decide
        exact List.mem_cons.mpr (.inl ((isBar_iff b).mp ⟨hseven _ hhi hhigh,hlow.symm⟩).symm)
      · rcases List.infix_cons_iff.mp h with h | h
        · obtain ⟨t,ht⟩ := h
          exact absurd (List.cons.inj ht).1.symm (hdigit _ hhi)
        · rcases List.infix_cons_iff.mp h with h | h
          · obtain ⟨t,ht⟩ := h
            exact absurd (List.cons.inj ht).1.symm (hdigit _ hlo)
          · exact List.mem_cons_of_mem _ (ih h)
    · rw [encodeLinkOctet_plain hesc] at h
      rcases List.infix_cons_iff.mp h with h | h
      · obtain ⟨t,ht⟩ := h
        exact absurd (foldCase_eq (.inr rfl) (List.cons.inj ht).1.symm) (plainUnit_ne hesc).1
      · exact List.mem_cons_of_mem _ (ih h)

theorem infix_or_infix {p a b : QString} (hp : pipe∉p) (h : p <:+: a++pipe::b) :
    p <:+: a ∨ p <:+: b := by
  obtain ⟨x,y,hxy⟩ := h
  rcases List.append_eq_append_iff.mp hxy with ⟨t,ht,-⟩ | ⟨t,ht,hy⟩
  · exact .inl ⟨x,t,ht.symm⟩
  cases t with
  | nil => exact .inl ⟨x,[],by rw [List.append_nil,ht,List.append_nil]⟩
  | cons c t =>
    obtain ⟨rfl,hb⟩ := List.cons.inj hy
    rcases List.append_eq_append_iff.mp ht with ⟨z,-,hz⟩ | ⟨z,-,hz⟩
    · exact absurd (hz ▸ List.mem_append_right z List.mem_cons_self) hp
    · cases z with
      | nil =>
        rw [List.nil_append] at hz
        exact absurd (hz ▸ List.mem_cons_self) hp
      | cons c z =>
        obtain ⟨-,rfl⟩ := List.cons.inj hz
        exact .inr ⟨z,y,hb.symm⟩

/-- Fields with bars in front of them. -/
def barred (fields : List QString) : QString := fields.flatMap (pipe :: ·)

theorem barred_cons (field : QString) (fields : List QString) :
    barred (field::fields)=pipe::(field++barred fields) := rfl

theorem containsFold_barred {p f : QString} {fields : List QString} (hp : pipe∉p) :
    containsFold (f++barred fields) p=true ↔
      ∃ field∈f::fields, containsFold field p=true := by
  have hfold : foldCase pipe=pipe := by decide
  simp only [containsFold,decide_eq_true_iff]
  induction fields generalizing f with
  | nil => simp [barred]
  | cons field fields ih =>
    rw [List.exists_mem_cons_iff]
    refine Iff.trans ?_ (or_congr Iff.rfl ih)
    rw [barred_cons,List.map_append,List.map_cons,hfold]
    constructor
    · exact infix_or_infix hp
    · rintro (h | h)
      · exact h.trans (List.infix_append' [] _ _ |> fun h => by simpa using h)
      · refine h.trans ⟨f.map foldCase++[pipe],[],?_⟩
        simp

theorem splitOn_barred {f : QString} {fields : List QString} (hf : pipe∉f)
    (h : ∀ field∈fields,pipe∉field) : (f++barred fields).splitOn pipe=f::fields := by
  induction fields generalizing f with
  | nil => rw [barred,List.flatMap_nil,List.append_nil,List.splitOn_eq_singleton hf]
  | cons field fields ih =>
    obtain ⟨hfield,hfields⟩ := List.forall_mem_cons.mp h
    rw [barred_cons,List.splitOn_append_cons_self_of_not_mem hf,ih hfield hfields]

/-- The octets of the fields of a link, its kind in front and the slash behind. -/
def ED2KHttpCacheLink.fieldOctets (link : ED2KHttpCacheLink) : List (List UInt8) :=
  [toUtf8 (lit "httpcache"),toUtf8 link.name,toUtf8 link.baseUrl,toUtf8 link.secret] ++
    (if link.keyId=[] then [] else [0x6B::0x3D::toUtf8 link.keyId])++[[0x2F]]

def encoded (bs : List UInt8) : QString := bs.flatMap encodeLinkOctet

theorem encoded_kind : encoded (toUtf8 (lit "httpcache"))=lit "httpcache" := by
  rw [toUtf8_ascii (List.all_iff_forall_prop.mp (by decide))]
  decide

theorem toLink_eq_barred (link : ED2KHttpCacheLink) :
    link.toLink=lit "ed2k://" ++ barred (link.fieldOctets.map encoded) := by
  have hfront : lit "ed2k://|httpcache|" = lit "ed2k://" ++ pipe::(lit "httpcache" ++ [pipe]) := by
    decide
  have hkey : ∀ bs,encoded (0x6B::0x3D::bs)=lit "k=" ++ encoded bs := fun bs => rfl
  have hslash : encoded [0x2F]=[slash] := rfl
  have hend : lit "|/" = [pipe,slash] := rfl
  have hoption : lit "|k=" = pipe::lit "k=" := rfl
  unfold ED2KHttpCacheLink.toLink ED2KHttpCacheLink.fieldOctets barred encodeLinkField
  rw [hfront,hend,hoption]
  split_ifs <;>
    simp only [List.map_cons,List.map_nil,encoded_kind,hkey,hslash,List.flatMap_cons,
      List.flatMap_nil,List.append_assoc,List.cons_append,List.nil_append,
      List.append_nil] <;> rfl

theorem barred_replaced (bs : List UInt8) :
    pipe::bs.flatMap replacedOctet=barred ((bs.splitOn 0x7C).map encoded) := by
  induction bs with
  | nil => rfl
  | cons b bs ih =>
    rw [List.splitOn_cons_eq_if_modifyHead,List.flatMap_cons,replacedOctet]
    by_cases hbar : b=0x7C
    · rw [if_pos hbar,if_pos (beq_iff_eq.mpr hbar),List.map_cons,barred_cons,← ih]
      rfl
    · rw [if_neg hbar,if_neg (by simpa using hbar)]
      obtain ⟨piece,rest,hsplit⟩ := List.exists_cons_of_ne_nil (List.splitOn_ne_nil 0x7C bs)
      rw [hsplit,List.map_cons,barred_cons] at ih
      rw [hsplit,List.modifyHead_cons,List.map_cons,barred_cons,(List.cons.inj ih).2,encoded,
        encoded,List.flatMap_cons,List.append_assoc]

theorem replaceEncodedBars_barred (bss : List (List UInt8)) :
    replaceEncodedBars (barred (bss.map encoded)) =
      barred ((bss.flatMap (List.splitOn 0x7C)).map encoded) := by
  induction bss with
  | nil => rfl
  | cons bs bss ih =>
    rw [List.map_cons,barred_cons,replaceEncodedBars_plain (by decide),encoded,
      replaceEncodedBars_encode,ih,← List.cons_append,barred_replaced,List.flatMap_cons,
      List.map_append,barred,barred,barred,List.flatMap_append]

section Parse

variable {r : LinkReader} {strictUrl : QString → QUrl} {link : ED2KHttpCacheLink}

theorem parseED2KLink_barred {text : QString} {fields : List QString} (hne : text≠[])
    (hnormal : normalizeEd2kLink (trimmed text) =
      lit "ed2k://" ++ barred (lit "httpcache" :: fields))
    (h : ∀ field∈fields,pipe∉field) :
    parseED2KLink (r.withHttpCache strictUrl) text =
      if (toUtf8 (lit "ed2k://" ++ barred (lit "httpcache" :: fields))).length ≤
          kMaxHttpCacheLinkBytes then
        (parseHttpCacheLink strictUrl (lit "httpcache" :: fields)).map .httpCache
      else none := by
  have hmagnet : startsWithFold (lit "ed2k://" ++ barred (lit "httpcache" :: fields))
      (lit "magnet:")=false := rfl
  have hed2k : startsWithFold (lit "ed2k://" ++ barred (lit "httpcache" :: fields))
      (lit "ed2k://|")=true := by
    rw [barred_cons]
    exact startsWithFold_append (by decide) _
  have hbody : (lit "ed2k://" ++ barred (lit "httpcache" :: fields)).drop 8 =
      lit "httpcache" ++ barred fields := rfl
  have htype : toLower ((lit "httpcache" :: fields).headD [])=lit "httpcache" := by
    rw [List.headD_cons]
    decide
  unfold parseED2KLink
  rw [if_neg hne,hnormal]
  dsimp only
  rw [hmagnet,if_neg Bool.false_ne_true,hed2k,if_neg (by simp),hbody,
    splitOn_barred (by decide) h,htype,if_neg (by decide),if_neg (by decide),
    if_neg (by decide),if_neg (by decide),if_pos rfl]
  rfl

theorem parseCacheOptions_fields {options : List QString} {link' : ED2KHttpCacheLink}
    (h : parseCacheOptions options link=some link') :
    link'.name=link.name ∧ link'.baseUrl=link.baseUrl ∧ link'.secret=link.secret := by
  induction options generalizing link with
  | nil =>
    obtain rfl := Option.some.inj h
    exact ⟨rfl,rfl,rfl⟩
  | cons option options ih =>
    unfold parseCacheOptions at h
    dsimp only at h
    split_ifs at h with hnone hother
    · exact ih h
    · split at h
      · cases h
      · split_ifs at h
        have hrest := ih h
        exact hrest

theorem parseHttpCacheLink_fields {parts : List QString}
    (h : parseHttpCacheLink strictUrl parts=some link) :
    decodeLinkField (parts.getD 1 [])=some link.name ∧
      decodeLinkField (parts.getD 2 [])=some link.baseUrl ∧
      decodeLinkField (parts.getD 3 [])=some link.secret := by
  unfold parseHttpCacheLink at h
  split_ifs at h
  split at h
  · next name baseUrl secret hname hbase hsecret =>
    split_ifs at h
    obtain ⟨h1,h2,h3⟩ := parseCacheOptions_fields h
    exact ⟨h1 ▸ hname,h2 ▸ hbase,h3 ▸ hsecret⟩
  · cases h

/-- The fields are ones `parseHttpCacheLink` accepts. -/
structure ED2KHttpCacheLink.Accepted (strictUrl : QString → QUrl) (link : ED2KHttpCacheLink) :
    Prop where
  name : ∃ field, decodeLinkField field = some link.name
  baseUrl : ∃ field, decodeLinkField field = some link.baseUrl
  base : (strictUrl link.baseUrl).isBase = true
  http : startsWithFold link.baseUrl (lit "http") = true
  secret : isSecret link.secret = true
  keyId : link.keyId = [] ∨ isKeyId link.keyId = true

/-- The name begins with no byte order mark and no field encodes to the start of an encoded
link. -/
def ED2KHttpCacheLink.Carried (link : ED2KHttpCacheLink) : Prop :=
  link.name.head? ≠ some 0xFEFF ∧ ∀ field ∈ [link.name, link.baseUrl, link.secret],
    containsFold (encodeLinkField field) (lit "ed2k://%7c") = false

theorem text_of_ascii (h : ∀ u∈s,u.toNat≤0x7F) : ∃ cs : List Char, s=cs.flatMap utf16 := by
  refine ⟨s.map fun u => Char.ofNat u.toNat,?_⟩
  induction s with
  | nil => rfl
  | cons u s ih =>
    obtain ⟨hu,hs⟩ := List.forall_mem_cons.mp h
    have hvalid : u.toNat.isValidChar := Or.inl (by omega)
    have hvalue : (Char.ofNat u.toNat).toNat=u.toNat := by
      rw [Char.ofNat,dif_pos hvalid]
      rfl
    rw [List.map_cons,List.flatMap_cons,← ih hs,utf16,hvalue,if_pos (by omega),
      UInt16.ofNat_toNat,List.singleton_append]

theorem secret_units (h : isSecret s=true) : ∀ u∈s,0x21≤u.toNat ∧ u.toNat≤0x7E := by
  rw [isSecret,Bool.and_eq_true,List.all_eq_true] at h
  exact fun u hu => of_decide_eq_true (h.2 u hu)

theorem keyId_units (h : isKeyId s=true) : ∀ u∈s,0x21≤u.toNat ∧ u.toNat≤0x7A := by
  rw [isKeyId,Bool.and_eq_true,List.all_eq_true] at h
  intro u hu
  have := of_decide_eq_true (h.2 u hu)
  omega

theorem first_piece (hbar : (0x7C : UInt8)∈utf8 cs) :
    ∃ piece rest, (utf8 cs).splitOn 0x7C=piece::rest ∧ fromUtf8 piece≠cs.flatMap utf16 := by
  obtain ⟨c,hc,hvalue⟩ := ascii_of_mem_utf8 (by decide) hbar
  obtain rfl : c = '|' := Char.ext (UInt32.toNat_inj.mp hvalue)
  obtain ⟨a,b,rfl,ha⟩ := List.eq_append_cons_of_mem hc
  have hnot : (0x7C : UInt8)∉utf8 a := by
    intro hmem
    obtain ⟨c,hc,hvalue⟩ := ascii_of_mem_utf8 (by decide) hmem
    exact ha ((Char.ext (UInt32.toNat_inj.mp hvalue) : c = '|') ▸ hc)
  have hbytes : utf8 (a ++ '|'::b)=utf8 a++0x7C::utf8 b := by
    rw [utf8,List.flatMap_append,List.flatMap_cons]
    rfl
  refine ⟨utf8 a,(utf8 b).splitOn 0x7C,?_,fun heq => ?_⟩
  · rw [hbytes,List.splitOn_append_cons_self_of_not_mem hnot]
  have hlength := congrArg List.length heq
  have hle : (dropMarks 1 a).flatMap utf16 <:+ a.flatMap utf16 := by
    cases a with
    | nil => exact List.suffix_rfl
    | cons c a =>
      rw [dropMarks]
      split_ifs
      · rw [dropMarks,List.flatMap_cons]
        exact List.suffix_append _ _
      · exact List.suffix_rfl
  rw [fromUtf8_utf8,List.flatMap_append,List.flatMap_cons,List.length_append,
    List.length_append] at hlength
  have hone : (utf16 '|').length=1 := rfl
  have := hle.length_le
  omega

theorem decodeLinkField_ascii (hne : s≠[]) (h : ∀ u∈s,0x21≤u.toNat ∧ u.toNat≤0x7E) :
    decodeLinkField (encodeLinkField s)=some s := by
  obtain ⟨cs,rfl⟩ := text_of_ascii (s := s) fun u hu => by have := h u hu; omega
  refine decodeLinkField_encode ?_ fun hmark => ?_
  · rw [List.any_eq_false]
    intro u hu
    have := h u hu
    simp only [isControl,decide_eq_true_eq]
    omega
  · cases cs with
    | nil => cases hmark
    | cons c cs =>
      obtain rfl := Option.some.inj hmark
      have := (h 0xFEFF (by rw [List.flatMap_cons]; exact List.mem_append_left _ (by decide))).2
      exact absurd this (by decide)

/-- What the options of a link are. -/
def ED2KHttpCacheLink.optionOctets (link : ED2KHttpCacheLink) : List (List UInt8) :=
  if link.keyId=[] then [] else [0x6B::0x3D::toUtf8 link.keyId]

theorem parseCacheOptions_optionOctets (h : link.keyId=[] ∨ isKeyId link.keyId=true) :
    parseCacheOptions (link.optionOctets.map encoded)
      ⟨link.name,link.baseUrl,link.secret,[]⟩=some link := by
  unfold ED2KHttpCacheLink.optionOctets
  by_cases hempty : link.keyId=[]
  · rw [if_pos hempty,← hempty]
    rfl
  · have hkey := h.resolve_left hempty
    have hoption : encoded (0x6B::0x3D::toUtf8 link.keyId) =
        0x6B::equalsSign::encodeLinkField link.keyId := rfl
    have hindex : (0x6B::equalsSign::encodeLinkField link.keyId).idxOf equalsSign=1 := by
      rw [List.idxOf_cons_ne _ (by decide),List.idxOf_cons_self]
    have hback := decodeLinkField_ascii hempty fun u hu => by have := keyId_units hkey u hu; omega
    rw [if_neg hempty,List.map_singleton,hoption,parseCacheOptions]
    rw [hindex,if_neg (by simp),if_neg (by simpa using by decide)]
    have hdrop : (0x6B::equalsSign::encodeLinkField link.keyId).drop (1+1) =
        encodeLinkField link.keyId := rfl
    rw [hdrop,hback]
    dsimp only
    rw [if_pos hkey,parseCacheOptions]

theorem fieldOctets_eq (link : ED2KHttpCacheLink) : link.fieldOctets =
    toUtf8 (lit "httpcache")::toUtf8 link.name::toUtf8 link.baseUrl::toUtf8 link.secret ::
      (link.optionOctets++[[0x2F]]) := rfl

theorem toLink_ascii (link : ED2KHttpCacheLink) : ∀ u∈link.toLink,u.toNat≤0x7F := by
  intro u hu
  rw [toLink_eq_barred,barred,List.mem_append,List.mem_flatMap] at hu
  rcases hu with hu | ⟨field,hfield,hu⟩
  · have hall : ∀ u∈lit "ed2k://", u.toNat≤0x7F := List.all_iff_forall_prop.mp (by decide)
    exact hall u hu
  · obtain ⟨bs,-,rfl⟩ := List.mem_map.mp hfield
    rcases List.mem_cons.mp hu with rfl | hu
    · decide
    · obtain ⟨b,-,hu⟩ := List.mem_flatMap.mp hu
      exact (encodeLinkOctet_units hu).2

theorem trimmed_toLink (link : ED2KHttpCacheLink) : trimmed link.toLink=link.toLink := by
  refine trimmed_eq (fun v hv => ?_) fun v hv => ?_
  · rw [toLink_eq_barred] at hv
    obtain rfl := Option.some.inj hv
    decide
  · have hend : link.toLink.getLast? = some slash := by
      unfold ED2KHttpCacheLink.toLink
      rw [List.getLast?_append_of_ne_nil _ (by decide)]
      rfl
    rw [hend] at hv
    obtain rfl := Option.some.inj hv
    decide

theorem toLink_ne_nil (link : ED2KHttpCacheLink) : link.toLink≠[] := by
  rw [toLink_eq_barred]
  exact List.cons_ne_nil _ _

/-- The pieces the parser sees: the fields, or what replaced bars make of them. -/
def ED2KHttpCacheLink.pieces (link : ED2KHttpCacheLink) : List (List UInt8) :=
  if containsFold link.toLink (lit "ed2k://%7c") then
    link.fieldOctets.flatMap (List.splitOn 0x7C)
  else link.fieldOctets

theorem normalizeEd2kLink_toLink (link : ED2KHttpCacheLink) :
    normalizeEd2kLink link.toLink=lit "ed2k://" ++ barred (link.pieces.map encoded) := by
  have hfront : lit "ed2k://" =
      ([0x65,0x64,0x32,0x6B,0x3A,0x2F,0x2F] : List UInt8).flatMap encodeLinkOctet := by
    decide
  have hkept : ([0x65,0x64,0x32,0x6B,0x3A,0x2F,0x2F] : List UInt8).flatMap encodeLinkOctet =
      ([0x65,0x64,0x32,0x6B,0x3A,0x2F,0x2F] : List UInt8).flatMap replacedOctet := by
    decide
  unfold normalizeEd2kLink ED2KHttpCacheLink.pieces
  split_ifs
  · rw [toLink_eq_barred,hfront,replaceEncodedBars_encode,replaceEncodedBars_barred,hkept]
  · exact toLink_eq_barred link

theorem bar_of_containsFold (hkey : link.keyId=[] ∨ isKeyId link.keyId=true)
    (h : containsFold link.toLink (lit "ed2k://%7c")=true) :
    ∃ field∈[link.name,link.baseUrl,link.secret],
      containsFold (encodeLinkField field) (lit "ed2k://%7c")=true ∧
        (0x7C : UInt8)∈toUtf8 field := by
  have hbar : ∀ bs,containsFold (encoded bs) (lit "ed2k://%7c")=true → (0x7C : UInt8)∈bs :=
    fun bs h => bar_of_escape ((by decide : lit "%7c" <:+: lit "ed2k://%7c").trans
      (of_decide_eq_true h))
  rw [toLink_eq_barred,containsFold_barred (by decide)] at h
  obtain ⟨field,hfield,h⟩ := h
  rcases List.mem_cons.mp hfield with rfl | hfield
  · exact absurd h (by decide)
  obtain ⟨bs,hbs,rfl⟩ := List.mem_map.mp hfield
  have hmem := hbar bs h
  rw [fieldOctets_eq] at hbs
  simp only [List.mem_cons,List.mem_append,List.not_mem_nil,or_false] at hbs
  rcases hbs with rfl | rfl | rfl | rfl | hbs | rfl
  · rw [toUtf8_ascii (List.all_iff_forall_prop.mp (by decide))] at hmem
    exact absurd hmem (by decide)
  · exact ⟨_,by simp,h,hmem⟩
  · exact ⟨_,by simp,h,hmem⟩
  · exact ⟨_,by simp,h,hmem⟩
  · unfold ED2KHttpCacheLink.optionOctets at hbs
    split_ifs at hbs with hempty
    · cases hbs
    · have hunits := keyId_units (hkey.resolve_left hempty)
      obtain rfl := List.mem_singleton.mp hbs
      rw [toUtf8_ascii fun u hu => by have := hunits u hu; omega] at hmem
      rcases List.mem_cons.mp hmem with hk | hmem
      · exact absurd hk (by decide)
      rcases List.mem_cons.mp hmem with hk | hmem
      · exact absurd hk (by decide)
      obtain ⟨u,hu,hvalue⟩ := List.mem_map.mp hmem
      have hvalue := congrArg UInt8.toNat hvalue
      have := hunits u hu
      rw [UInt8.toNat_ofNat'] at hvalue
      have hpipe : (0x7C : UInt8).toNat=124 := rfl
      omega
  · exact absurd hmem (by decide)

theorem pieces_of_parse {rest : List (List UInt8)}
    (hpieces : link.pieces=toUtf8 (lit "httpcache")::rest)
    (h : parseED2KLink (r.withHttpCache strictUrl) link.toLink=some (.httpCache link)) :
    decodeLinkField (encoded (rest.getD 0 []))=some link.name ∧
      decodeLinkField (encoded (rest.getD 1 []))=some link.baseUrl ∧
      decodeLinkField (encoded (rest.getD 2 []))=some link.secret := by
  have hnormal : normalizeEd2kLink (trimmed link.toLink) =
      lit "ed2k://" ++ barred (lit "httpcache" :: rest.map encoded) := by
    rw [trimmed_toLink,normalizeEd2kLink_toLink,hpieces,List.map_cons,encoded_kind]
  have hbars : ∀ field∈rest.map encoded,pipe∉field := fun field hfield => by
    obtain ⟨bs,-,rfl⟩ := List.mem_map.mp hfield
    exact pipe_not_mem_encode bs
  rw [parseED2KLink_barred (toLink_ne_nil link) hnormal hbars] at h
  split_ifs at h
  obtain ⟨link',hlink,heq⟩ := Option.map_eq_some_iff.mp h
  obtain rfl := ED2KLink.httpCache.inj heq
  have hfields := parseHttpCacheLink_fields hlink
  have hnil : ([] : QString)=encoded [] := rfl
  simp only [List.getD_cons_succ] at hfields
  rw [hnil,List.getD_map,List.getD_map,List.getD_map] at hfields
  exact hfields

theorem not_decode_piece {piece : List UInt8} (h : fromUtf8 piece≠s) :
    decodeLinkField (encoded piece)≠some s := by
  rw [encoded,decodeLinkField_octets]
  split_ifs
  · exact (Option.some_ne_none s).symm
  · exact fun heq => h (Option.some.inj heq)

theorem encode_mem_fieldOctets (h : s∈[link.name,link.baseUrl,link.secret])
    (hfold : containsFold (encodeLinkField s) (lit "ed2k://%7c")=true) :
    containsFold link.toLink (lit "ed2k://%7c")=true := by
  rw [toLink_eq_barred,containsFold_barred (by decide)]
  refine ⟨encodeLinkField s,List.mem_cons_of_mem _ (List.mem_map.mpr ⟨toUtf8 s,?_,rfl⟩),hfold⟩
  rw [fieldOctets_eq]
  simp only [List.mem_cons,List.not_mem_nil,or_false] at h
  rcases h with rfl | rfl | rfl <;> simp

theorem splitOn_kind : (toUtf8 (lit "httpcache")).splitOn (0x7C : UInt8) =
    [toUtf8 (lit "httpcache")] := by
  rw [toUtf8_ascii (List.all_iff_forall_prop.mp (by decide))]
  decide

theorem not_parse_of_containsFold {names urls secrets : List Char}
    (hname : link.name=names.flatMap utf16) (hurl : link.baseUrl=urls.flatMap utf16)
    (hsecret : link.secret=secrets.flatMap utf16)
    (hkey : link.keyId=[] ∨ isKeyId link.keyId=true)
    (hfold : containsFold link.toLink (lit "ed2k://%7c")=true) :
    parseED2KLink (r.withHttpCache strictUrl) link.toLink≠some (.httpCache link) := by
  intro hparse
  have hpieces : link.pieces=toUtf8 (lit "httpcache")::((utf8 names).splitOn 0x7C ++
      ((utf8 urls).splitOn 0x7C++((utf8 secrets).splitOn 0x7C ++
        (link.optionOctets++[[0x2F]]).flatMap (List.splitOn 0x7C)))) := by
    rw [ED2KHttpCacheLink.pieces,if_pos hfold,fieldOctets_eq,hname,hurl,hsecret,toUtf8_text,
      toUtf8_text,toUtf8_text,List.flatMap_cons,List.flatMap_cons,List.flatMap_cons,
      List.flatMap_cons,splitOn_kind]
    rfl
  obtain ⟨h1,h2,h3⟩ := pieces_of_parse hpieces hparse
  rw [hname] at h1
  rw [hurl] at h2
  rw [hsecret] at h3
  by_cases hN : (0x7C : UInt8)∈utf8 names
  · obtain ⟨piece,rest,hsplit,hne⟩ := first_piece hN
    rw [hsplit] at h1
    exact not_decode_piece hne h1
  rw [List.splitOn_eq_singleton hN] at h2 h3
  by_cases hU : (0x7C : UInt8)∈utf8 urls
  · obtain ⟨piece,rest,hsplit,hne⟩ := first_piece hU
    rw [hsplit] at h2
    exact not_decode_piece hne h2
  rw [List.splitOn_eq_singleton hU] at h3
  by_cases hS : (0x7C : UInt8)∈utf8 secrets
  · obtain ⟨piece,rest,hsplit,hne⟩ := first_piece hS
    rw [hsplit] at h3
    exact not_decode_piece hne h3
  obtain ⟨field,hfield,-,hbar⟩ := bar_of_containsFold hkey hfold
  simp only [List.mem_cons,List.not_mem_nil,or_false] at hfield
  rcases hfield with rfl | rfl | rfl
  · exact hN (toUtf8_text names ▸ hname ▸ hbar)
  · exact hU (toUtf8_text urls ▸ hurl ▸ hbar)
  · exact hS (toUtf8_text secrets ▸ hsecret ▸ hbar)

theorem parseHttpCacheLink_fieldOctets (h : link.Accepted strictUrl)
    (hname : decodeLinkField (encodeLinkField link.name)=some link.name)
    (hurl : decodeLinkField (encodeLinkField link.baseUrl)=some link.baseUrl)
    (hsecret : decodeLinkField (encodeLinkField link.secret)=some link.secret) :
    parseHttpCacheLink strictUrl (lit "httpcache" :: encodeLinkField link.name ::
      encodeLinkField link.baseUrl::encodeLinkField link.secret ::
        (link.optionOctets++[[0x2F]]).map encoded)=some link := by
  have hslash : encoded [0x2F]=[slash] := rfl
  rw [List.map_append,List.map_singleton,hslash,parseHttpCacheLink,if_neg]
  · simp only [List.getD_cons_succ,List.getD_cons_zero,hname,hurl,hsecret,h.base,h.secret,
      List.drop_succ_cons,List.drop_zero,List.dropLast_concat]
    rw [if_neg (by decide),if_neg (by decide)]
    exact parseCacheOptions_optionOctets h.keyId
  · simp [List.getLast?_cons]

theorem mark_iff (cs : List Char) :
    (cs.flatMap utf16).head? = some 0xFEFF ↔ cs.head? = some '\uFEFF' := by
  cases cs with
  | nil => exact iff_of_false (by simp) (by simp)
  | cons c cs =>
    have hvalue : c = '\uFEFF' ↔ c.toNat=0xFEFF :=
      ⟨fun h => h ▸ rfl,fun h => Char.ext (UInt32.toNat_inj.mp h)⟩
    rw [List.flatMap_cons,List.head?_cons,Option.some.injEq,hvalue,utf16]
    split_ifs with h
    · rw [List.singleton_append,List.head?_cons,Option.some.injEq,← UInt16.toNat_inj,
        UInt16.toNat_ofNat',Nat.mod_eq_of_lt h]
      rfl
    · rw [List.cons_append,List.head?_cons,Option.some.injEq,← UInt16.toNat_inj,
        UInt16.toNat_ofNat']
      have hmark : (0xFEFF : UInt16).toNat=0xFEFF := rfl
      have hchar := char_range c
      omega

theorem decodeLinkField_encode_iff (hcontrol : (cs.flatMap utf16).any isControl=false) :
    decodeLinkField (encodeLinkField (cs.flatMap utf16))=some (cs.flatMap utf16) ↔
      (cs.flatMap utf16).head? ≠ some 0xFEFF := by
  rw [Ne,mark_iff]
  refine ⟨fun hback hmark => ?_,decodeLinkField_encode hcontrol⟩
  obtain ⟨cs,rfl⟩ : ∃ rest, cs = '\uFEFF'::rest := by
    cases cs with
    | nil => cases hmark
    | cons c cs => exact ⟨cs,congrArg (· :: cs) (Option.some.inj hmark)⟩
  rw [encodeLinkField,toUtf8_text] at hback
  refine not_decode_piece (fun heq => ?_) hback
  have hlength := congrArg List.length heq
  rw [fromUtf8_utf8,dropMarks,if_pos rfl,dropMarks,List.flatMap_cons,List.length_append]
    at hlength
  have hone : (utf16 '\uFEFF').length=1 := rfl
  omega

/-- An accepted link is read back exactly if its fields are opaque to the normalisation and its
name to UTF-8 decoding. -/
theorem parseED2KLink_httpCache_iff (r : LinkReader) (strictUrl : QString → QUrl)
    (link : ED2KHttpCacheLink) (h : link.Accepted strictUrl)
    (hlength : (toUtf8 link.toLink).length ≤ kMaxHttpCacheLinkBytes) :
    parseED2KLink (r.withHttpCache strictUrl) link.toLink = some (.httpCache link) ↔
      link.Carried := by
  obtain ⟨field,hfield⟩ := h.name
  obtain ⟨⟨names,hname⟩,hnameControl⟩ := decodeLinkField_text hfield
  obtain ⟨field,hfield⟩ := h.baseUrl
  obtain ⟨⟨urls,hurl⟩,hurlControl⟩ := decodeLinkField_text hfield
  have hsecretUnits := secret_units h.secret
  obtain ⟨secrets,hsecret⟩ := text_of_ascii fun u hu => Nat.le_trans (hsecretUnits u hu).2
    (by decide)
  by_cases hfold : containsFold link.toLink (lit "ed2k://%7c")=true
  · refine iff_of_false (not_parse_of_containsFold hname hurl hsecret h.keyId hfold) fun hcarried => ?_
    obtain ⟨field,hmem,hfound,-⟩ := bar_of_containsFold h.keyId hfold
    exact Bool.false_ne_true ((hcarried.2 field hmem).symm.trans hfound)
  have hpieces : link.pieces=link.fieldOctets := if_neg hfold
  have hback : decodeLinkField (encodeLinkField link.name)=some link.name ↔
      link.name.head? ≠ some 0xFEFF :=
    hname ▸ decodeLinkField_encode_iff (hname ▸ hnameControl)
  constructor
  · intro hparse
    exact ⟨hback.mp (pieces_of_parse (hpieces.trans (fieldOctets_eq link)) hparse).1,
      fun field hmem => Bool.eq_false_of_not_eq_true fun hfound =>
        hfold (encode_mem_fieldOctets hmem hfound)⟩
  · rintro ⟨hmark,-⟩
    have hurlMark : link.baseUrl.head? ≠ some 0xFEFF := by
      intro hhead
      have hhttp := h.http
      cases hbase : link.baseUrl with
      | nil => rw [hbase] at hhead; cases hhead
      | cons u rest =>
        rw [hbase] at hhead hhttp
        obtain rfl := Option.some.inj hhead
        cases hhttp
    have hurlBack : decodeLinkField (encodeLinkField link.baseUrl)=some link.baseUrl := by
      rw [hurl] at hurlControl hurlMark ⊢
      exact (decodeLinkField_encode_iff hurlControl).mpr hurlMark
    have hsecretBack := decodeLinkField_ascii
      (of_decide_eq_true (Bool.and_eq_true_iff.mp h.secret).1).1 hsecretUnits
    have hnormal : normalizeEd2kLink (trimmed link.toLink)=lit "ed2k://" ++
        barred (lit "httpcache" :: encodeLinkField link.name::encodeLinkField link.baseUrl ::
          encodeLinkField link.secret::(link.optionOctets++[[0x2F]]).map encoded) := by
      rw [trimmed_toLink,normalizeEd2kLink_toLink,hpieces,fieldOctets_eq,List.map_cons,
        encoded_kind]
      rfl
    have hsame : lit "ed2k://" ++ barred (lit "httpcache" :: encodeLinkField link.name ::
        encodeLinkField link.baseUrl::encodeLinkField link.secret ::
          (link.optionOctets++[[0x2F]]).map encoded)=link.toLink := by
      rw [toLink_eq_barred,fieldOctets_eq,List.map_cons,encoded_kind]
      rfl
    rw [parseED2KLink_barred (toLink_ne_nil link) hnormal,hsame,if_pos hlength,
      parseHttpCacheLink_fieldOctets h (hback.mpr hmark) hurlBack hsecretBack]
    · rfl
    · intro field hmem
      simp only [List.mem_cons,List.mem_map] at hmem
      rcases hmem with rfl | rfl | rfl | ⟨bs,-,rfl⟩ <;> exact pipe_not_mem_encode _

end Parse

section Samples

/-- The URLs of the samples are ones of https with a host and nothing else. -/
def sampleUrl (_ : QString) : QUrl := ⟨true,false,lit "https",lit "c.example",[],false,false⟩

def sampleCacheLink (name : QString) : ED2KHttpCacheLink :=
  ⟨name,lit "https://c.example/x",lit "s|x",lit "k-1"⟩

theorem sampleCacheLink_accepted {name : QString} (hne : name≠[])
    (h : ∀ u∈name,0x21≤u.toNat ∧ u.toNat≤0x7E) :
    (sampleCacheLink name).Accepted sampleUrl where
  name := ⟨_,decodeLinkField_ascii hne h⟩
  baseUrl := ⟨_,decodeLinkField_ascii (s := lit "https://c.example/x") (by decide)
    (List.all_iff_forall_prop.mp (by decide))⟩
  base := show QUrl.isBase ⟨true,false,lit "https",lit "c.example",[],false,false⟩=true by
    decide
  http := show startsWithFold (lit "https://c.example/x") (lit "http")=true by decide
  secret := show isSecret (lit "s|x")=true by decide
  keyId := .inr (show isKeyId (lit "k-1")=true by decide)

/-- Bars in a name and in a secret do no harm. -/
theorem parseED2KLink_httpCache_sample :
    parseED2KLink (sampleReader.withHttpCache sampleUrl) (sampleCacheLink (lit "a|b")).toLink =
      some (.httpCache (sampleCacheLink (lit "a|b"))) := by
  refine (parseED2KLink_httpCache_iff sampleReader sampleUrl (sampleCacheLink (lit "a|b"))
    (sampleCacheLink_accepted (by decide) (List.all_iff_forall_prop.mp (by decide))) ?_).mpr
      ⟨by decide,List.all_iff_forall_prop.mp (by decide +kernel)⟩
  rw [toUtf8_ascii (toLink_ascii _)]
  decide +kernel

/-- A name that is the start of a link splits the link it is in. -/
theorem not_parseED2KLink_httpCache : ¬ ∀ r strictUrl (link : ED2KHttpCacheLink),
    link.Accepted strictUrl → (toUtf8 link.toLink).length ≤ kMaxHttpCacheLinkBytes →
      parseED2KLink (LinkReader.withHttpCache r strictUrl) link.toLink = some (.httpCache link) := by
  intro h
  have haccepted : (sampleCacheLink (lit "ed2k://|x")).Accepted sampleUrl :=
    sampleCacheLink_accepted (by decide) (List.all_iff_forall_prop.mp (by decide))
  have hlength : (toUtf8 (sampleCacheLink (lit "ed2k://|x")).toLink).length ≤
      kMaxHttpCacheLinkBytes := by
    rw [toUtf8_ascii (toLink_ascii _)]
    decide +kernel
  have hname : (sampleCacheLink (lit "ed2k://|x")).name = "ed2k://|x".toList.flatMap utf16 := by
    decide
  have hurl : (sampleCacheLink (lit "ed2k://|x")).baseUrl =
      "https://c.example/x".toList.flatMap utf16 := by decide
  have hsecret : (sampleCacheLink (lit "ed2k://|x")).secret = "s|x".toList.flatMap utf16 := by
    decide
  exact not_parse_of_containsFold hname hurl hsecret haccepted.keyId (by decide +kernel)
    (h sampleReader sampleUrl _ haccepted hlength)

end Samples

end EmuleQt.Protocol
