import EmuleQt.Protocol.Tag

namespace EmuleQt.Protocol

open Crypto Math Utils

namespace Tag

inductive Writer
  | writeTagToFile | writeNewEd2kTag
  deriving DecidableEq

def Writer.write : Writer → Tag → UTF8Mode → Except FileException Bool × List UInt8
  | .writeTagToFile => Tag.writeTagToFile
  | .writeNewEd2kTag => Tag.writeNewEd2kTag

/-- Names, strings and blobs whose length fields hold their length; only one writer refuses a
BSOB before it writes. -/
def Fits (w : Writer) (encode : UTF8Mode) (t : Tag) : Prop :=
  t.name.length < 2 ^ 16 ∧
    match t.value with
    | .string s => (encodeString s encode).length < 2 ^ 16
    | .blob data => data.length < 2 ^ 32
    | .bsob _ => w = .writeNewEd2kTag
    | _ => True

/-- The value once read: strings reread, and a 64-bit integer of 32 bits narrowed. -/
def rereadValue (w : Writer) (encode : UTF8Mode) : TagValue → TagValue
  | .string s => .string (reread s encode)
  | .uint64 v =>
    if w = .writeNewEd2kTag ∧ v.toNat≤0xFFFFFFFF then .uint32 (UInt32.ofNat v.toNat)
    else .uint64 v
  | v => v

/-- The name once read: a single byte is a numeric name. -/
def rereadName (t : Tag) : List UInt8 × UInt8 :=
  match t.name with
  | [b] => ([], b)
  | name => (name, t.nameId)

def rereadTag (w : Writer) (encode : UTF8Mode) (t : Tag) : Tag :=
  ⟨rereadValue w encode t.value,t.rereadName.1,t.rereadName.2⟩

/-- A name other than a single byte, and no string with a lone surrogate or a mark in front. -/
def Plain (t : Tag) : Prop :=
  t.name.length ≠ 1 ∧
    ∀ s, t.value = .string s → ∃ cs : List Char, s = cs.flatMap utf16 ∧ cs.head? ≠ some '\uFEFF'

theorem wireType_bits : ∀ type<0x80,type &&& 0x80=0 ∧ (type ||| 0x80)<2^8 ∧
    (type ||| 0x80) &&& 0x80≠0 ∧ (type ||| 0x80) &&& 0x7F=type := by
  decide

@[simp] theorem writeUInt8_toNat (b : UInt8) : writeUInt8 b.toNat=[b] := by
  simp [writeUInt8,leBytes]

variable {type : Nat} {t : Tag} {encode : UTF8Mode}

theorem readHead_stringName (htype : type<0x80) {name : List UInt8} (hname : name.length<2^16)
    (rest : List UInt8) :
    readHead (writeUInt8 type++(writeUInt16 name.length++(name++rest))) =
      .ok ((type, (rereadName ⟨.none,name,0⟩).1, (rereadName ⟨.none,name,0⟩).2), rest) := by
  have hbits := (wireType_bits type htype).1
  rw [readHead,Reader.bind_ok (readUInt8_write (by omega) _),if_neg (by simp [hbits]),
    Reader.bind_ok (readUInt16_write hname _)]
  match name with
  | [] => rfl
  | [b] =>
    have hread := readUInt8_write b.toNat_lt rest
    rw [writeUInt8_toNat] at hread
    rw [List.length_singleton,if_pos rfl,Reader.bind_ok hread]
    simp [rereadName]
  | b::c::name =>
    have hread := Reader.read_append (rfl : (b::c::name).length=_) rest
    rw [if_neg (by simp),if_pos (by simp),Reader.bind_ok hread]
    rfl

theorem rereadName_eq (ht : t.Built) :
    if t.numeric then t.name=[] ∧ t.rereadName=([], t.nameId)
    else t.rereadName=rereadName ⟨.none,t.name,0⟩ := by
  obtain ⟨value,name,nameId⟩ := t
  obtain ⟨-,hname⟩ := ht
  simp only [numeric,decide_eq_true_eq] at hname ⊢
  by_cases hid : nameId=0
  · rw [if_neg (fun h => h.1 hid),hid]
    match name with
    | [] => rfl
    | [b] => rfl
    | b::c::name => rfl
  · obtain rfl := hname.resolve_right hid
    rw [if_pos ⟨hid,rfl⟩]
    exact ⟨rfl,rfl⟩

theorem readHead_old (ht : t.Built) (hname : t.name.length<2^16) (htype : type<0x80)
    (rest : List UInt8) :
    readHead ((writeUInt8 type ++
        if t.numeric then writeUInt16 1++writeUInt8 t.nameId.toNat else t.writeStringName) ++
        rest) = .ok ((type, t.rereadName.1, t.rereadName.2), rest) := by
  have hread := rereadName_eq ht
  by_cases hnum : t.numeric=true
  · rw [if_pos hnum] at hread ⊢
    have hlength : [t.nameId].length<2^16 := by simp
    have hone := readHead_stringName htype hlength rest
    rw [hread.2,writeUInt8_toNat,List.append_assoc,List.append_assoc]
    exact hone
  · rw [if_neg hnum] at hread ⊢
    rw [hread,writeStringName,List.append_assoc,List.append_assoc]
    exact readHead_stringName htype hname rest

theorem readHead_new (ht : t.Built) (hname : t.name.length<2^16) (htype : type<0x80)
    (rest : List UInt8) :
    readHead (t.writeNameAndType type++rest) =
      .ok ((type, t.rereadName.1, t.rereadName.2), rest) := by
  have hread := rereadName_eq ht
  rw [writeNameAndType]
  by_cases hnum : t.numeric=true
  · rw [if_pos hnum] at hread ⊢
    obtain ⟨-,hlt,hflag,hlow⟩ := wireType_bits type htype
    have hid := readUInt8_write t.nameId.toNat_lt rest
    rw [List.append_assoc,readHead,Reader.bind_ok (readUInt8_write hlt _),if_pos hflag,
      Reader.bind_ok hid,hlow,hread.2]
    simp
  · rw [if_neg hnum] at hread ⊢
    rw [hread,writeStringName,List.append_assoc,List.append_assoc]
    exact readHead_stringName htype hname rest

theorem read_append {head body rest : List UInt8} {optUTF8 : Bool} {name : List UInt8}
    {nameId : UInt8} {value : TagValue}
    (hhead : readHead (head++(body++rest)) = .ok ((type, name, nameId), body++rest))
    (hvalue : readValue optUTF8 type (body++rest) = .ok (value, rest)) :
    read optUTF8 ((head++body)++rest) = .ok (⟨value,name,nameId⟩, rest) := by
  rw [List.append_assoc,read,Reader.bind_ok hhead]
  exact Reader.bind_ok hvalue

section Values

variable (rest : List UInt8)

theorem readValue_uint8 {v : Nat} (h : v<2^8) :
    readValue true TAGTYPE_UINT8 (writeUInt8 v++rest) = .ok (.uint32 (UInt32.ofNat v), rest) := by
  rw [readValue,if_neg (by decide),if_neg (by decide),if_neg (by decide),if_neg (by decide),
    if_pos rfl,Reader.bind_ok (readUInt8_write h rest)]
  rfl

theorem readValue_uint16 {v : Nat} (h : v<2^16) :
    readValue true TAGTYPE_UINT16 (writeUInt16 v++rest) =
      .ok (.uint32 (UInt32.ofNat v), rest) := by
  rw [readValue,if_neg (by decide),if_neg (by decide),if_neg (by decide),if_pos rfl,
    Reader.bind_ok (readUInt16_write h rest)]
  rfl

theorem readValue_uint32 {v : Nat} (h : v<2^32) :
    readValue true TAGTYPE_UINT32 (writeUInt32 v++rest) =
      .ok (.uint32 (UInt32.ofNat v), rest) := by
  rw [readValue,if_neg (by decide),if_pos rfl,Reader.bind_ok (readUInt32_write h rest)]
  rfl

theorem readValue_uint64 {v : Nat} (h : v<2^64) :
    readValue true TAGTYPE_UINT64 (writeUInt64 v++rest) =
      .ok (.uint64 (UInt64.ofNat v), rest) := by
  rw [readValue,if_neg (by decide),if_neg (by decide),if_pos rfl,
    Reader.bind_ok (readUInt64_write h rest)]
  rfl

theorem readValue_float (f : Digest 4) :
    readValue true TAGTYPE_FLOAT32 (f.bytes++rest) = .ok (.float f, rest) := by
  rw [readValue,if_neg (by decide),if_neg (by decide),if_neg (by decide),if_neg (by decide),
    if_neg (by decide),if_pos rfl,Reader.bind_ok (Digest.read_append f rest)]
  rfl

theorem readValue_hash (h : MD4Hash) :
    readValue true TAGTYPE_HASH (h.bytes++rest) = .ok (.hash h, rest) := by
  rw [readValue,if_neg (by decide),if_neg (by decide),if_neg (by decide),if_neg (by decide),
    if_neg (by decide),if_neg (by decide),if_pos rfl,Reader.bind_ok (Digest.read_append h rest)]
  rfl

theorem readValue_blob {data : List UInt8} (h : data.length<2^32) :
    readValue true TAGTYPE_BLOB ((writeUInt32 data.length++data)++rest) =
      .ok (.blob data, rest) := by
  have hleft : ¬data.length>(data++rest).length := by
    rw [List.length_append]
    omega
  rw [readValue,if_neg (by decide),if_neg (by decide),if_neg (by decide),if_neg (by decide),
    if_neg (by decide),if_neg (by decide),if_neg (by decide),if_pos rfl,List.append_assoc,
    Reader.bind_ok (readUInt32_write h _),Reader.bind_ok (Reader.remaining_apply _),if_neg hleft,
    Reader.bind_ok (Reader.read_append rfl rest)]
  rfl

theorem readValue_string (s : QString) {encode : UTF8Mode} (h : encode ≠ .None)
    (hlen : (encodeString s encode).length<2^16) :
    readValue true TAGTYPE_STRING
        ((writeUInt16 (encodeString s encode).length++encodeString s encode)++rest) =
      .ok (.string (reread s encode), rest) := by
  have hread : readString true
      ((writeUInt16 (encodeString s encode).length++encodeString s encode)++rest) =
        .ok (reread s encode, rest) := by
    rw [readString,List.append_assoc,Reader.bind_ok (readUInt16_write hlen _)]
    exact readStringOf_append s h rest
  rw [readValue,if_pos rfl,Reader.bind_ok hread]
  rfl

theorem readValue_compact (s : QString) {encode : UTF8Mode} (h : encode ≠ .None)
    (hpos : 1≤(encodeString s encode).length) (hlen : (encodeString s encode).length≤22) :
    readValue true (TAGTYPE_STR1+(encodeString s encode).length-1)
        (encodeString s encode++rest) = .ok (.string (reread s encode), rest) := by
  have hread := readStringOf_append s h rest
  generalize (encodeString s encode).length=len at hpos hlen hread ⊢
  have hrange : TAGTYPE_STR1≤TAGTYPE_STR1+len-1 ∧
      TAGTYPE_STR1+len-1≤TAGTYPE_STR22 := by
    unfold TAGTYPE_STR1 TAGTYPE_STR22
    omega
  have hother : ∀ c<TAGTYPE_STR1,TAGTYPE_STR1+len-1≠c := fun c hc => by omega
  rw [readValue,if_neg (hother _ (by decide)),if_neg (hother _ (by decide)),
    if_neg (hother _ (by decide)),if_neg (hother _ (by decide)),if_neg (hother _ (by decide)),
    if_neg (hother _ (by decide)),if_neg (hother _ (by decide)),if_neg (hother _ (by decide)),
    if_neg (hother _ (by decide)),if_neg (hother _ (by decide)),if_neg (hother _ (by decide)),
    if_pos hrange,show TAGTYPE_STR1+len-1-TAGTYPE_STR1+1=len by omega,
    Reader.bind_ok hread]
  rfl

end Values

/-- What a writer did: it refused before it wrote, or its bytes read back. -/
def ReadsBack (w : Writer) (encode : UTF8Mode) (t : Tag) : Prop :=
  w.write t encode=(.ok false, []) ∨
    (w.write t encode).1 = .ok true ∧ ∀ rest,
      read true ((w.write t encode).2++rest) = .ok (t.rereadTag w encode, rest)

theorem ReadsBack.of_write {w : Writer} {head body : List UInt8}
    (hwrite : w.write t encode=(.ok true, head++body))
    (hhead : ∀ rest,readHead (head++rest) =
      .ok ((type, t.rereadName.1, t.rereadName.2), rest))
    (hvalue : ∀ rest,readValue true type (body++rest) =
      .ok (rereadValue w encode t.value, rest)) : t.ReadsBack w encode := by
  refine Or.inr ⟨congrArg Prod.fst hwrite,fun rest => ?_⟩
  rw [hwrite]
  exact read_append (hhead _) (hvalue rest)

theorem writeTagToFile_readsBack (hmode : encode ≠ .None) (ht : t.Built)
    (hfits : t.Fits .writeTagToFile encode) :
    t.ReadsBack .writeTagToFile encode := by
  obtain ⟨hname,hvalue⟩ := hfits
  have hhead : ∀ type<0x80,∀ rest,_ := fun _ htype rest => readHead_old ht hname htype rest
  obtain ⟨value,name,nameId⟩ := t
  cases value with
  | none => exact absurd rfl ht.1
  | bsob data => cases hvalue
  | string s =>
    have hwrite : writeString s encode =
        (.ok (), writeUInt16 (encodeString s encode).length++encodeString s encode) :=
      if_neg (Nat.not_lt.mpr (Nat.le_of_lt_succ hvalue))
    refine .of_write ?_ (hhead TAGTYPE_STRING (by decide)) fun rest =>
      readValue_string rest s hmode hvalue
    simp only [Writer.write,writeTagToFile,hwrite]
    rfl
  | uint32 v =>
    refine .of_write rfl (hhead TAGTYPE_UINT32 (by decide)) fun rest => ?_
    have hread := readValue_uint32 rest v.toNat_lt
    rwa [UInt32.ofNat_toNat] at hread
  | uint64 v =>
    refine .of_write rfl (hhead TAGTYPE_UINT64 (by decide)) fun rest => ?_
    have hread := readValue_uint64 rest v.toNat_lt
    rwa [UInt64.ofNat_toNat] at hread
  | float f =>
    exact .of_write rfl (hhead TAGTYPE_FLOAT32 (by decide)) fun rest => readValue_float rest f
  | hash h =>
    exact .of_write rfl (hhead TAGTYPE_HASH (by decide)) fun rest => readValue_hash rest h
  | blob data =>
    exact .of_write rfl (hhead TAGTYPE_BLOB (by decide)) fun rest => readValue_blob rest hvalue

theorem writeInt_readsBack
    (hhead : ∀ type<0x80,∀ rest,readHead (t.writeNameAndType type++rest) =
      .ok ((type, t.rereadName.1, t.rereadName.2), rest)) {v : Nat} (hv : v<2^64)
    (hwrite : t.writeNewEd2kTag encode=(.ok true, t.writeInt v))
    (hvalue : rereadValue .writeNewEd2kTag encode t.value =
      if v≤0xFFFFFFFF then .uint32 (UInt32.ofNat v) else .uint64 (UInt64.ofNat v)) :
    t.ReadsBack .writeNewEd2kTag encode := by
  have hwritten : Writer.writeNewEd2kTag.write t encode=(.ok true, t.writeInt v) := hwrite
  unfold writeInt at hwritten
  split_ifs at hwritten with h8 h16 h32
  · refine .of_write hwritten (hhead TAGTYPE_UINT8 (by decide)) fun rest => ?_
    rw [hvalue,if_pos (by omega)]
    exact readValue_uint8 rest (by omega)
  · refine .of_write hwritten (hhead TAGTYPE_UINT16 (by decide)) fun rest => ?_
    rw [hvalue,if_pos (by omega)]
    exact readValue_uint16 rest (by omega)
  · refine .of_write hwritten (hhead TAGTYPE_UINT32 (by decide)) fun rest => ?_
    rw [hvalue,if_pos h32]
    exact readValue_uint32 rest (by omega)
  · refine .of_write hwritten (hhead TAGTYPE_UINT64 (by decide)) fun rest => ?_
    rw [hvalue,if_neg h32]
    exact readValue_uint64 rest hv

theorem writeNewEd2kTag_readsBack (hmode : encode ≠ .None) (ht : t.Built)
    (hfits : t.Fits .writeNewEd2kTag encode) :
    t.ReadsBack .writeNewEd2kTag encode := by
  obtain ⟨hname,hvalue⟩ := hfits
  have hhead : ∀ type<0x80,∀ rest,readHead (t.writeNameAndType type++rest) =
      .ok ((type, t.rereadName.1, t.rereadName.2), rest) :=
    fun _ htype rest => readHead_new ht hname htype rest
  obtain ⟨value,name,nameId⟩ := t
  cases value with
  | none => exact absurd rfl ht.1
  | bsob data => exact Or.inl rfl
  | string s =>
    have hlen : (encodeString s encode).length%2^32=(encodeString s encode).length :=
      Nat.mod_eq_of_lt (Nat.lt_of_lt_of_le hvalue (by decide))
    by_cases hshort : 1≤(encodeString s encode).length ∧ (encodeString s encode).length≤16
    · have htype : TAGTYPE_STR1+(encodeString s encode).length-1<0x80 := by
        unfold TAGTYPE_STR1
        omega
      refine .of_write ?_ (hhead _ htype) fun rest =>
        readValue_compact rest s hmode hshort.1 (by omega)
      simp only [Writer.write,writeNewEd2kTag,hlen,if_pos hshort,List.take_length]
    · refine .of_write ?_ (hhead TAGTYPE_STRING (by decide)) fun rest =>
        readValue_string rest s hmode hvalue
      simp only [Writer.write,writeNewEd2kTag,hlen,if_neg hshort,List.take_length]
  | uint32 v =>
    have hv := v.toNat_lt
    refine writeInt_readsBack hhead (v := v.toNat) (by omega) rfl ?_
    rw [if_pos (by omega),UInt32.ofNat_toNat]
    rfl
  | uint64 v =>
    refine writeInt_readsBack hhead v.toNat_lt rfl ?_
    simp only [rereadValue,true_and,UInt64.ofNat_toNat]
  | float f =>
    exact .of_write rfl (hhead TAGTYPE_FLOAT32 (by decide)) fun rest => readValue_float rest f
  | hash h =>
    exact .of_write rfl (hhead TAGTYPE_HASH (by decide)) fun rest => readValue_hash rest h
  | blob data =>
    exact .of_write rfl (hhead TAGTYPE_BLOB (by decide)) fun rest => readValue_blob rest hvalue

theorem readsBack (w : Writer) (hmode : encode ≠ .None) (ht : t.Built) (hfits : t.Fits w encode) :
    t.ReadsBack w encode := by
  cases w with
  | writeTagToFile => exact writeTagToFile_readsBack hmode ht hfits
  | writeNewEd2kTag => exact writeNewEd2kTag_readsBack hmode ht hfits

theorem readMany_append (w : Writer) (hmode : encode ≠ .None) (ts : List Tag)
    (hts : ∀ t∈ts,t.Built ∧ t.Fits w encode ∧ (w.write t encode).1 = .ok true)
    (rest : List UInt8) :
    readMany true ts.length ((ts.flatMap fun t => (w.write t encode).2)++rest) =
      .ok (ts.map (rereadTag w encode), rest) := by
  induction ts with
  | nil => rfl
  | cons t ts ih =>
    obtain ⟨ht,hfits,hok⟩ := hts t List.mem_cons_self
    have hrest := ih fun t' ht' => hts t' (List.mem_cons_of_mem t ht')
    rcases readsBack w hmode ht hfits with hrefused | ⟨-,hread⟩
    · rw [hrefused] at hok
      cases hok
    · rw [List.flatMap_cons,List.append_assoc,List.length_cons,readMany,
        Reader.bind_ok (hread _),Reader.bind_ok hrest]
      rfl

theorem rereadTag_plain (w : Writer) (encode : UTF8Mode) (ht : t.Plain) :
    t.rereadTag w encode=t ∨
      w = .writeNewEd2kTag ∧ ∃ v u, t.value = .uint64 v ∧ u.toNat=v.toNat ∧
        t.rereadTag w encode = { t with value := .uint32 u } := by
  obtain ⟨value,name,nameId⟩ := t
  obtain ⟨hname,hstring⟩ := ht
  have hkeep : rereadName ⟨value,name,nameId⟩=(name, nameId) := by
    match name with
    | [] => rfl
    | [b] => exact absurd rfl hname
    | b::c::name => rfl
  rw [rereadTag,hkeep]
  cases value with
  | string s =>
    obtain ⟨cs,rfl,hhead⟩ := hstring s rfl
    rw [rereadValue,reread_eq hhead]
    exact Or.inl rfl
  | uint64 v =>
    by_cases hnarrow : w = .writeNewEd2kTag ∧ v.toNat≤0xFFFFFFFF
    · refine Or.inr ⟨hnarrow.1,v,UInt32.ofNat v.toNat,rfl,?_,?_⟩
      · rw [UInt32.toNat_ofNat']
        omega
      · rw [rereadValue,if_pos hnarrow]
    · rw [rereadValue,if_neg hnarrow]
      exact Or.inl rfl
  | none => exact Or.inl rfl
  | uint32 v => exact Or.inl rfl
  | float f => exact Or.inl rfl
  | hash h => exact Or.inl rfl
  | blob data => exact Or.inl rfl
  | bsob data => exact Or.inl rfl

/-- Either writer writes a tag that fits so that it reads back to its end, or refuses it with
nothing written; only one-byte names, byte order marks and lone surrogates are lost. -/
theorem tag_roundTrip (w : Writer) {encode : UTF8Mode} (hmode : encode ≠ .None) :
    (∀ t : Tag, t.Built → t.Fits w encode → t.ReadsBack w encode) ∧
      (∀ ts : List Tag,
        (∀ t ∈ ts, t.Built ∧ t.Fits w encode ∧ (w.write t encode).1 = .ok true) →
        ∀ rest, readMany true ts.length ((ts.flatMap fun t => (w.write t encode).2) ++ rest) =
          .ok (ts.map (rereadTag w encode), rest)) ∧
      ∀ t : Tag, t.Plain → t.rereadTag w encode = t ∨
        w = .writeNewEd2kTag ∧ ∃ v u, t.value = .uint64 v ∧ u.toNat = v.toNat ∧
          t.rereadTag w encode = { t with value := .uint32 u } :=
  ⟨fun _ ht hfits => readsBack w hmode ht hfits,readMany_append w hmode,
    fun _ ht => rereadTag_plain w encode ht⟩

theorem tag_roundTrip_uint64 :
    (ofId 0x92 (.uint64 7)).ReadsBack .writeNewEd2kTag .OptBOM :=
  (tag_roundTrip .writeNewEd2kTag (by decide)).1 _ ⟨by decide,Or.inl rfl⟩ ⟨by decide,trivial⟩

/-- The one-byte name `a` comes back as the numeric name 0x61. -/
theorem oneByteName_becomes_id :
    (ofName [0x61] (.uint32 5)).Built ∧
      (ofName [0x61] (.uint32 5)).writeTagToFile .Raw =
        (.ok true, [0x03, 1, 0, 0x61, 5, 0, 0, 0]) ∧
      read true [0x03, 1, 0, 0x61, 5, 0, 0, 0] = .ok (ofId 0x61 (.uint32 5), []) ∧
      ofId 0x61 (.uint32 5) ≠ ofName [0x61] (.uint32 5) :=
  ⟨⟨by decide,Or.inr rfl⟩,by decide,by decide,by decide⟩

end Tag

end EmuleQt.Protocol
