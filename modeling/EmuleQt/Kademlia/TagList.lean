import EmuleQt.Kademlia.KadIO
import EmuleQt.Utils.QtText
import EmuleQt.Kademlia.Entry

namespace EmuleQt.Kademlia

open Crypto Math Protocol Utils

/-- A value Kad can write, with room for it in its length field. -/
def WiredValue : TagValue → Prop
  | .bsob data => data.length<2^8
  | .none | .blob _ => False
  | _ => True

/-- A tag with such a value and room for its name. -/
def Wired (t : Tag) : Prop := (kadTagName t).length < 2 ^ 16 ∧ WiredValue t.value

def wireValue : TagValue → TagValue
  | .uint64 v => if v.toNat ≤ 0xFFFFFFFF then .uint32 (UInt32.ofNat v.toNat) else .uint64 v
  | v => v

/-- The tag as it is read again. -/
def wireTag (t : Tag) : Tag := kadTagOf (kadTagName t) (wireValue t.value)

section Values

variable (rest : List UInt8)

theorem readKadTagValue_uint8 {v : Nat} (h : v<2^8) :
    readKadTagValue TAGTYPE_UINT8 (writeUInt8 v++rest) = .ok (.uint32 (UInt32.ofNat v), rest) := by
  rw [readKadTagValue,if_neg (by decide),if_neg (by decide),if_neg (by decide),
    if_neg (by decide),if_pos rfl,Reader.bind_ok (readUInt8_write h rest)]
  rfl

theorem readKadTagValue_uint16 {v : Nat} (h : v<2^16) :
    readKadTagValue TAGTYPE_UINT16 (writeUInt16 v++rest) =
      .ok (.uint32 (UInt32.ofNat v), rest) := by
  rw [readKadTagValue,if_neg (by decide),if_neg (by decide),if_neg (by decide),if_pos rfl,
    Reader.bind_ok (readUInt16_write h rest)]
  rfl

theorem readKadTagValue_uint32 {v : Nat} (h : v<2^32) :
    readKadTagValue TAGTYPE_UINT32 (writeUInt32 v++rest) =
      .ok (.uint32 (UInt32.ofNat v), rest) := by
  rw [readKadTagValue,if_neg (by decide),if_neg (by decide),if_pos rfl,
    Reader.bind_ok (readUInt32_write h rest)]
  rfl

theorem readKadTagValue_uint64 {v : Nat} (h : v<2^64) :
    readKadTagValue TAGTYPE_UINT64 (writeUInt64 v++rest) =
      .ok (.uint64 (UInt64.ofNat v), rest) := by
  rw [readKadTagValue,if_neg (by decide),if_pos rfl,Reader.bind_ok (readUInt64_write h rest)]
  rfl

theorem readKadTagValue_float (f : Digest 4) :
    readKadTagValue TAGTYPE_FLOAT32 (f.bytes++rest) = .ok (.float f, rest) := by
  rw [readKadTagValue,if_neg (by decide),if_neg (by decide),if_neg (by decide),
    if_neg (by decide),if_neg (by decide),if_pos rfl,Reader.bind_ok (Digest.read_append f rest)]
  rfl

theorem readKadTagValue_hash (h : MD4Hash) :
    readKadTagValue TAGTYPE_HASH (h.bytes++rest) = .ok (.hash h, rest) := by
  rw [readKadTagValue,if_neg (by decide),if_neg (by decide),if_neg (by decide),
    if_neg (by decide),if_neg (by decide),if_neg (by decide),if_pos rfl,
    Reader.bind_ok (Digest.read_append h rest)]
  rfl

theorem readBsob_write {data : List UInt8} (h : data.length<2^8) :
    readBsob (writeBsob data++rest) = .ok (data, rest) := by
  unfold readBsob writeBsob
  dsimp only
  rw [Nat.mod_eq_of_lt h,List.take_length,List.append_assoc,
    Reader.bind_ok (readUInt8_write h _)]
  exact Reader.read_append rfl rest

theorem readKadTagValue_bsob {data : List UInt8} (h : data.length<2^8) :
    readKadTagValue TAGTYPE_BSOB (writeBsob data++rest) = .ok (.bsob data, rest) := by
  rw [readKadTagValue,if_neg (by decide),if_neg (by decide),if_neg (by decide),
    if_neg (by decide),if_neg (by decide),if_neg (by decide),if_neg (by decide),if_pos rfl,
    Reader.bind_ok (readBsob_write rest h)]
  rfl

theorem readKadTagValue_string (s : QString) :
    readKadTagValue TAGTYPE_STRING (writeStringUTF8 s++rest) =
      .ok (.string (QString.fromUtf8
          ((QString.toUtf8 s).take ((QString.toUtf8 s).length%2^16))),
        (QString.toUtf8 s).drop ((QString.toUtf8 s).length%2^16)++rest) := by
  rw [readKadTagValue,if_pos rfl,Reader.bind_ok (readStringUTF8_write s rest)]
  rfl

end Values

theorem readKadTag_append {type : Nat} {name body rest rest' : List UInt8} {value : TagValue}
    (htype : type<2^8) (hname : name.length<2^16)
    (hvalue : readKadTagValue type (body++rest) = .ok (value, rest')) :
    readKadTag ((writeKadTagHead type name++body)++rest) = .ok (kadTagOf name value, rest') := by
  rw [writeKadTagHead,List.append_assoc,List.append_assoc,List.append_assoc,readKadTag,
    Reader.bind_ok (readUInt8_write htype _),Reader.bind_ok (readUInt16_write hname _),
    Reader.bind_ok (Reader.read_append rfl _),Reader.bind_ok hvalue]
  rfl

theorem readKadTag_int {name : List UInt8} (hname : name.length<2^16) {v : Nat}
    (h : v<2^64) (rest : List UInt8) :
    readKadTag (writeKadInt name v++rest) =
      .ok (kadTagOf name (wireValue (.uint64 (UInt64.ofNat v))), rest) := by
  have hvalue : (UInt64.ofNat v).toNat=v := UInt64.toNat_ofNat_of_lt' h
  unfold writeKadInt wireValue
  dsimp only
  rw [hvalue]
  split_ifs with h8 h16 h32
  · exact readKadTag_append (by decide) hname (readKadTagValue_uint8 rest (by omega))
  · omega
  · exact readKadTag_append (by decide) hname (readKadTagValue_uint16 rest (by omega))
  · omega
  · exact readKadTag_append (by decide) hname (readKadTagValue_uint32 rest (by omega))
  · exact readKadTag_append (by decide) hname (readKadTagValue_uint64 rest h)

theorem readKadTag_write {t : Tag} (h : Wired t)
    (hread : ∀ s,t.value = .string s → Readable s) (rest : List UInt8) :
    readKadTag (writeKadTag t++rest) = .ok (wireTag t, rest) := by
  obtain ⟨hname,hvalue⟩ := h
  unfold writeKadTag wireTag
  cases hv : t.value with
  | none => simp [hv,WiredValue] at hvalue
  | blob data => simp [hv,WiredValue] at hvalue
  | uint32 v =>
    have hint := readKadTag_int hname (v := v.toNat) (v.toNat_lt.trans (by decide)) rest
    have hsmall : wireValue (.uint64 (UInt64.ofNat v.toNat)) = .uint32 v := by
      have hlt := v.toNat_lt
      rw [wireValue,UInt64.toNat_ofNat_of_lt' (by
        have hsize : UInt64.size=2^64 := rfl
        omega),if_pos (by omega),UInt32.ofNat_toNat]
    rw [hint,hsmall]
    rfl
  | uint64 v =>
    have hint := readKadTag_int hname v.toNat_lt rest
    rwa [UInt64.ofNat_toNat] at hint
  | float f => exact readKadTag_append (by decide) hname (readKadTagValue_float rest f)
  | hash hash => exact readKadTag_append (by decide) hname (readKadTagValue_hash rest hash)
  | bsob data =>
    rw [hv] at hvalue
    exact readKadTag_append (by decide) hname (readKadTagValue_bsob rest hvalue)
  | string s =>
    obtain ⟨hlength,hplain⟩ := hread s hv
    have hstring := readKadTagValue_string rest s
    rw [(QString.fromUtf8_take s).mpr ⟨hlength,hplain⟩,Nat.mod_eq_of_lt hlength,
      List.drop_length,List.nil_append] at hstring
    exact readKadTag_append (by decide) hname hstring

theorem readKadTag_unreadable {t : Tag} (h : Wired t) {s : QString} (hs : t.value = .string s)
    (hbad : ¬Readable s) (rest : List UInt8) :
    ∃ s' rest', s'≠s ∧
      readKadTag (writeKadTag t++rest) = .ok (kadTagOf (kadTagName t) (.string s'), rest') := by
  refine ⟨QString.fromUtf8 ((QString.toUtf8 s).take ((QString.toUtf8 s).length%2^16)),
    (QString.toUtf8 s).drop ((QString.toUtf8 s).length%2^16)++rest,
    fun heq => hbad ((QString.fromUtf8_take s).mp heq),?_⟩
  unfold writeKadTag
  rw [hs]
  exact readKadTag_append (by decide) h.1 (readKadTagValue_string rest s)

theorem readKadTags_length {n : Nat} {data rest : List UInt8} {tags : List Tag}
    (h : readKadTags n data = .ok (tags, rest)) : tags.length=n := by
  induction n generalizing data tags rest with
  | zero =>
    obtain ⟨rfl,-⟩ := Prod.mk.inj (Except.ok.inj h)
    rfl
  | succ n ih =>
    obtain ⟨tag,data',-,h⟩ := Reader.of_bind_ok h
    obtain ⟨others,data'',hothers,h⟩ := Reader.of_bind_ok h
    obtain ⟨rfl,-⟩ := Prod.mk.inj (Except.ok.inj h)
    rw [List.length_cons,ih hothers]

theorem kadTagOf_inj {name : List UInt8} {v w : TagValue} (h : kadTagOf name v=kadTagOf name w) :
    v=w := by
  unfold kadTagOf at h
  split at h <;> exact congrArg Tag.value h

theorem readKadTags_write {tags : List Tag} (h : ∀ t∈tags,Wired t) (rest : List UInt8) :
    readKadTags tags.length (tags.flatMap writeKadTag++rest) = .ok (tags.map wireTag, rest) ↔
      ∀ t∈tags,∀ s,t.value = .string s → Readable s := by
  induction tags with
  | nil => exact iff_of_true rfl (by simp)
  | cons t tags ih =>
    obtain ⟨ht,hrest⟩ := List.forall_mem_cons.mp h
    rw [List.forall_mem_cons,List.length_cons,List.flatMap_cons,List.append_assoc,readKadTags,
      List.map_cons]
    by_cases hread : ∀ s,t.value = .string s → Readable s
    · rw [Reader.bind_ok (readKadTag_write ht hread _),← ih hrest,Reader.bind_apply,
        and_iff_right hread]
      cases hothers : readKadTags tags.length (tags.flatMap writeKadTag++rest) with
      | error e => simp
      | ok r =>
        obtain ⟨tags',rest'⟩ := r
        simp
    · refine iff_of_false (fun hall => ?_) fun hall => hread hall.1
      obtain ⟨s,hs,hbad⟩ : ∃ s, t.value = .string s ∧ ¬Readable s := by
        simpa using hread
      obtain ⟨s',rest',hne,hfirst⟩ := readKadTag_unreadable ht hs hbad
        (tags.flatMap writeKadTag++rest)
      rw [Reader.bind_ok hfirst,Reader.bind_apply] at hall
      cases hothers : readKadTags tags.length rest' with
      | error e => simp [hothers] at hall
      | ok r =>
        rw [hothers] at hall
        have hhead := (List.cons.inj (Prod.mk.inj (Except.ok.inj hall)).1).1
        rw [wireTag,hs] at hhead
        exact hne (TagValue.string.inj (kadTagOf_inj hhead))

/-- A list that is written with its count is read exactly when the count has room in its byte and
all texts are readable. -/
theorem readKadTagList_write {tags : List Tag} (h : ∀ t∈tags,Wired t) (rest : List UInt8) :
    readKadTagList (writeKadTagList tags++rest) = .ok (tags.map wireTag, rest) ↔
      tags.length<2^8 ∧ ∀ t∈tags,∀ s,t.value = .string s → Readable s := by
  have hcount : Reader.readUInt8 (writeUInt8 tags.length++(tags.flatMap writeKadTag++rest)) =
      .ok (tags.length%2^8, tags.flatMap writeKadTag++rest) :=
    Reader.readUInt_leBytes_mod 1 _ _
  rw [readKadTagList,writeKadTagList,List.append_assoc,Reader.bind_ok hcount]
  by_cases hfits : tags.length<2^8
  · rw [Nat.mod_eq_of_lt hfits,readKadTags_write h]
    simp only [hfits,true_and]
  · refine iff_of_false (fun hall => ?_) fun hall => hfits hall.1
    have hlength := readKadTags_length hall
    rw [List.length_map] at hlength
    omega

open Crypto Protocol Utils

namespace Entry

def fileNameTags (e : Entry) : List Tag :=
  if e.fileNames≠[] then
    [.ofName [FT_FILENAME] (.string (getCommonFileName e.fileNames))]
  else []

def fileSizeTags (e : Entry) : List Tag :=
  if e.size>0 then
    [.ofName [FT_FILESIZE]
      (if e.size.toNat>0xFFFFFFFF then .uint64 e.size else .uint32 (UInt32.ofNat e.size.toNat))]
  else []

def writeTagListInc (e : Entry) (increaseTagNumber : Nat) : List UInt8 :=
  writeUInt8 (e.getTagCount + increaseTagNumber) ++
    (e.fileNameTags.flatMap writeKadTag ++ (e.fileSizeTags.flatMap writeKadTag ++
      e.tags.flatMap writeKadTag))

def writeTagList (e : Entry) : List UInt8 := e.writeTagListInc 0

end Entry

namespace AICHHashes

/-- The hashes somebody reports, each with its popularity. -/
def reported (a : AICHHashes) : List (UInt8 × List UInt8) :=
  (a.aichHashPopularity.zip a.aichHashes).filter fun h => decide (h.1 > 0)

/-- How many of them a BSOB takes. -/
def countServed : List (UInt8 × List UInt8) → (count : Nat) → Nat
  | [], count => count
  | (_, hash)::rest, count =>
    if 1+hash.length*(count+1+1)+(count+1+1)>250 then count+1
    else countServed rest (count+1)

/-- The hashes that are served. -/
def served (a : AICHHashes) : List (UInt8 × List UInt8) :=
  a.reported.take (countServed a.reported 0)

/-- The BSOB of `TAG_KADAICHHASHRESULT`. -/
def result (a : AICHHashes) : List UInt8 :=
  writeUInt8 (countServed a.reported 0) ++ a.served.flatMap fun h => h.1 :: h.2

end AICHHashes

namespace KeyEntry

/-- `(nameCount << 24) | (publishers << 16) | trust`, the trust value as a number of hundredths. -/
def publishInfo (trust : UInt16) (e : KeyEntry) : UInt32 :=
  let names := UInt32.ofNat (e.fileNames.length % 256)
  let publishers := UInt32.ofNat ((e.publishingIPs.getD []).length % 256)
  (names <<< 24) ||| (publishers <<< 16) ||| UInt32.ofNat trust.toNat

def writeTagListWithPublishInfo (trust : UInt16) (e : KeyEntry) : List UInt8 :=
  e.toEntry.writeTagListInc (1 + if e.aichHashes ≠ [] then 1 else 0) ++
    (writeKadTag (.ofName [TAG_PUBLISHINFO] (.uint32 (e.publishInfo trust))) ++
      if e.aichHashes ≠ [] then writeKadTagBsob [TAG_KADAICHHASHRESULT] e.toAICHHashes.result
      else [])

end KeyEntry

/-- A tag as `readKadTag` makes them. -/
def Stored (t : Tag) : Prop := Wired t ∧ t.name.length ≠ 1 ∧ (t.name = [] ∨ t.nameId = 0)

/-- All texts of an entry that are written. -/
def Entry.TextsReadable (e : Entry) : Prop :=
  (e.fileNames≠[] → Readable (getCommonFileName e.fileNames)) ∧
    ∀ t∈e.tags, ∀ s, t.value = .string s → Readable s

/-- The tags of an entry with name and size as a reader finds them. -/
def Entry.readTags (e : Entry) : List Tag :=
  (if e.fileNames≠[] then [.ofId FT_FILENAME (.string (getCommonFileName e.fileNames))] else []) ++
    ((if e.size>0 then [.ofId FT_FILESIZE (wireValue (.uint64 e.size))] else []) ++
      e.tags.map fun t => { t with value := wireValue t.value })

/-- The tags that a searcher finds behind them. -/
def KeyEntry.readPublishInfo (trust : UInt16) (e : KeyEntry) : List Tag :=
  .ofId TAG_PUBLISHINFO (.uint32 (e.publishInfo trust)) ::
    if e.aichHashes≠[] then [.ofId TAG_KADAICHHASHRESULT (.bsob e.toAICHHashes.result)] else []

theorem kadTagOf_stored {t : Tag} (h : Stored t) (v : TagValue) :
    kadTagOf (kadTagName t) v = { t with value := v } := by
  obtain ⟨-,hone,hnamed⟩ := h
  obtain ⟨value,name,nameId⟩ := t
  unfold kadTagName
  dsimp only at hone hnamed ⊢
  by_cases hname : name=[]
  · subst hname
    by_cases hid : nameId>0
    · rw [if_pos ⟨rfl,hid⟩]
      rfl
    · have hzero : nameId=0 := by
        rw [gt_iff_lt,UInt8.lt_iff_toNat_lt] at hid
        exact UInt8.toNat_inj.mp (by simpa using hid)
      rw [if_neg fun hboth => hid hboth.2,hzero]
      rfl
  · obtain rfl := hnamed.resolve_left hname
    rw [if_neg fun hboth => hname hboth.1]
    match name, hone with
    | [], _ => exact absurd rfl hname
    | [_], hone => exact absurd rfl hone
    | _ :: _ :: _, _ => rfl

theorem wireTag_stored {t : Tag} (h : Stored t) :
    wireTag t = { t with value := wireValue t.value } := kadTagOf_stored h _

theorem kadTagName_one (id : UInt8) (v : TagValue) : kadTagName (.ofName [id] v)=[id] := by
  simp [kadTagName,Tag.ofName]

theorem wireTag_one (id : UInt8) (v : TagValue) :
    wireTag (.ofName [id] v) = .ofId id (wireValue v) := by
  rfl

theorem wired_one (id : UInt8) {v : TagValue} (h : v ≠ .none ∧ ∀ data,v ≠ .blob data)
    (hbsob : ∀ data,v = .bsob data → data.length<2^8) : Wired (.ofName [id] v) := by
  refine ⟨by simp [kadTagName_one],?_⟩
  cases v with
  | none => exact absurd rfl h.1
  | blob data => exact absurd rfl (h.2 data)
  | bsob data => exact hbsob data rfl
  | _ => trivial

section Written

variable (e : Entry)

/-- All tags of an entry, in the order they are written. -/
def listedTags : List Tag := e.fileNameTags++(e.fileSizeTags++e.tags)

theorem listedTags_length : (listedTags e).length=e.getTagCount := by
  unfold listedTags Entry.fileNameTags Entry.fileSizeTags Entry.getTagCount
  rw [List.length_append,List.length_append]
  split_ifs <;> simp only [List.length_cons,List.length_nil] <;> omega

theorem writeTagListInc_eq (n : Nat) :
    e.writeTagListInc n=writeUInt8 ((listedTags e).length+n) ++
      (listedTags e).flatMap writeKadTag := by
  rw [listedTags_length,Entry.writeTagListInc,listedTags,List.flatMap_append,List.flatMap_append]

theorem writeTagList_eq : e.writeTagList=writeKadTagList (listedTags e) :=
  writeTagListInc_eq e 0

variable {e}

theorem listedTags_wired (h : ∀ t∈e.tags,Stored t) : ∀ t∈listedTags e,Wired t := by
  intro t ht
  rcases List.mem_append.mp ht with ht | ht
  · unfold Entry.fileNameTags at ht
    split_ifs at ht
    · obtain rfl := List.mem_singleton.mp ht
      exact wired_one FT_FILENAME (by simp) (by simp)
    · cases ht
  · rcases List.mem_append.mp ht with ht | ht
    · unfold Entry.fileSizeTags at ht
      split_ifs at ht
      · obtain rfl := List.mem_singleton.mp ht
        exact wired_one FT_FILESIZE (by simp) (by simp)
      · obtain rfl := List.mem_singleton.mp ht
        exact wired_one FT_FILESIZE (by simp) (by simp)
      · cases ht
    · exact (h t ht).1

theorem listedTags_wire (h : ∀ t∈e.tags,Stored t) :
    (listedTags e).map wireTag=e.readTags := by
  unfold listedTags Entry.readTags
  rw [List.map_append,List.map_append]
  refine congrArg₂ (· ++ ·) ?_ (congrArg₂ (· ++ ·) ?_ ?_)
  · unfold Entry.fileNameTags
    split_ifs
    · rw [List.map_singleton,wireTag_one]
      rfl
    · rfl
  · unfold Entry.fileSizeTags
    split_ifs with hsize hwide
    · rw [List.map_singleton,wireTag_one]
    · have hnarrow : wireValue (.uint64 e.size) = .uint32 (UInt32.ofNat e.size.toNat) :=
        if_pos (Nat.not_lt.mp hwide)
      rw [List.map_singleton,wireTag_one,hnarrow]
      rfl
    · rfl
  · exact List.map_congr_left fun t ht => wireTag_stored (h t ht)

theorem listedTags_readable : (∀ t∈listedTags e,∀ s,t.value = .string s → Readable s) ↔
    e.TextsReadable := by
  have hsize : ∀ t∈e.fileSizeTags,∀ s,t.value = .string s → Readable s := by
    intro t ht s hs
    unfold Entry.fileSizeTags at ht
    split_ifs at ht
    · rw [List.mem_singleton.mp ht] at hs
      cases hs
    · rw [List.mem_singleton.mp ht] at hs
      cases hs
    · cases ht
  unfold listedTags Entry.TextsReadable
  rw [List.forall_mem_append,List.forall_mem_append,and_iff_right hsize]
  refine and_congr_left fun _ => ?_
  unfold Entry.fileNameTags
  split_ifs with hname
  · simp only [List.mem_singleton,forall_eq,Tag.ofName,TagValue.string.injEq,hname,
      forall_eq',not_false_eq_true,forall_true_left,ne_eq]
  · simp [hname]

end Written

theorem readKadTagList_writeTagList {e : Entry} (h : ∀ t∈e.tags,Stored t) :
    (∀ rest,readKadTagList (e.writeTagList++rest) = .ok (e.readTags, rest)) ↔
      e.getTagCount≤255 ∧ e.TextsReadable := by
  have hiff := fun rest => readKadTagList_write (listedTags_wired h) rest
  simp only [listedTags_wire h,listedTags_readable,listedTags_length,← writeTagList_eq] at hiff
  constructor
  · intro hall
    obtain ⟨hcount,htexts⟩ := (hiff []).mp (hall [])
    exact ⟨by omega,htexts⟩
  · rintro ⟨hcount,htexts⟩ rest
    exact (hiff rest).mpr ⟨by omega,htexts⟩

section PublishInfo

theorem countServed_le {hashes : List (UInt8 × List UInt8)}
    (h : ∀ p∈hashes,p.2.length=kAICHHashSize) {count : Nat} (hcount : count≤10) :
    AICHHashes.countServed hashes count≤11 := by
  have hsize : kAICHHashSize=20 := rfl
  induction hashes generalizing count with
  | nil => exact hcount.trans (by decide)
  | cons p hashes ih =>
    obtain ⟨hp,hrest⟩ := List.forall_mem_cons.mp h
    rw [AICHHashes.countServed,hp,hsize]
    split_ifs with hfull
    · omega
    · exact ih hrest (by omega)

theorem reported_size {a : AICHHashes} (h : ∀ hash∈a.aichHashes,hash.length=kAICHHashSize) :
    ∀ p∈a.reported,p.2.length=kAICHHashSize := by
  intro p hp
  obtain ⟨n,hash⟩ := p
  exact h hash (List.of_mem_zip (List.mem_of_mem_filter hp)).2

theorem result_length {a : AICHHashes} (h : ∀ hash∈a.aichHashes,hash.length=kAICHHashSize) :
    a.result.length<2^8 := by
  have hflat : ∀ hashes : List (UInt8 × List UInt8),
      (∀ p∈hashes,p.2.length=kAICHHashSize) →
      (hashes.flatMap fun p => p.1::p.2).length=21*hashes.length := by
    have hsize : kAICHHashSize=20 := rfl
    intro hashes hall
    induction hashes with
    | nil => rfl
    | cons p hashes ih =>
      obtain ⟨hp,hrest⟩ := List.forall_mem_cons.mp hall
      rw [List.flatMap_cons,List.length_append,ih hrest,List.length_cons,List.length_cons,hp]
      omega
  have hcount := @countServed_le a.reported (reported_size h) 0 (by decide)
  have hserved : a.served.length≤11 := by
    unfold AICHHashes.served
    rw [List.length_take]
    omega
  have hbytes := hflat a.served fun p hp => reported_size h p (List.mem_of_mem_take hp)
  unfold AICHHashes.result
  rw [List.length_append,writeUInt8_length,hbytes]
  omega

/-- The tags behind the list. -/
def publishInfoTags (trust : UInt16) (e : KeyEntry) : List Tag :=
  .ofName [TAG_PUBLISHINFO] (.uint32 (e.publishInfo trust)) ::
    if e.aichHashes≠[] then [.ofName [TAG_KADAICHHASHRESULT] (.bsob e.toAICHHashes.result)]
    else []

theorem writeTagListWithPublishInfo_eq (trust : UInt16) (e : KeyEntry) :
    e.writeTagListWithPublishInfo trust =
      writeKadTagList (listedTags e.toEntry++publishInfoTags trust e) := by
  have hbsob : writeKadTag (.ofName [TAG_KADAICHHASHRESULT] (.bsob e.toAICHHashes.result)) =
      writeKadTagBsob [TAG_KADAICHHASHRESULT] e.toAICHHashes.result := by
    rfl
  unfold KeyEntry.writeTagListWithPublishInfo publishInfoTags
  rw [writeTagListInc_eq,writeKadTagList,List.flatMap_append,List.flatMap_cons,List.append_assoc,
    List.length_append,List.length_cons]
  split_ifs
  · rw [List.flatMap_singleton,hbsob]
    rfl
  · rfl

/-- The list of a keyword entry is read with its publish info exactly when the count has room for
both and the texts are readable. -/
theorem readKadTagList_withPublishInfo (trust : UInt16) {e : KeyEntry}
    (h : ∀ t∈e.tags,Stored t) (hsize : ∀ hash∈e.aichHashes,hash.length=kAICHHashSize) :
    (∀ rest,readKadTagList (e.writeTagListWithPublishInfo trust++rest) =
        .ok (e.readTags++e.readPublishInfo trust, rest)) ↔
      (e.getTagCount+1+if e.aichHashes≠[] then 1 else 0)≤255 ∧ e.TextsReadable := by
  have hinfo : ∀ t∈publishInfoTags trust e, Wired t ∧ ∀ s,t.value ≠ .string s := by
    unfold publishInfoTags
    refine List.forall_mem_cons.mpr ⟨⟨wired_one TAG_PUBLISHINFO (by simp) (by simp),by
      simp [Tag.ofName]⟩,fun t ht => ?_⟩
    split_ifs at ht
    · obtain rfl := List.mem_singleton.mp ht
      refine ⟨wired_one TAG_KADAICHHASHRESULT (by simp) fun data hdata => ?_,by simp [Tag.ofName]⟩
      rw [← TagValue.bsob.inj hdata]
      exact result_length hsize
    · cases ht
  have hwired : ∀ t∈listedTags e.toEntry++publishInfoTags trust e, Wired t :=
    List.forall_mem_append.mpr ⟨listedTags_wired h,fun t ht => (hinfo t ht).1⟩
  have hread : (publishInfoTags trust e).map wireTag=e.readPublishInfo trust := by
    refine congrArg₂ List.cons rfl ?_
    split_ifs
    · rw [List.map_singleton,wireTag_one]
      rfl
    · rfl
  have hlength : (publishInfoTags trust e).length=1+if e.aichHashes≠[] then 1 else 0 := by
    unfold publishInfoTags
    split_ifs <;> rfl
  have htexts : ∀ t∈publishInfoTags trust e, ∀ s,t.value = .string s → Readable s :=
    fun t ht s hs => absurd hs ((hinfo t ht).2 s)
  have hiff := fun rest => readKadTagList_write hwired rest
  simp only [List.map_append,listedTags_wire h,hread,List.forall_mem_append,
    listedTags_readable,and_iff_left htexts,List.length_append,listedTags_length,hlength,
    ← writeTagListWithPublishInfo_eq] at hiff
  constructor
  · intro hall
    obtain ⟨hcount,htexts⟩ := (hiff []).mp (hall [])
    exact ⟨by omega,htexts⟩
  · rintro ⟨hcount,htexts⟩ rest
    exact (hiff rest).mpr ⟨by omega,htexts⟩

end PublishInfo

end EmuleQt.Kademlia
