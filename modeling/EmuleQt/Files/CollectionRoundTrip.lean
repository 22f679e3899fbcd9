import EmuleQt.Files.Collection
import EmuleQt.Net.AddressLiteral

namespace EmuleQt.Files

open Crypto Protocol Utils Utils.QString

/-- A reader takes its bytes off the front. -/
def Consumes {α : Type} (x : Reader α) : Prop := ∀ s a s', x s = .ok (a, s') → s' <:+ s

namespace Consumes

variable {α β : Type} {x : Reader α} {f : α → Reader β}

theorem pure (a : α) : Consumes (Pure.pure a : Reader α) := by
  intro s b s' h
  cases h
  exact List.suffix_refl s

theorem bind (hx : Consumes x) (hf : ∀ a,Consumes (f a)) : Consumes (x >>= f) := by
  intro s b s'' h
  obtain ⟨a,s',ha,hb⟩ := Reader.of_bind_ok h
  exact (hf a s' b s'' hb).trans (hx s a s' ha)

theorem throw (e : FileException) : Consumes (Reader.throw e : Reader α) := by
  intro s a s' h
  cases h

theorem ite {c : Prop} [Decidable c] {y : Reader α} (hx : Consumes x) (hy : Consumes y) :
    Consumes (if c then x else y) := by
  split
  · exact hx
  · exact hy

theorem read (count : Nat) : Consumes (Reader.read count) := by
  intro s a s' h
  obtain ⟨-,rfl,-⟩ := Reader.read_ok h
  exact List.drop_suffix count s

theorem readUInt (w : Nat) : Consumes (Reader.readUInt w) := by
  intro s a s' h
  obtain ⟨-,rfl,-⟩ := Reader.readUInt_ok h
  exact List.drop_suffix w s

theorem remaining : Consumes Reader.remaining := by
  intro s a s' h
  cases h
  exact List.suffix_refl s

theorem skip (distance : Nat) : Consumes (Reader.skip distance) := by
  intro s a s' h
  unfold Reader.skip at h
  split at h
  · cases h
    exact List.drop_suffix distance s
  · cases h

theorem digest (n : Nat) : Consumes (Digest.read n) := by
  intro s a s' h
  obtain ⟨-,rfl,-⟩ := Digest.read_ok h
  exact List.drop_suffix n s

theorem readStringOf (optUTF8 : Bool) (rawSize : Nat) :
    Consumes (Utils.readStringOf optUTF8 rawSize) :=
  ite (pure _) (bind (read _) fun _ => pure _)

theorem readString (optUTF8 : Bool) : Consumes (Utils.readString optUTF8) :=
  bind (readUInt 2) fun rawSize => readStringOf optUTF8 rawSize

theorem readHead : Consumes Tag.readHead :=
  bind (readUInt 1) fun _ => ite (bind (readUInt 1) fun _ => pure _)
    (bind (readUInt 2) fun _ => ite (bind (readUInt 1) fun _ => pure _)
      (ite (bind (read _) fun _ => pure _) (pure _)))

theorem readValue (optUTF8 : Bool) (type : Nat) : Consumes (Tag.readValue optUTF8 type) :=
  ite (bind (readString optUTF8) fun _ => pure _) <|
  ite (bind (readUInt 4) fun _ => pure _) <|
  ite (bind (readUInt 8) fun _ => pure _) <|
  ite (bind (readUInt 2) fun _ => pure _) <|
  ite (bind (readUInt 1) fun _ => pure _) <|
  ite (bind (digest 4) fun _ => pure _) <|
  ite (bind (digest 16) fun _ => pure _) <|
  ite (bind (readUInt 4) fun _ => bind remaining fun _ =>
    ite (throw _) (bind (read _) fun _ => pure _)) <|
  ite (bind (readUInt 1) fun _ => bind (read _) fun _ => pure _) <|
  ite (bind (skip 1) fun _ => pure _) <|
  ite (bind (readUInt 2) fun _ => bind (skip _) fun _ => pure _) <|
  ite (bind (readStringOf optUTF8 _) fun _ => pure _) (pure _)

theorem readTag (optUTF8 : Bool) : Consumes (Tag.read optUTF8) :=
  bind readHead fun _ => bind (readValue optUTF8 _) fun _ => pure _

theorem readMany (optUTF8 : Bool) (count : Nat) : Consumes (Tag.readMany optUTF8 count) := by
  induction count with
  | zero => exact pure _
  | succ count ih => exact bind (readTag optUTF8) fun _ => bind ih fun _ => pure _

theorem readWireTagCount : Consumes Files.readWireTagCount :=
  bind (readUInt 4) fun _ => bind remaining fun _ => ite (throw _) (pure _)

theorem readEntry (fileTypeByName : QString → QString) :
    Consumes (CollectionFile.read fileTypeByName) :=
  bind readWireTagCount fun count => bind (readMany true count) fun _ => pure _

end Consumes

/-- The names `CollectionFile` has members for. -/
def memberIds : List UInt8 := [FT_FILEHASH, FT_FILESIZE, FT_FILENAME, FT_FILETYPE, FT_AICH_HASH]

/-- A tag that an entry keeps beside its members. -/
structure Extra (t : Tag) : Prop where
  nameId : t.nameId ∉ memberIds
  length : t.name.length ≠ 1
  name : t.name = [] ∨ t.nameId = 0

/-- What every constructor sees to. -/
structure EntryWellFormed (cf : CollectionFile) : Prop where
  clean : replaceInvalidChars cf.fileName=cf.fileName
  extra : ∀ t∈cf.tags, Extra t

section Entries

variable {fileTypeByName : QString → QString} {cf : CollectionFile} {t tag : Tag} {ts : List Tag}
  {s s' : List UInt8}

theorem replaceInvalidChars_idem (name : QString) :
    replaceInvalidChars (replaceInvalidChars name)=replaceInvalidChars name := by
  have hdash : isInvalidFilenameChar 0x2D=false := by decide
  rw [replaceInvalidChars,replaceInvalidChars,List.map_map]
  refine List.map_congr_left fun u _ => ?_
  by_cases hu : isInvalidFilenameChar u=true <;> simp [hu,hdash]

theorem mem_addTagUnique (h : t∈addTagUnique tag ts) : t=tag ∨ t∈ts := by
  induction ts with
  | nil => exact .inl (List.mem_singleton.mp h)
  | cons existing ts ih =>
    rw [addTagUnique] at h
    split at h
    · rcases List.mem_cons.mp h with rfl | h
      · exact .inl rfl
      · exact .inr (List.mem_cons_of_mem _ h)
    · rcases List.mem_cons.mp h with rfl | h
      · exact .inr List.mem_cons_self
      · exact (ih h).imp_right (List.mem_cons_of_mem _)

theorem readHead_name {type : Nat} {name : List UInt8} {nameId : UInt8}
    (h : Tag.readHead s = .ok ((type, name, nameId), s')) :
    name.length≠1 ∧ (name=[] ∨ nameId=0) := by
  obtain ⟨first,s₁,-,h⟩ := Reader.of_bind_ok h
  split at h
  · obtain ⟨id,s₂,-,h⟩ := Reader.of_bind_ok h
    cases h
    exact ⟨by simp,.inl rfl⟩
  obtain ⟨nameLen,s₂,-,h⟩ := Reader.of_bind_ok h
  split at h
  · obtain ⟨id,s₃,-,h⟩ := Reader.of_bind_ok h
    cases h
    exact ⟨by simp,.inl rfl⟩
  split at h
  case isTrue hone hpos =>
    obtain ⟨bytes,s₃,hread,h⟩ := Reader.of_bind_ok h
    cases h
    obtain ⟨rfl,-,hle⟩ := Reader.read_ok hread
    refine ⟨?_,.inr rfl⟩
    rw [List.length_take,Nat.min_eq_left hle]
    exact hone
  case isFalse =>
    cases h
    exact ⟨by simp,.inl rfl⟩

theorem readTag_name (h : Tag.read true s = .ok (t, s')) :
    t.name.length≠1 ∧ (t.name=[] ∨ t.nameId=0) := by
  unfold Tag.read at h
  obtain ⟨⟨type,name,nameId⟩,s₁,hhead,h⟩ := Reader.of_bind_ok h
  obtain ⟨value,s₂,-,h⟩ := Reader.of_bind_ok h
  cases h
  exact readHead_name hhead

theorem readMany_name {count : Nat} (h : Tag.readMany true count s = .ok (ts, s')) (ht : t∈ts) :
    t.name.length≠1 ∧ (t.name=[] ∨ t.nameId=0) := by
  induction count generalizing s ts with
  | zero =>
    cases h
    cases ht
  | succ count ih =>
    obtain ⟨first,s₁,hfirst,h⟩ := Reader.of_bind_ok h
    obtain ⟨rest,s₂,hrest,h⟩ := Reader.of_bind_ok h
    cases h
    rcases List.mem_cons.mp ht with rfl | ht
    · exact readTag_name hfirst
    · exact ih hrest ht

theorem EntryWellFormed.loadTag (hcf : EntryWellFormed cf) (hname : t.name.length≠1)
    (hid : t.name=[] ∨ t.nameId=0) : EntryWellFormed (cf.loadTag fileTypeByName t) := by
  unfold CollectionFile.loadTag
  split
  · split
    · exact ⟨hcf.clean,hcf.extra⟩
    · exact hcf
  split
  · split
    · exact ⟨hcf.clean,hcf.extra⟩
    · exact ⟨hcf.clean,hcf.extra⟩
    · exact hcf
  split
  · split
    · exact ⟨replaceInvalidChars_idem _,hcf.extra⟩
    · exact hcf
  split
  · split
    · exact ⟨hcf.clean,hcf.extra⟩
    · exact hcf
  split
  · split
    · split
      · split
        · exact ⟨hcf.clean,hcf.extra⟩
        · exact hcf
      · exact hcf
    · exact hcf
  case isFalse hhash hsize hfileName htype haich =>
    refine ⟨hcf.clean,fun u hu => ?_⟩
    rcases mem_addTagUnique hu with rfl | hu
    · exact ⟨by simp [memberIds,hhash,hsize,hfileName,htype,haich],hname,hid⟩
    · exact hcf.extra u hu

theorem entryWellFormed_blank : EntryWellFormed .blank := ⟨rfl,fun _ h => by cases h⟩

theorem EntryWellFormed.foldl_loadTag (hcf : EntryWellFormed cf)
    (hts : ∀ t∈ts,t.name.length≠1 ∧ (t.name=[] ∨ t.nameId=0)) :
    EntryWellFormed (ts.foldl (CollectionFile.loadTag fileTypeByName) cf) := by
  induction ts generalizing cf with
  | nil => exact hcf
  | cons t ts ih =>
    obtain ⟨ht,hts⟩ := List.forall_mem_cons.mp hts
    exact ih (hcf.loadTag ht.1 ht.2) hts

theorem Extra.comment (comment : QString) : Extra (Tag.ofId FT_FILECOMMENT (.string comment)) :=
  ⟨by simp [Tag.ofId,memberIds,FT_FILECOMMENT,FT_FILEHASH,FT_FILESIZE,FT_FILENAME,
    FT_FILETYPE,FT_AICH_HASH],by simp [Tag.ofId],.inl rfl⟩

theorem Extra.rating (rating : UInt32) : Extra (Tag.ofId FT_FILERATING (.uint32 rating)) :=
  ⟨by simp [Tag.ofId,memberIds,FT_FILERATING,FT_FILEHASH,FT_FILESIZE,FT_FILENAME,
    FT_FILETYPE,FT_AICH_HASH],by simp [Tag.ofId],.inl rfl⟩

theorem CollectionFile.Made.wellFormed (h : CollectionFile.Made fileTypeByName cf) :
    EntryWellFormed cf := by
  cases h with
  | read h =>
    obtain ⟨count,s₁,-,h⟩ := Reader.of_bind_ok h
    obtain ⟨tags,s₂,htags,h⟩ := Reader.of_bind_ok h
    cases h
    exact entryWellFormed_blank.foldl_loadTag fun t ht => readMany_name htags ht
  | ofFile file =>
    have hcomment : ∀ t∈(if file.comment=[] then []
        else addTagUnique (Tag.ofId FT_FILECOMMENT (.string file.comment)) []), Extra t := by
      intro t ht
      split at ht
      · cases ht
      · obtain rfl := List.mem_singleton.mp ht
        exact .comment _
    refine ⟨?_,fun t ht => ?_⟩
    · dsimp only [CollectionFile.ofFile]
      split <;> exact replaceInvalidChars_idem _
    · dsimp only [CollectionFile.ofFile] at ht
      split at ht
      · exact hcomment t ht
      · rcases mem_addTagUnique ht with rfl | ht
        · exact .rating _
        · exact hcomment t ht
  | initFromLink h =>
    unfold CollectionFile.initFromLink at h
    split at h
    · cases h
      exact ⟨replaceInvalidChars_idem _,fun _ ht => by cases ht⟩
    · cases h

end Entries

/-- A name as the loader restores it. -/
def restoredName (name : QString) : QString := replaceInvalidChars (reread name .Raw)

/-- Every tag of the entry is one its writer writes whole, and the loader accepts their number. -/
structure EntryFits (cf : CollectionFile) : Prop where
  tags : ∀ t∈cf.infoTags, t.Fine
  count : cf.infoTags.length≤kMaxWireTags

section Entry

variable {fileTypeByName : QString → QString} {cf loaded : CollectionFile} {t : Tag}

/-- An entry as it is read back. -/
def CollectionFile.restored (fileTypeByName : QString → QString) (cf : CollectionFile) :
    CollectionFile :=
  (cf.infoTags.map WrittenTag.reread).foldl (CollectionFile.loadTag fileTypeByName) .blank

/-- Hash, size and name. -/
def CollectionFile.identity (cf : CollectionFile) : MD4Hash × UInt64 × QString :=
  (cf.fileHash, cf.fileSize, cf.fileName)

theorem readWireTagCount_write {count : Nat} {rest : List UInt8} (hmax : count≤kMaxWireTags)
    (hleft : count≤rest.length) :
    readWireTagCount (writeUInt32 count++rest) = .ok (count, rest) := by
  have hcount : count<2^32 := Nat.lt_of_le_of_lt hmax (by decide)
  rw [readWireTagCount,Reader.bind_ok (readUInt32_write hcount _),
    Reader.bind_ok (Reader.remaining_apply _),if_neg (by omega)]
  rfl

theorem reread_nameId (w : Tag.Writer) (encode : UTF8Mode) (ht : t.name.length≠1) :
    (t.rereadTag w encode).nameId=t.nameId := by
  obtain ⟨value,name,nameId⟩ := t
  match name with
  | [] => rfl
  | [b] => exact absurd rfl ht
  | b::c::name => rfl

theorem loadTag_identity (hhash : t.nameId≠FT_FILEHASH) (hsize : t.nameId≠FT_FILESIZE)
    (hname : t.nameId≠FT_FILENAME) :
    (loaded.loadTag fileTypeByName t).identity=loaded.identity := by
  unfold CollectionFile.loadTag
  rw [if_neg hhash,if_neg hsize,if_neg hname]
  split
  · split <;> rfl
  split
  · split
    · split
      · split <;> rfl
      · rfl
    · rfl
  · rfl

theorem foldl_loadTag_identity {ts : List Tag} (hts : ∀ t∈ts,t.nameId≠FT_FILEHASH ∧
    t.nameId≠FT_FILESIZE ∧ t.nameId≠FT_FILENAME) :
    (ts.foldl (CollectionFile.loadTag fileTypeByName) loaded).identity=loaded.identity := by
  induction ts generalizing loaded with
  | nil => rfl
  | cons t ts ih =>
    obtain ⟨⟨hhash,hsize,hname⟩,hts⟩ := List.forall_mem_cons.mp hts
    exact (ih hts).trans (loadTag_identity hhash hsize hname)

theorem loadTag_sizeTag (cf loaded : CollectionFile) :
    loaded.loadTag fileTypeByName cf.sizeTag.reread = { loaded with fileSize := cf.fileSize } := by
  unfold CollectionFile.sizeTag
  split
  case isTrue hlarge =>
    rw [WrittenTag.reread_int64 FT_FILESIZE hlarge]
    rfl
  case isFalse hsmall =>
    have hle := Nat.le_of_not_lt fun hlt => hsmall (UInt64.lt_iff_toNat_lt.mpr hlt)
    have hback : cf.fileSize.toUInt32.toUInt64=cf.fileSize := by
      apply UInt64.toNat_inj.mp
      rw [UInt32.toNat_toUInt64,UInt64.toNat_toUInt32,Nat.mod_eq_of_lt]
      exact Nat.lt_succ_of_le hle
    have hload : loaded.loadTag fileTypeByName
        (WrittenTag.int FT_FILESIZE cf.fileSize.toUInt32).reread =
          { loaded with fileSize := cf.fileSize.toUInt32.toUInt64 } := rfl
    rw [hload,hback]

theorem restored_identity (fileTypeByName : QString → QString) (hcf : EntryWellFormed cf) :
    (cf.restored fileTypeByName).identity =
      (cf.fileHash, cf.fileSize, restoredName cf.fileName) := by
  set others : List WrittenTag :=
    (if cf.fileType=[] then [] else [.str FT_FILETYPE .Raw cf.fileType]) ++
      (cf.aichHash.toList.map fun h => .str FT_AICH_HASH .Raw (encodeBase32 h.bytes)) ++
      cf.tags.map fun t => ⟨.writeNewEd2kTag,.Raw,t⟩ with hothers
  have hsplit : cf.infoTags=[⟨.writeNewEd2kTag,.None,Tag.ofId FT_FILEHASH (.hash cf.fileHash)⟩,
      cf.sizeTag,.str FT_FILENAME .Raw cf.fileName]++others := by
    simp only [CollectionFile.infoTags,hothers,List.append_assoc]
  have hrest : ∀ t∈others.map WrittenTag.reread, t.nameId≠FT_FILEHASH ∧
      t.nameId≠FT_FILESIZE ∧ t.nameId≠FT_FILENAME := by
    intro t ht
    obtain ⟨u,hu,rfl⟩ := List.mem_map.mp ht
    rw [hothers,List.mem_append,List.mem_append] at hu
    rcases hu with (hu | hu) | hu
    · split at hu
      · cases hu
      · obtain rfl := List.mem_singleton.mp hu
        change FT_FILETYPE≠FT_FILEHASH ∧ FT_FILETYPE≠FT_FILESIZE ∧ FT_FILETYPE≠FT_FILENAME
        decide
    · obtain ⟨h,-,rfl⟩ := List.mem_map.mp hu
      change FT_AICH_HASH≠FT_FILEHASH ∧ FT_AICH_HASH≠FT_FILESIZE ∧ FT_AICH_HASH≠FT_FILENAME
      decide
    · obtain ⟨extra,hextra,rfl⟩ := List.mem_map.mp hu
      have hkept := hcf.extra extra hextra
      have hid : (WrittenTag.reread ⟨.writeNewEd2kTag,.Raw,extra⟩).nameId=extra.nameId :=
        reread_nameId _ _ hkept.length
      rw [hid]
      have hother := hkept.nameId
      simp only [memberIds,List.mem_cons,not_or] at hother
      exact ⟨hother.1,hother.2.1,hother.2.2.1⟩
  rw [CollectionFile.restored,hsplit,List.map_append,List.foldl_append,
    foldl_loadTag_identity hrest]
  have hhash (loaded : CollectionFile) : loaded.loadTag fileTypeByName (WrittenTag.reread
      ⟨.writeNewEd2kTag,.None,Tag.ofId FT_FILEHASH (.hash cf.fileHash)⟩) =
        { loaded with fileHash := cf.fileHash } := rfl
  have hname (loaded : CollectionFile) : loaded.loadTag fileTypeByName
      (WrittenTag.str FT_FILENAME .Raw cf.fileName).reread =
        loaded.setFileName fileTypeByName (reread cf.fileName .Raw) := rfl
  rw [List.map_cons,List.map_cons,List.map_cons,List.map_nil,List.foldl_cons,List.foldl_cons,
    List.foldl_cons,List.foldl_nil,hhash,loadTag_sizeTag,hname]
  rfl

theorem read_writeCollectionInfo (fileTypeByName : QString → QString) (hfits : EntryFits cf)
    (rest : List UInt8) :
    CollectionFile.read fileTypeByName (cf.writeCollectionInfo++rest) =
      .ok (cf.restored fileTypeByName, rest) := by
  have hleft : cf.infoTags.length≤(cf.infoTags.flatMap WrittenTag.bytes++rest).length := by
    have hbytes := WrittenTag.length_le_bytes hfits.tags
    rw [List.length_append]
    omega
  rw [CollectionFile.writeCollectionInfo,List.append_assoc,CollectionFile.read,
    Reader.bind_ok (readWireTagCount_write hfits.count hleft),
    Reader.bind_ok (WrittenTag.readMany_written hfits.tags rest)]
  rfl

end Entry

namespace Collection

/-- Every tag is one its writer writes whole, and every count and the file are within the widths
the loader reads them with. -/
structure Fits (c : Collection) (data : List UInt8) : Prop where
  header : ∀ t ∈ c.headerTags, t.Fine
  entries : ∀ cf ∈ c.files.entries, EntryFits cf
  count : c.files.entries.length < 2 ^ 32
  size : data.length < 2 ^ 32

section Load

variable {env : CollectionEnv} {c loaded : Collection} {cf : CollectionFile} {ts : List Tag}
  {s s' : List UInt8} {count : Nat}

theorem insertFile_last {files : List CollectionFile} (h : ∀ f∈files,hashLt f cf) :
    insertFile cf files=files++[cf] := by
  induction files with
  | nil => rfl
  | cons f files ih =>
    obtain ⟨hf,hfiles⟩ := List.forall_mem_cons.mp h
    have hne : cf.fileHash≠f.fileHash := fun heq => by
      rw [hashLt,heq] at hf
      exact List.lt_irrefl _ hf
    rw [insertFile,if_neg hne,if_neg (List.lt_asymm hf),ih hfiles]
    rfl

/-- The loader keeps entries with a size and a name. -/
def keeps (cf : CollectionFile) : Bool := decide (0 < cf.fileSize ∧ cf.fileName ≠ [])

theorem loadEntries_write (fs : List CollectionFile) (hfits : ∀ cf∈fs,EntryFits cf)
    (files : FileMap)
    (hordered : (files.entries++fs.map (CollectionFile.restored env.fileTypeByName)).Pairwise
      hashLt) (rest : List UInt8) :
    ∃ files', loadEntries env fs.length files
        (fs.flatMap CollectionFile.writeCollectionInfo++rest)=(files', rest, false) ∧
      files'.entries=files.entries ++
        (fs.map (CollectionFile.restored env.fileTypeByName)).filter keeps := by
  induction fs generalizing files with
  | nil => exact ⟨files,rfl,by simp⟩
  | cons cf fs ih =>
    obtain ⟨hcf,hfs⟩ := List.forall_mem_cons.mp hfits
    set next := cf.restored env.fileTypeByName with hnext
    have hread := read_writeCollectionInfo env.fileTypeByName hcf
    rw [List.flatMap_cons,List.append_assoc,List.length_cons,loadEntries,hread]
    dsimp only
    by_cases hkeep : 0<next.fileSize ∧ next.fileName≠[]
    · have hbefore : ∀ f∈files.entries,hashLt f next := fun f hf =>
        (List.pairwise_append.mp hordered).2.2 f hf next List.mem_cons_self
      have hplace : (files.emplace next).entries=files.entries++[next] :=
        insertFile_last hbefore
      obtain ⟨files',hload,hentries⟩ := ih hfs (files.emplace next) (by
        rw [hplace,List.append_assoc]
        exact hordered)
      refine ⟨files',by rw [if_pos hkeep,hload],?_⟩
      have htrue : keeps next=true := decide_eq_true hkeep
      rw [hentries,hplace,List.map_cons,← hnext,List.filter_cons,if_pos htrue,
        List.append_assoc]
      rfl
    · obtain ⟨files',hload,hentries⟩ := ih hfs files (by
        refine hordered.sublist ((List.Sublist.refl _).append ?_)
        exact List.sublist_cons_self _ _)
      refine ⟨files',by rw [if_neg hkeep,hload],?_⟩
      rw [hentries,List.map_cons,← hnext,List.filter_cons,if_neg (by simpa [keeps] using hkeep)]

theorem loadHeaderTags_ok (h : Tag.readMany true count s = .ok (ts, s')) :
    loadHeaderTags count c s=(ts.foldl headerTag c, some s') := by
  induction count generalizing c s ts with
  | zero =>
    cases h
    rfl
  | succ count ih =>
    obtain ⟨tag,s₁,htag,h⟩ := Reader.of_bind_ok h
    obtain ⟨tags,s₂,htags,h⟩ := Reader.of_bind_ok h
    cases h
    rw [loadHeaderTags,htag]
    exact ih htags

theorem foldl_headerTags (hauthor : loaded.authorName=[]) (hkey : loaded.authorKey=[]) :
    let t := (c.headerTags.map WrittenTag.reread).foldl headerTag loaded;
    t.name=reread c.name .Raw ∧ t.authorKey=c.authorKey ∧
      t.authorName=(if c.authorKey=[] then [] else reread c.authorName .Raw) ∧
      t.files=loaded.files := by
  unfold headerTags
  split
  case isTrue hnone => exact ⟨rfl,hkey.trans hnone.symm,hauthor,rfl⟩
  case isFalse => exact ⟨rfl,rfl,rfl,rfl⟩

theorem headerTags_length : c.headerTags.length=if c.authorKey=[] then 1 else 3 := by
  unfold headerTags
  split <;> rfl

theorem loadHeader_write (hheader : ∀ t∈c.headerTags,t.Fine) (hcount : count<2^32)
    (rest : List UInt8) :
    loaded.loadHeader (writeUInt32 (if c.authorKey=[] then 1 else 3) ++
        (c.headerTags.flatMap WrittenTag.bytes++(writeUInt32 count++rest))) =
      ((c.headerTags.map WrittenTag.reread).foldl headerTag loaded, some (count, rest)) := by
  have hmax : c.headerTags.length≤kMaxWireTags := by
    rw [headerTags_length]
    split <;> decide
  have hleft : c.headerTags.length ≤
      (c.headerTags.flatMap WrittenTag.bytes++(writeUInt32 count++rest)).length := by
    have hbytes := WrittenTag.length_le_bytes hheader
    rw [List.length_append]
    omega
  rw [loadHeader,← headerTags_length,readWireTagCount_write hmax hleft]
  dsimp only
  rw [loadHeaderTags_ok (WrittenTag.readMany_written hheader _)]
  dsimp only
  rw [readUInt32_write hcount]

theorem version_lt (c : Collection) : c.version<2^32 ∧
    (c.version=kCollectionFileVersion1 ∨ c.version=kCollectionFileVersion2) := by
  unfold version
  split
  · exact ⟨by decide,.inr rfl⟩
  · exact ⟨by decide,.inl rfl⟩

theorem restored_fileHash (hcf : EntryWellFormed cf) (fileTypeByName : QString → QString) :
    (cf.restored fileTypeByName).fileHash=cf.fileHash :=
  congrArg Prod.fst (restored_identity fileTypeByName hcf)

theorem payload_length_ge (c : Collection) : 8≤c.payload.length := by
  simp only [payload,List.length_append,writeUInt32_length]
  omega

/-- What the loader makes of a collection and of the bytes after it. -/
theorem initFromFile_write (env : CollectionEnv) (loaded : Collection) (sig : List UInt8)
    (hfits : c.Fits (c.payload++sig))
    (hmade : ∀ cf∈c.files.entries,EntryWellFormed cf) (displayName : QString) :
    let r := (loaded.initFromFile env (c.payload++sig) displayName).2;
    r.name=reread c.name .Raw ∧
      r.files.entries =
        (c.files.entries.map (CollectionFile.restored env.fileTypeByName)).filter keeps ∧
      if c.authorKey≠[] ∧ sig≠[] ∧ env.verify c.payload sig c.authorKey=true then
        r.authorName=reread c.authorName .Raw ∧ r.authorKey=c.authorKey
      else r.authorName=[] ∧ r.authorKey=[] := by
  set start : Collection := { loaded with files := .empty, authorName := [], authorKey := [] }
  have hlong : ¬(c.payload++sig).length<8 := by
    have hpayload := c.payload_length_ge
    rw [List.length_append]
    omega
  have hmem : (c.payload++sig).take ((c.payload++sig).length%2^32)=c.payload++sig := by
    rw [Nat.mod_eq_of_lt hfits.size,List.take_length]
  have hordered : (FileMap.empty.entries ++
      c.files.entries.map (CollectionFile.restored env.fileTypeByName)).Pairwise hashLt := by
    refine List.pairwise_map.mpr (c.files.ordered.imp_of_mem fun {a b} ha hb hab => ?_)
    rw [hashLt,restored_fileHash (hmade a ha),restored_fileHash (hmade b hb)]
    exact hab
  obtain ⟨files,hload,hentries⟩ :=
    loadEntries_write c.files.entries hfits.entries FileMap.empty hordered sig
  set body := writeUInt32 (if c.authorKey=[] then 1 else 3) ++
    (c.headerTags.flatMap WrittenTag.bytes++(writeUInt32 c.files.entries.length ++
      (c.files.entries.flatMap CollectionFile.writeCollectionInfo++sig))) with hbody
  have hdata : c.payload++sig=writeUInt32 c.version++body := by
    simp only [payload,hbody,List.append_assoc]
  have hread : Reader.readUInt32 (c.payload++sig) = .ok (c.version, body) := by
    rw [hdata]
    exact readUInt32_write c.version_lt.1 body
  have hheader : start.loadHeader body=_ := loadHeader_write hfits.header hfits.count _
  obtain ⟨hname,hkey,hauthor,hfiles⟩ := foldl_headerTags (c := c)
    (show start.authorName=[] from rfl) rfl
  set header := (c.headerTags.map WrittenTag.reread).foldl headerTag start
  have hsigned : (c.payload++sig).length-sig.length=c.payload.length := by simp
  have hrun : (loaded.initFromFile env (c.payload++sig) displayName).2 =
      if header.authorKey=[] then { header with files := files, authorName := [] }
      else if false || !verifySignature env { header with files := files } (c.payload++sig)
          c.payload.length then
        { header with files := files, authorKey := [], authorName := [] }
      else { header with files := files } := by
    unfold initFromFile
    dsimp only
    rw [if_neg hlong,hmem,hread]
    dsimp only
    rw [if_pos c.version_lt.2,loadBinary,hheader]
    dsimp only
    have hempty : header.files=FileMap.empty := hfiles
    rw [hempty,hload]
    rw [hsigned]
  have hverify : verifySignature env { header with files := files } (c.payload++sig)
      c.payload.length=true ↔
        c.authorKey≠[] ∧ sig≠[] ∧ env.verify c.payload sig c.authorKey=true := by
    have hpos : c.payload.length≠0 := by
      have hpayload := c.payload_length_ge
      omega
    have hnone : (c.payload++sig).length≤c.payload.length ↔ sig=[] := by
      rw [List.length_append,← List.length_eq_zero_iff]
      omega
    simp only [verifySignature,hkey,List.take_left,List.drop_left,hnone,hpos,false_or]
    split
    case isTrue hno =>
      refine iff_of_false (by simp) fun h => ?_
      exact hno.elim h.1 h.2.1
    case isFalse hyes =>
      obtain ⟨hk,hs⟩ := not_or.mp hyes
      exact ⟨fun h => ⟨hk,hs,h⟩,fun h => h.2.2⟩
  intro r
  have hr : r=_ := hrun
  by_cases hk : c.authorKey=[]
  · rw [if_pos (hkey.trans hk)] at hr
    rw [if_neg (fun h => h.1 hk),hr]
    exact ⟨hname,hentries,rfl,hkey.trans hk⟩
  · rw [if_neg (fun hnone => hk (hkey.symm.trans hnone)),Bool.false_or] at hr
    by_cases hv : verifySignature env { header with files := files } (c.payload++sig)
        c.payload.length=true
    · rw [if_neg (by simp [hv])] at hr
      rw [if_pos (hverify.mp hv),hr]
      exact ⟨hname,hentries,hauthor.trans (if_neg hk),hkey⟩
    · rw [if_pos (by simpa using hv)] at hr
      rw [if_neg (fun h => hv (hverify.mpr h)),hr]
      exact ⟨hname,hentries,rfl,rfl⟩

end Load

/-- What loading gives back of a collection written with `signKey`. -/
structure Restores (env : CollectionEnv) (publicKey : env.SignKey → List UInt8) (c : Collection)
    (signKey : Option env.SignKey) (data : List UInt8) : Prop where
  name : ∀ (loaded : Collection) displayName,
    (loaded.initFromFile env data displayName).2.name = c.name
  files : ∀ (loaded : Collection) displayName,
    (loaded.initFromFile env data displayName).2.files.entries.map CollectionFile.identity =
      c.files.entries.map CollectionFile.identity
  signed : ∀ key, signKey = some key → publicKey key = c.authorKey → c.authorKey ≠ [] →
    ∀ (loaded : Collection) displayName,
      (loaded.initFromFile env data displayName).2.authorName = c.authorName ∧
      (loaded.initFromFile env data displayName).2.authorKey = c.authorKey
  unsigned : signKey = none → ∀ (loaded : Collection) displayName,
    (loaded.initFromFile env data displayName).2.authorName = [] ∧
    (loaded.initFromFile env data displayName).2.authorKey = []

/-- The names are the same after their UTF-8 is read. -/
structure NamesSurvive (env : CollectionEnv) (publicKey : env.SignKey → List UInt8)
    (c : Collection) (signKey : Option env.SignKey) : Prop where
  name : reread c.name .Raw=c.name
  files : ∀ cf∈c.files.entries, restoredName cf.fileName=cf.fileName
  author : ∀ key, signKey=some key → publicKey key=c.authorKey → c.authorKey≠[] →
    reread c.authorName .Raw=c.authorName

/-- The first `n` bytes are the version, the header with `key`, and every entry the header
announces, each complete. -/
def CompleteUpTo (env : CollectionEnv) (data key : List UInt8) (n : Nat) : Prop :=
  let mem := data.take (data.length%2^32);
  ∃ (start header : Collection) (files : FileMap) (version fileCount : Nat)
    (s t rest : List UInt8), Reader.readUInt32 mem = .ok (version, s) ∧
      start.loadHeader s=(header, some (fileCount, t)) ∧ header.authorKey=key ∧
      loadEntries env fileCount .empty t=(files, rest, false) ∧
      n ≤ mem.length ∧ mem=mem.take n++rest

section RoundTrip

variable {env : CollectionEnv} {publicKey : env.SignKey → List UInt8} {c loaded : Collection}
  {signKey : Option env.SignKey} {data : List UInt8}

theorem identities_restored_iff (env : CollectionEnv)
    (hmade : ∀ cf∈c.files.entries,EntryWellFormed cf)
    (hkept : ∀ cf∈c.files.entries,0<cf.fileSize ∧ cf.fileName≠[]) :
    ((c.files.entries.map (CollectionFile.restored env.fileTypeByName)).filter keeps).map
        CollectionFile.identity=c.files.entries.map CollectionFile.identity ↔
      ∀ cf∈c.files.entries,restoredName cf.fileName=cf.fileName := by
  constructor
  · intro hall cf hcf
    have hmem : cf.identity∈c.files.entries.map CollectionFile.identity :=
      List.mem_map_of_mem hcf
    rw [← hall] at hmem
    obtain ⟨back,hback,hidentity⟩ := List.mem_map.mp hmem
    obtain ⟨other,hother,rfl⟩ := List.mem_map.mp (List.mem_filter.mp hback).1
    rw [restored_identity _ (hmade other hother)] at hidentity
    have hhash : other.fileHash=cf.fileHash := congrArg Prod.fst hidentity
    have hnodup : (c.files.entries.map CollectionFile.fileHash).Nodup := by
      refine List.pairwise_map.mpr (c.files.ordered.imp fun {a b} hab heq => ?_)
      rw [hashLt,heq] at hab
      exact List.lt_irrefl _ hab
    obtain rfl := List.inj_on_of_nodup_map hnodup hother hcf hhash
    exact congrArg (fun i => i.2.2) hidentity
  · intro hnames
    have hidentity : ∀ cf∈c.files.entries,
        (cf.restored env.fileTypeByName).identity=cf.identity := fun cf hcf => by
      rw [restored_identity _ (hmade cf hcf),hnames cf hcf]
      rfl
    have hfilter : (c.files.entries.map (CollectionFile.restored env.fileTypeByName)).filter
        keeps=c.files.entries.map (CollectionFile.restored env.fileTypeByName) := by
      refine List.filter_eq_self.mpr fun back hback => ?_
      obtain ⟨cf,hcf,rfl⟩ := List.mem_map.mp hback
      have hsame := hidentity cf hcf
      have hsize : (cf.restored env.fileTypeByName).fileSize=cf.fileSize :=
        congrArg (fun i => i.2.1) hsame
      have hname : (cf.restored env.fileTypeByName).fileName=cf.fileName :=
        congrArg (fun i => i.2.2) hsame
      rw [keeps,hsize,hname]
      exact decide_eq_true (hkept cf hcf)
    rw [hfilter,List.map_map]
    exact List.map_congr_left hidentity

theorem writeBinary_eq (hwritten : c.writeBinary env signKey=some data) :
    ∃ sig, data=c.payload++sig ∧ (signKey=none → sig=[]) ∧
      ∀ key,signKey=some key → env.sign key c.payload=some sig := by
  unfold writeBinary at hwritten
  cases signKey with
  | none =>
    obtain rfl := Option.some.inj hwritten
    exact ⟨[],(List.append_nil _).symm,fun _ => rfl,nofun⟩
  | some key =>
    obtain ⟨sig,hsig,hdata⟩ := Option.map_eq_some_iff.mp hwritten
    refine ⟨sig,hdata.symm,nofun,fun other hother => ?_⟩
    obtain rfl := Option.some.inj hother
    exact hsig

theorem restores_iff
    (hsign : ∀ key message sig,env.sign key message=some sig →
      sig≠[] ∧ env.verify message sig (publicKey key)=true)
    (hmade : ∀ cf∈c.files.entries,EntryWellFormed cf)
    (hkept : ∀ cf∈c.files.entries,0<cf.fileSize ∧ cf.fileName≠[])
    (hwritten : c.writeBinary env signKey=some data) (hfits : c.Fits data) :
    Restores env publicKey c signKey data ↔ NamesSurvive env publicKey c signKey := by
  obtain ⟨sig,rfl,hnone,hsome⟩ := writeBinary_eq hwritten
  have hload (loaded : Collection) (displayName : QString) :=
    initFromFile_write env loaded sig hfits hmade displayName
  constructor
  · intro h
    refine ⟨?_,?_,fun key hkey hpublic hne => ?_⟩
    · exact (hload c []).1.symm.trans (h.name c [])
    · refine (identities_restored_iff env hmade hkept).mp ?_
      rw [← (hload c []).2.1]
      exact h.files c []
    · obtain ⟨hauthor,hback⟩ := h.signed key hkey hpublic hne c []
      have hcase := (hload c []).2.2
      split at hcase
      · exact hcase.1.symm.trans hauthor
      · exact absurd (hback.symm.trans hcase.2) hne
  · intro h
    refine ⟨fun loaded displayName => (hload loaded displayName).1.trans h.name,?_,?_,?_⟩
    · intro loaded displayName
      rw [(hload loaded displayName).2.1]
      exact (identities_restored_iff env hmade hkept).mpr h.files
    · intro key hkey hpublic hne loaded displayName
      obtain ⟨hsig,hverify⟩ := hsign key _ sig (hsome key hkey)
      have hcase := (hload loaded displayName).2.2
      rw [if_pos ⟨hne,hsig,hpublic ▸ hverify⟩] at hcase
      exact ⟨hcase.1.trans (h.author key hkey hpublic hne),hcase.2⟩
    · intro hunsigned loaded displayName
      have hcase := (hload loaded displayName).2.2
      rwa [if_neg (fun hall => hall.2.1 (hnone hunsigned))] at hcase

theorem headerTag_files (tag : Tag) : (c.headerTag tag).files=c.files := by
  unfold headerTag
  split
  · split <;> rfl
  split
  · split <;> rfl
  split
  · split <;> rfl
  · rfl

theorem loadHeader_files {s t : List UInt8} {header : Collection} {fileCount : Nat}
    (h : c.loadHeader s=(header, some (fileCount, t))) : header.files=c.files := by
  have htags (count : Nat) : ∀ (c : Collection) (s : List UInt8),
      (loadHeaderTags count c s).1.files=c.files := by
    induction count with
    | zero => exact fun _ _ => rfl
    | succ count ih =>
      intro c s
      rw [loadHeaderTags]
      split
      · rfl
      · exact (ih _ _).trans (headerTag_files _)
  unfold loadHeader at h
  split at h
  · cases h
  case h_2 count s₁ hcount =>
    have hfiles := htags count c s₁
    split at h
    · cases h
    case h_2 c₂ s₂ hload =>
      rw [hload] at hfiles
      split at h
      · cases h
      · cases h
        exact hfiles

theorem loadHeader_suffix {s t : List UInt8} {header : Collection} {fileCount : Nat}
    (h : c.loadHeader s=(header, some (fileCount, t))) : t <:+ s := by
  have htags (count : Nat) : ∀ (c c' : Collection) (s t : List UInt8),
      loadHeaderTags count c s=(c', some t) → t <:+ s := by
    induction count with
    | zero =>
      intro c c' s t h
      cases h
      exact List.suffix_refl _
    | succ count ih =>
      intro c c' s t h
      rw [loadHeaderTags] at h
      split at h
      · cases h
      case h_2 tag s₁ hread => exact (ih _ _ _ _ h).trans (Consumes.readTag true _ _ _ hread)
  unfold loadHeader at h
  split at h
  · cases h
  case h_2 count s₁ hcount =>
    split at h
    · cases h
    case h_2 c₂ s₂ hload =>
      split at h
      · cases h
      case h_2 fileCount s₃ hread =>
        cases h
        exact (Consumes.readUInt 4 _ _ _ hread).trans
          ((htags _ _ _ _ _ hload).trans (Consumes.readWireTagCount _ _ _ hcount))

theorem loadEntries_suffix {count : Nat} {files files' : FileMap} {s rest : List UInt8}
    {truncated : Bool} (h : loadEntries env count files s=(files', rest, truncated)) :
    rest <:+ s := by
  induction count generalizing files s with
  | zero =>
    cases h
    exact List.suffix_refl _
  | succ count ih =>
    rw [loadEntries] at h
    split at h
    · cases h
      exact List.suffix_refl _
    case h_2 cf s₁ hread => exact (ih h).trans (Consumes.readEntry _ _ _ _ hread)

theorem loadBinary_signed {mem s key : List UInt8} {version : Nat}
    (hmem : mem=data.take (data.length%2^32))
    (hread : Reader.readUInt32 mem = .ok (version, s)) (hfiles : loaded.files = .empty)
    (hkey : (loaded.loadBinary env data mem s).2.authorKey=key) (hne : key≠[]) :
    ∃ n, CompleteUpTo env data key n ∧ env.verify (data.take n) (data.drop n) key=true := by
  unfold loadBinary at hkey
  split at hkey
  · exact absurd hkey.symm hne
  case h_2 header fileCount t hheader =>
    have hempty : header.files = .empty := (loadHeader_files hheader).trans hfiles
    rw [hempty] at hkey
    obtain ⟨files,rest,truncated,hload⟩ : ∃ files rest truncated,
        loadEntries env fileCount .empty t=(files, rest, truncated) := ⟨_,_,_,rfl⟩
    rw [hload] at hkey
    dsimp only at hkey
    split at hkey
    case isTrue hnone => exact absurd (hkey.symm.trans hnone) hne
    case isFalse =>
      split at hkey
      · exact absurd hkey.symm hne
      case isFalse hverified =>
        simp only [Bool.or_eq_true,not_or,Bool.not_eq_true,Bool.not_eq_false'] at hverified
        obtain ⟨rfl,hverify⟩ := hverified
        have hsuffix : rest <:+ mem := (loadEntries_suffix hload).trans
          ((loadHeader_suffix hheader).trans (Consumes.readUInt 4 _ _ _ hread))
        obtain ⟨front,hfront⟩ := hsuffix
        have hn : mem.length-rest.length=front.length := by
          rw [← hfront,List.length_append]
          omega
        rw [hn,verifySignature] at hverify
        split at hverify
        · cases hverify
        · rw [hkey] at hverify
          refine ⟨front.length,?_,hverify⟩
          have hsplit : mem=mem.take front.length++rest := by
            rw [← hfront,List.take_left]
          have hle : front.length ≤ mem.length := by
            rw [← hfront,List.length_append]
            omega
          rw [hmem] at hsplit hle hread
          exact ⟨loaded,header,files,version,fileCount,s,t,rest,hread,hheader,hkey,hload,
            hle,hsplit⟩

theorem authorKey_signed {key : List UInt8} (displayName : QString)
    (hkey : (loaded.initFromFile env data displayName).2.authorKey=key) (hne : key≠[]) :
    ∃ n, CompleteUpTo env data key n ∧ env.verify (data.take n) (data.drop n) key=true := by
  unfold initFromFile at hkey
  dsimp only at hkey
  split at hkey
  · exact absurd hkey.symm hne
  split at hkey
  · exact absurd hkey.symm hne
  case h_2 version s hread =>
    split at hkey
    · exact loadBinary_signed rfl hread rfl hkey hne
    · exact absurd hkey.symm hne

end RoundTrip

/-- A collection whose lengths and counts fit their fields comes back from its file, signed or
not, exactly if its names survive UTF-8; and whatever the file, an author key that is kept has
signed exactly the bytes up to the end of the last entry. -/
theorem restored_iff (env : CollectionEnv) (publicKey : env.SignKey → List UInt8)
    (hsign : ∀ key message sig, env.sign key message = some sig →
      sig ≠ [] ∧ env.verify message sig (publicKey key) = true) :
    (∀ (c : Collection) signKey data,
      (∀ cf ∈ c.files.entries, CollectionFile.Made env.fileTypeByName cf ∧
        0 < cf.fileSize ∧ cf.fileName ≠ []) →
      c.writeBinary env signKey = some data → c.Fits data →
      (Restores env publicKey c signKey data ↔ NamesSurvive env publicKey c signKey)) ∧
    ∀ (loaded : Collection) data displayName key,
      (loaded.initFromFile env data displayName).2.authorKey = key → key ≠ [] →
      ∃ n, CompleteUpTo env data key n ∧ env.verify (data.take n) (data.drop n) key = true :=
  ⟨fun _ _ _ hmade hwritten hfits => restores_iff hsign (fun cf hcf => (hmade cf hcf).1.wellFormed)
      (fun cf hcf => (hmade cf hcf).2) hwritten hfits,
    fun _ _ displayName _ hkey hne => authorKey_signed displayName hkey hne⟩

/-- One key whose signatures are a single byte. -/
def sampleEnv : CollectionEnv where
  SignKey := Unit
  sign _ _ := some [1]
  verify _ sig key := decide (sig=[1] ∧ key=[7])
  fileTypeByName _ := []
  linkReader :=
    ⟨Net.fullAddressText,fun _ => none,fun _ => false,fun _ => none,fun _ => none,
      fun _ => none⟩
  textLines _ := []

def sampleFile : CollectionFile := CollectionFile.ofFile sampleEnv.fileTypeByName
  ⟨Digest.zero 16,5,lit "f",[],none,[],0⟩

def sampleCollection (name : QString) (authorKey : List UInt8) : Collection :=
  ⟨name,lit "me",authorKey,⟨[sampleFile],List.pairwise_singleton _ _⟩,false⟩

theorem restored_iff_signed :
    Restores sampleEnv (fun _ => [7]) (sampleCollection (lit "c") [7]) (some ())
      ((sampleCollection (lit "c") [7]).payload ++ [1]) := by
  have hsign : ∀ (key : sampleEnv.SignKey) message sig, sampleEnv.sign key message=some sig →
      sig≠[] ∧ sampleEnv.verify message sig [7]=true := by
    intro key message sig hsig
    obtain rfl := Option.some.inj hsig
    exact ⟨by decide,rfl⟩
  have hfits : (sampleCollection (lit "c") [7]).Fits
      ((sampleCollection (lit "c") [7]).payload++[1]) := by
    refine ⟨?_,?_,by decide,by decide +kernel⟩
    · intro t ht
      rcases List.mem_cons.mp ht with rfl | ht
      · exact WrittenTag.fine_str _ (by decide) (by decide +kernel)
      rcases List.mem_cons.mp ht with rfl | ht
      · exact WrittenTag.fine_str _ (by decide) (by decide +kernel)
      · obtain rfl := List.mem_singleton.mp ht
        exact WrittenTag.fine_blob _ (by decide)
    · intro cf hcf
      obtain rfl := List.mem_singleton.mp hcf
      refine ⟨fun t ht => ?_,by decide⟩
      rcases List.mem_cons.mp ht with rfl | ht
      · exact ⟨⟨by simp [Tag.ofId],.inl rfl⟩,⟨by simp [Tag.ofId],trivial⟩,
          .inr (by simp [Tag.ofId]),by simp [Tag.ofId]⟩
      rcases List.mem_cons.mp ht with rfl | ht
      · exact WrittenTag.fine_int _ _
      · obtain rfl := List.mem_singleton.mp ht
        exact WrittenTag.fine_str _ (by decide) (by decide +kernel)
  have hmade : ∀ cf∈(sampleCollection (lit "c") [7]).files.entries,
      CollectionFile.Made sampleEnv.fileTypeByName cf ∧ 0<cf.fileSize ∧ cf.fileName≠[] := by
    intro cf hcf
    obtain rfl := List.mem_singleton.mp hcf
    exact ⟨.ofFile _,by decide,by decide⟩
  refine ((restored_iff sampleEnv (fun _ => [7]) hsign).1 _ (some ()) _ hmade rfl hfits).mpr
    ⟨by decide +kernel,?_,fun _ _ _ _ => by decide +kernel⟩
  intro cf hcf
  obtain rfl := List.mem_singleton.mp hcf
  decide +kernel

theorem bytes_of_overlong {name : QString} (h : (toUtf8 name).length=65536) :
    (WrittenTag.str FT_FILENAME .Raw name).bytes =
      (WrittenTag.str FT_FILENAME .Raw []).bytes++toUtf8 name := by
  have hlong : (WrittenTag.str FT_FILENAME .Raw name).bytes =
      Tag.writeNameAndType (Tag.ofId FT_FILENAME (.string name)) TAGTYPE_STRING ++
        (writeUInt16 65536++toUtf8 name) := by
    simp only [WrittenTag.bytes,WrittenTag.str,Tag.Writer.write,Tag.writeNewEd2kTag,Tag.ofId,
      encodeString,h,Nat.reducePow,Nat.reduceMod]
    rw [if_neg (by decide),List.take_of_length_le (Nat.le_of_eq h)]
  rw [hlong,← List.append_assoc]
  rfl

theorem loadBinary_name (env : CollectionEnv) (c : Collection) (data mem s : List UInt8) :
    (c.loadBinary env data mem s).2.name=(c.loadHeader s).1.name := by
  unfold loadBinary
  split
  case h_1 header hheader => rw [hheader]
  case h_2 header fileCount t hheader =>
    rw [hheader]
    dsimp only
    split
    · rfl
    · split <;> rfl

theorem toUtf8_replicate (n : Nat) :
    toUtf8 (List.replicate n 0x61)=List.replicate n 0x61 := by
  have hascii : ∀ u∈List.replicate n (0x61 : UInt16), u.toNat≤0x7F := by
    intro u hu
    rw [List.eq_of_mem_replicate hu]
    decide
  rw [← (toLatin1_ascii hascii).1,toLatin1,List.map_replicate]
  rfl

theorem loadHeader_overlong (c : Collection) {name : QString} (h : (toUtf8 name).length=65536)
    (rest : List UInt8) :
    (c.loadHeader (writeUInt32 1++((WrittenTag.str FT_FILENAME .Raw name).bytes ++
      rest))).1.name=[] := by
  have hfine : (WrittenTag.str FT_FILENAME .Raw []).Fine :=
    WrittenTag.fine_str _ (by decide) (by decide)
  have hread := hfine.readsBack (toUtf8 name++rest)
  have hleft : 1≤((WrittenTag.str FT_FILENAME .Raw []).bytes ++
      (toUtf8 name++rest)).length := by
    simp only [List.length_append,h]
    omega
  have htags : loadHeaderTags 1 c ((WrittenTag.str FT_FILENAME .Raw []).bytes ++
      (toUtf8 name++rest))=(c.headerTag (WrittenTag.str FT_FILENAME .Raw []).reread,
        some (toUtf8 name++rest)) := by
    rw [loadHeaderTags,hread]
    rfl
  have hname : (c.headerTag (WrittenTag.str FT_FILENAME .Raw []).reread).name=[] := rfl
  rw [bytes_of_overlong h,List.append_assoc,loadHeader,readWireTagCount_write (by decide) hleft]
  dsimp only
  rw [htags]
  dsimp only
  split <;> exact hname

/-- A name of 65536 bytes is lost. -/
theorem overlong_name_lost :
    let c := sampleCollection (List.replicate 65536 0x61) [];
    c.writeBinary sampleEnv none=some c.payload ∧
      ¬Restores sampleEnv (fun _ => [7]) c none c.payload := by
  refine ⟨rfl,fun h => ?_⟩
  have hutf8 : (toUtf8 (List.replicate 65536 0x61)).length=65536 := by
    rw [toUtf8_replicate,List.length_replicate]
  set body := writeUInt32 1++((WrittenTag.str FT_FILENAME .Raw
    (List.replicate 65536 0x61)).bytes++(writeUInt32 1++sampleFile.writeCollectionInfo))
    with hbody
  have hpayload : (sampleCollection (List.replicate 65536 0x61) []).payload =
      writeUInt32 1++body := by
    have hversion : (sampleCollection (List.replicate 65536 0x61) []).version=1 := rfl
    rw [payload,hversion,hbody]
    simp only [headerTags,sampleCollection,List.flatMap_cons,List.flatMap_nil,List.append_nil,
      if_true,List.length_singleton]
  have hentry : sampleFile.writeCollectionInfo.length<1000 := by decide +kernel
  have hempty : (WrittenTag.str FT_FILENAME .Raw []).bytes.length=4 := by decide
  have hlength : 8≤(writeUInt32 1++body).length ∧
      (writeUInt32 1++body).length<2^32 := by
    simp only [hbody,bytes_of_overlong hutf8,List.length_append,writeUInt32_length,hutf8,
      hempty]
    omega
  have hname := h.name (sampleCollection [] []) []
  rw [hpayload,initFromFile] at hname
  dsimp only at hname
  rw [if_neg (Nat.not_lt.mpr hlength.1),Nat.mod_eq_of_lt hlength.2,List.take_length,
    readUInt32_write (by decide)] at hname
  dsimp only at hname
  rw [if_pos (.inl rfl),loadBinary_name,hbody,loadHeader_overlong _ hutf8] at hname
  have hlost := congrArg List.length hname
  rw [sampleCollection,List.length_replicate] at hlost
  simp at hlost

end Collection

end EmuleQt.Files
