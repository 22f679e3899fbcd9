import EmuleQt.Files.PartMet
import EmuleQt.Utils.TextCodings

namespace EmuleQt.Files

open Crypto Math Protocol Utils

namespace PartMet

open LoadedMet WrittenTag

/-- Written tags, read and taken in one after the other. -/
def loadAll (l : LoadedMet) (ts : List WrittenTag) : LoadedMet :=
  (ts.map WrittenTag.reread).foldl (loadTag false) l

variable {s : PartMet} {l : LoadedMet} {t : WrittenTag} {ts us : List WrittenTag} {now : Int}

theorem loadAll_append : loadAll l (ts++us)=loadAll (loadAll l ts) us := by
  simp [loadAll]

theorem loadAll_flatten (tss : List (List WrittenTag)) :
    loadAll l tss.flatten=tss.foldl loadAll l := by
  induction tss generalizing l with
  | nil => rfl
  | cons ts tss ih => rw [List.flatten_cons,loadAll_append,ih,List.foldl_cons]

theorem loadAll_onlyIf {c : Bool} {m : LoadedMet} (hload : loadTag false l t.reread=m)
    (hskip : c=false → m=l) : loadAll l (onlyIf c t)=m := by
  cases c with
  | true => exact hload
  | false => exact (hskip rfl).symm

theorem loadAll_size (s : PartMet) : loadAll l s.sizeTags = { l with fileSize := s.fileSize } := by
  have hmax := s.fileSize_le
  unfold MAX_EMULE_FILE_SIZE at hmax
  unfold sizeTags
  by_cases hlarge : s.isLargeFile=true
  · have hlow : (UInt32.ofNat s.fileSize).toUInt64.toNat=s.fileSize%2^32 := by simp
    have hhigh : (UInt32.ofNat (s.fileSize/2^32)).toNat=s.fileSize/2^32 := by
      rw [UInt32.toNat_ofNat']
      omega
    have hor : s.fileSize/2^32*2^32 ||| s.fileSize%2^32=s.fileSize := by
      rw [Nat.mul_comm,← Nat.two_pow_add_eq_or_of_lt (Nat.mod_lt _ (by decide))]
      exact Nat.div_add_mod _ _
    have hload : loadAll l [.int FT_FILESIZE (UInt32.ofNat s.fileSize),
        .int FT_FILESIZE_HI (UInt32.ofNat (s.fileSize/2^32))] =
          { l with fileSize := (UInt32.ofNat (s.fileSize/2^32)).toNat*2^32 |||
              (UInt32.ofNat s.fileSize).toUInt64.toNat } := rfl
    rw [if_pos hlarge,hload,hlow,hhigh,hor]
  · have hsmall : s.fileSize≤OLD_MAX_EMULE_FILE_SIZE := by simpa [isLargeFile] using hlarge
    unfold OLD_MAX_EMULE_FILE_SIZE at hsmall
    have hlow : (UInt32.ofNat s.fileSize).toUInt64.toNat=s.fileSize := by
      rw [UInt32.toNat_toUInt64,UInt32.toNat_ofNat']
      omega
    have hload : loadAll l [.int FT_FILESIZE (UInt32.ofNat s.fileSize)] =
        { l with fileSize := (UInt32.ofNat s.fileSize).toUInt64.toNat } := rfl
    rw [if_neg hlarge,hload,hlow]

theorem toUInt32_toUInt64_iff {v : UInt64} : v.toUInt32.toUInt64=v ↔ ¬0xFFFFFFFF<v := by
  rw [← UInt64.toNat_inj,UInt32.toNat_toUInt64,UInt64.toNat_toUInt32,UInt64.lt_iff_toNat_lt]
  have hlast : (0xFFFFFFFF : UInt64).toNat=2^32-1 := rfl
  omega

theorem load_transferred (s : PartMet) :
    loadTag false l s.transferredTag.reread = { l with transferred := s.transferred } := by
  unfold transferredTag
  split_ifs with hlarge
  · rw [reread_int64 FT_TRANSFERRED hlarge]
    rfl
  · have hfits : s.transferred.toUInt32.toUInt64=s.transferred := toUInt32_toUInt64_iff.mpr hlarge
    have hload : loadTag false l (int FT_TRANSFERRED s.transferred.toUInt32).reread =
        { l with transferred := s.transferred.toUInt32.toUInt64 } := rfl
    rw [hload,hfits]

theorem priority_values {v : UInt8} (h : v≤kPrVeryLow) :
    v.toUInt32.toUInt8=v ∧ v≠kPrAuto ∧ v.toUInt32≠kPrAuto.toUInt32 ∧
      v.toUInt32≤kPrVeryLow.toUInt32 ∧ knownPriority v=v := by
  have hsmall : v.toNat≤4 := UInt8.le_iff_toNat_le.mp h
  refine ⟨by simp,?_,?_,?_,if_pos h⟩
  · intro heq
    rw [heq] at hsmall
    exact absurd hsmall (by decide)
  · intro heq
    have hvalue := congrArg UInt32.toNat heq
    rw [UInt8.toNat_toUInt32] at hvalue
    have hauto : kPrAuto.toUInt32.toNat=5 := rfl
    omega
  · rw [UInt32.le_iff_toNat_le,UInt8.toNat_toUInt32]
    exact hsmall

theorem load_downPriority (s : PartMet) :
    loadTag false l (int FT_DLPRIORITY s.downPriorityTagValue.toUInt32).reread =
      { l with
        autoDownPriority := s.autoDownPriority
        downPriority := if s.autoDownPriority then kPrNormal else s.downPriority } := by
  have hload : loadTag false l (int FT_DLPRIORITY s.downPriorityTagValue.toUInt32).reread =
      setDownPriorityFromTag s.downPriorityTagValue.toUInt32 l := rfl
  obtain ⟨hback,hauto,-,-,hknown⟩ := priority_values s.downPriority_le
  rw [hload,downPriorityTagValue]
  cases s.autoDownPriority with
  | true => rfl
  | false =>
    rw [if_neg (by simp),setDownPriorityFromTag,hback]
    rw [if_neg hauto,hknown]
    rfl

theorem load_upPriority (s : PartMet) :
    loadTag false l (int FT_ULPRIORITY s.upPriorityTagValue.toUInt32).reread =
      { l with
        autoUpPriority := s.autoUpPriority
        upPriority := if s.autoUpPriority then kPrHigh else s.upPriority } := by
  have hload : loadTag false l (int FT_ULPRIORITY s.upPriorityTagValue.toUInt32).reread =
      setUpPriorityFromTag s.upPriorityTagValue.toUInt32 l := rfl
  obtain ⟨hback,-,hauto,hle,-⟩ := priority_values s.upPriority_le
  rw [hload,upPriorityTagValue]
  cases s.autoUpPriority with
  | true => rfl
  | false =>
    rw [if_neg (by simp),setUpPriorityFromTag,if_neg hauto,if_pos hle,hback]
    rfl

theorem load_status (s : PartMet) :
    loadTag false l (int FT_STATUS (if s.paused then 1 else 0)).reread =
      { l with paused := s.paused } := by
  have hload : loadTag false l (int FT_STATUS (if s.paused then 1 else 0)).reread =
      { l with paused := decide ((if s.paused then (1 : UInt32) else 0)≠0) } := rfl
  rw [hload]
  cases s.paused <;> rfl

theorem loadAll_state (s : PartMet) :
    loadAll l [s.transferredTag,.int FT_DLPRIORITY s.downPriorityTagValue.toUInt32,
        .int FT_ULPRIORITY s.upPriorityTagValue.toUInt32,
        .int FT_STATUS (if s.paused then 1 else 0),.int FT_CATEGORY s.category] =
      { l with
        transferred := s.transferred
        autoDownPriority := s.autoDownPriority
        downPriority := if s.autoDownPriority then kPrNormal else s.downPriority
        autoUpPriority := s.autoUpPriority
        upPriority := if s.autoUpPriority then kPrHigh else s.upPriority
        paused := s.paused
        category := s.category } := by
  simp only [loadAll,List.map_cons,List.map_nil,List.foldl_cons,List.foldl_nil,
    load_transferred,load_downPriority,load_upPriority,load_status]
  rfl

theorem loadAll_corrupted (s : PartMet) (h : l.corruptionLoss=0) :
    loadAll l (onlyIf (decide (0<s.corruptionLoss))
        (.int FT_CORRUPTED s.corruptionLoss.toUInt32)) =
      { l with corruptionLoss := s.corruptionLoss.toUInt32.toUInt64 } := by
  refine loadAll_onlyIf rfl fun hnone => ?_
  have hzero : s.corruptionLoss=0 := by simpa using hnone
  rw [hzero]
  show { l with corruptionLoss := 0 } = l
  rw [← h]

theorem loadAll_compression (s : PartMet) (h : l.compressionGain=0) :
    loadAll l (onlyIf (decide (0<s.compressionGain))
        (.int FT_COMPRESSION s.compressionGain.toUInt32)) =
      { l with compressionGain := s.compressionGain.toUInt32.toUInt64 } := by
  refine loadAll_onlyIf rfl fun hnone => ?_
  have hzero : s.compressionGain=0 := by simpa using hnone
  rw [hzero]
  show { l with compressionGain := 0 } = l
  rw [← h]

theorem loadAll_activeTime (s : PartMet) (now : Int) (h : l.dlActiveTime=0) :
    loadAll l (onlyIf (decide (0<s.activeTime now))
        (.int FT_DL_ACTIVE_TIME (s.activeTime now))) =
      { l with dlActiveTime := s.activeTime now } := by
  refine loadAll_onlyIf rfl fun hnone => ?_
  have hzero : s.activeTime now=0 := by simpa using hnone
  rw [hzero,← h]

theorem loadAll_maxSources (s : PartMet) (h : l.privateMaxSources=0) :
    loadAll l (onlyIf (decide (0<s.privateMaxSources))
        (.int FT_MAXSOURCES s.privateMaxSources)) =
      { l with privateMaxSources := s.privateMaxSources } := by
  refine loadAll_onlyIf rfl fun hnone => ?_
  have hzero : s.privateMaxSources=0 := by simpa using hnone
  rw [hzero,← h]

/-- The date as it comes back. -/
def seenAgain (s : PartMet) : Int :=
  if 0<s.lastSeenComplete then (UInt32.ofInt s.lastSeenComplete).toNat else 0

theorem loadAll_lastSeen (s : PartMet) (h : l.lastSeenComplete=0) :
    loadAll l (onlyIf (decide (0<s.lastSeenComplete))
        (.int FT_LASTSEENCOMPLETE (UInt32.ofInt s.lastSeenComplete))) =
      { l with lastSeenComplete := s.seenAgain } := by
  by_cases hpos : 0<s.lastSeenComplete
  · rw [decide_eq_true hpos,seenAgain,if_pos hpos]
    rfl
  · rw [decide_eq_false hpos,seenAgain,if_neg hpos,← h]
    rfl

theorem loadAll_nameLocked (s : PartMet) (h : l.nameLocked=false) :
    loadAll l (onlyIf s.nameLocked (.int FT_NAMELOCKED 1)) =
      { l with nameLocked := s.nameLocked } := by
  cases s.nameLocked with
  | true => rfl
  | false =>
    show l = { l with nameLocked := false }
    rw [← h]

theorem loadAll_preview (s : PartMet) (hprio : l.previewPrio=false)
    (hpause : l.pauseOnPreview=false) :
    loadAll l (onlyIf (s.previewPrio || s.pauseOnPreview) (.int FT_DL_PREVIEW s.previewFlags)) =
      { l with previewPrio := s.previewPrio, pauseOnPreview := s.pauseOnPreview } := by
  have hload : loadTag false l (int FT_DL_PREVIEW s.previewFlags).reread =
      { l with
        previewPrio := decide (s.previewFlags &&& 1≠0)
        pauseOnPreview := decide (s.previewFlags &&& 2≠0) } := rfl
  have hflags : decide (s.previewFlags &&& 1≠0)=s.previewPrio ∧
      decide (s.previewFlags &&& 2≠0)=s.pauseOnPreview := by
    unfold previewFlags
    cases s.previewPrio <;> cases s.pauseOnPreview <;> decide
  rw [hflags.1,hflags.2] at hload
  refine loadAll_onlyIf hload fun hnone => ?_
  cases l
  simp_all

theorem loadAll_seeds (urls : List QString) :
    loadAll l (urls.map (.str FT_WEBSEED .OptBOM)) =
      { l with webSeeds :=
          (urls.map (reread · .OptBOM)).foldl (fun seeds url => addWebSeed url seeds) l.webSeeds } := by
  induction urls generalizing l with
  | nil => rfl
  | cons url urls ih =>
    have hload : loadTag false l (str FT_WEBSEED .OptBOM url).reread =
        { l with webSeeds := addWebSeed (reread url .OptBOM) l.webSeeds } := rfl
    have hsplit : loadAll l ((url::urls).map (.str FT_WEBSEED .OptBOM)) =
        loadAll (loadTag false l (str FT_WEBSEED .OptBOM url).reread)
          (urls.map (.str FT_WEBSEED .OptBOM)) := rfl
    rw [hsplit,hload,ih]
    rfl

theorem number_ascii {n : Nat} {u : UInt16} (h : u∈QString.number n) :
    u.toNat≤0x7F ∧ u≠QString.comma := by
  obtain ⟨d,hd⟩ := QString.number_digit h
  unfold QString.digit? at hd
  split_ifs at hd with hrange
  refine ⟨by omega,?_⟩
  intro hcomma
  have hvalue : QString.comma.toNat=0x2C := rfl
  rw [hcomma] at hrange
  omega

theorem partList_ascii {parts : List UInt16} {u : UInt16} (h : u∈partList parts) :
    u.toNat≤0x7F := by
  induction parts with
  | nil => cases h
  | cons part parts ih =>
    cases parts with
    | nil =>
      rw [partList,List.map_singleton,List.intercalate_singleton] at h
      exact (number_ascii h).1
    | cons next parts =>
      rw [partList,List.map_cons,List.map_cons,List.intercalate_cons_cons] at h
      rcases List.mem_append.mp h with h | h
      · rcases List.mem_append.mp h with h | h
        · exact (number_ascii h).1
        · rw [List.mem_singleton.mp h]
          decide
      · exact ih h

theorem parts_reread (parts : List UInt16) (hne : parts≠[]) :
    ((reread (partList parts) .Raw).splitOn QString.comma).filterMap toUShort=parts := by
  have hsplit : (partList parts).splitOn QString.comma =
      parts.map fun part => QString.number part.toNat := by
    refine List.splitOn_intercalate QString.comma ?_ (by simpa using hne)
    intro text htext hcomma
    obtain ⟨part,-,rfl⟩ := List.mem_map.mp htext
    exact (number_ascii hcomma).2 rfl
  have hpart : ∀ part : UInt16, toUShort (QString.number part.toNat)=some part := by
    intro part
    have hlt := part.toNat_lt
    rw [toUShort,QString.toULongLong_number (by omega)]
    simp [hlt]
  rw [QString.reread_ascii (fun u hu => partList_ascii hu),hsplit,List.filterMap_map]
  have hkeep : (toUShort ∘ fun part : UInt16 => QString.number part.toNat)=some := funext hpart
  rw [hkeep,List.filterMap_some]

theorem loadAll_corruptedParts (s : PartMet) (h : l.corruptedParts=[]) :
    loadAll l (onlyIf (decide (s.corruptedParts≠[]))
        (.str FT_CORRUPTEDPARTS .Raw (partList s.corruptedParts))) =
      { l with corruptedParts := s.corruptedParts } := by
  by_cases hne : s.corruptedParts=[]
  · have hnone : decide (s.corruptedParts≠[])=false := by simpa using hne
    rw [hnone,hne,← h]
    rfl
  · have hload : loadTag false l (str FT_CORRUPTEDPARTS .Raw (partList s.corruptedParts)).reread =
        { l with corruptedParts := l.corruptedParts ++
            ((reread (partList s.corruptedParts) .Raw).splitOn QString.comma).filterMap toUShort } :=
      rfl
    rw [parts_reread s.corruptedParts hne,h,List.nil_append] at hload
    exact loadAll_onlyIf hload fun hnone => absurd hne (by simpa using hnone)

end PartMet

open Crypto Math Protocol Utils

namespace PartMet

open LoadedMet

variable {s : PartMet} {now : Int}

/-- No part hash stands in the file where eDonkey's old part style has its mark. -/
def NoMark (s : PartMet) : Prop :=
  ∀ hash, (s.md4PartHashes.take s.hashCount).head? = some hash →
    (hash.bytes.drop 1).take 4≠[0,0,2,1]

theorem str_byte {nameId : UInt8} (hid : nameId≠0) (name : QString) (rest : List UInt8) :
    ∃ b bs, (WrittenTag.str nameId .OptBOM name).bytes++rest=b::bs ∧ 0x80≤b.toNat := by
  have hnumeric : ∀ type<0x80,∀ rest,∃ b bs,
      (Tag.ofId nameId (.string name)).writeNameAndType type++rest=b::bs ∧
        0x80≤b.toNat := by
    intro type htype rest
    refine ⟨UInt8.ofNat (type ||| 0x80),writeUInt8 nameId.toNat++rest,?_,?_⟩
    · simp [Tag.writeNameAndType,Tag.numeric,Tag.ofId,writeUInt8,leBytes,hid]
    · rw [UInt8.toNat_ofNat',Nat.mod_eq_of_lt (Tag.wireType_bits type htype).2.1]
      exact Nat.right_le_or
  show ∃ b bs, ((Tag.ofId nameId (.string name)).writeNewEd2kTag .OptBOM).2++rest=b::bs ∧ _
  rw [Tag.writeNewEd2kTag]
  simp only [Tag.ofId]
  split_ifs with hshort
  · rw [List.append_assoc]
    refine hnumeric _ ?_ _
    unfold TAGTYPE_STR1
    omega
  · rw [List.append_assoc]
    exact hnumeric _ (by decide) _

theorem mark_bytes (s : PartMet) (now : Int) (h : s.NoMark) : ∃ four rest,
    (s.savePartFile now).drop 24=four++rest ∧ four.length=4 ∧ four≠[0,0,2,1] := by
  obtain ⟨b,bs,htags,hb⟩ := str_byte (by decide : FT_FILENAME≠0) s.fileName
    (((s.settingTags now).flatten++(s.hashTags.flatten++s.gapTags)).flatMap WrittenTag.bytes)
  rw [← List.flatMap_cons,← metTags] at htags
  obtain ⟨front,hfront,hfile⟩ : ∃ front : List UInt8, front.length=23 ∧
      s.savePartFile now=front++((s.md4PartHashes.take s.hashCount).flatMap Digest.bytes ++
        (writeUInt32 (s.metTags now).length++b::bs)) := by
    refine ⟨writeUInt8 (if s.isLargeFile then PARTFILE_VERSION_LARGEFILE else PARTFILE_VERSION) ++
      (writeUInt32 s.lastModified.toNat++(s.fileHash.bytes++writeUInt16 s.hashCount)),?_,?_⟩
    · simp [s.fileHash.size]
    · rw [savePartFile,metStart,htags]
      simp only [List.append_assoc]
  have hdrop : ∀ tail : List UInt8, (front++tail).drop 24=tail.drop 1 := by
    intro tail
    rw [List.drop_append,hfront,List.drop_of_length_le (by omega),List.nil_append]
  rw [hfile,hdrop]
  cases hhashes : s.md4PartHashes.take s.hashCount with
  | nil =>
    refine ⟨(writeUInt32 (s.metTags now).length).drop 1++[b],bs,?_,?_,?_⟩
    · rw [List.flatMap_nil,List.nil_append,List.drop_append_of_le_length (by simp),
        List.append_assoc,List.singleton_append]
    · simp
    · intro hmark
      have hlast := congrArg List.getLast? hmark
      have hone : b=1 := by simpa using hlast
      rw [hone] at hb
      exact absurd hb (by decide)
  | cons hash hashes =>
    have hsize := hash.size
    refine ⟨(hash.bytes.drop 1).take 4,(hash.bytes.drop 1).drop 4 ++
      (hashes.flatMap Digest.bytes++(writeUInt32 (s.metTags now).length++b::bs)),?_,?_,?_⟩
    · rw [List.flatMap_cons,List.append_assoc,List.drop_append_of_le_length (by omega),
        ← List.append_assoc _ _ (hashes.flatMap Digest.bytes++_),List.take_append_drop]
    · rw [List.length_take,List.length_drop]
      omega
    · exact h hash (by rw [hhashes]; rfl)

theorem readKind_save (s : PartMet) (now : Int) (h : s.NoMark) :
    readKind (s.savePartFile now) (s.savePartFile now) =
      .ok (.partMet false, (s.savePartFile now).drop 1) := by
  obtain ⟨four,rest,hdrop,hlen,hmark⟩ := s.mark_bytes now h
  obtain ⟨version,tail,hversion,hfile⟩ : ∃ version tail,
      (version=PARTFILE_VERSION ∨ version=PARTFILE_VERSION_LARGEFILE) ∧
        s.savePartFile now=writeUInt8 version++tail := by
    rw [savePartFile,metStart,List.append_assoc]
    refine ⟨_,_,?_,rfl⟩
    split_ifs
    · exact Or.inr rfl
    · exact Or.inl rfl
  have hfirst : Reader.readUInt8 (s.savePartFile now) = .ok (version, tail) := by
    rw [hfile]
    refine readUInt8_write ?_ tail
    rcases hversion with rfl | rfl <;> decide
  have hrest : (s.savePartFile now).drop 1=tail := by
    rw [hfile]
    rfl
  have hread : Reader.readUInt32 ((s.savePartFile now).drop 24) = .ok (leValue four, rest) := by
    rw [hdrop,Reader.readUInt32,Reader.readUInt,Reader.read_append hlen]
  have hvalue : leValue four≠0x01020000 := by
    intro hsame
    have hbytes := leBytes_leValue four
    rw [hlen,hsame] at hbytes
    exact hmark hbytes.symm
  have hknown : ¬(version≠PARTFILE_VERSION ∧ version≠PARTFILE_VERSION_LARGEFILE ∧
      version≠PARTFILE_SPLITTEDVERSION) := by
    rcases hversion with rfl | rfl <;> simp
  have hsplit : version≠PARTFILE_SPLITTEDVERSION := by
    rcases hversion with rfl | rfl <;> decide
  rw [readKind,Reader.bind_ok hfirst,if_neg hknown,if_neg hsplit,← hrest]
  split_ifs with hlong
  · have hseek : ∀ position bytes,seekTo (s.savePartFile now) position bytes =
        .ok ((), (s.savePartFile now).drop position) := fun _ _ => rfl
    rw [Reader.bind_ok (hseek 24 _),Reader.bind_ok hread,Reader.bind_ok (hseek 1 _),
      decide_eq_false hvalue]
    rfl
  · rfl

theorem readHashes_write (hashes : List MD4Hash) (rest : List UInt8) :
    readHashes hashes.length (hashes.flatMap Digest.bytes++rest) = .ok (hashes, rest) := by
  induction hashes with
  | nil => rfl
  | cons hash hashes ih =>
    rw [List.flatMap_cons,List.append_assoc,List.length_cons,readHashes,
      Reader.bind_ok (Digest.read_append hash _),Reader.bind_ok ih]
    rfl

theorem hashCount_take (s : PartMet) :
    (s.md4PartHashes.take s.hashCount).length=s.hashCount := by
  rw [List.length_take,hashCount]
  exact Nat.min_eq_left (Nat.mod_le _ _)

/-- `l` with the date, the hash and the part hashes. -/
def started (s : PartMet) (l : LoadedMet) : LoadedMet :=
  { l with
    lastModified := s.lastModified
    fileHash := s.fileHash
    md4PartHashes := s.md4PartHashes.take s.hashCount }

theorem readStart_save (s : PartMet) (l : LoadedMet) (file rest : List UInt8) :
    readStart file false l (writeUInt32 s.lastModified.toNat++(s.fileHash.bytes ++
      (writeUInt16 s.hashCount++((s.md4PartHashes.take s.hashCount).flatMap Digest.bytes ++
        rest)))) =
      .ok (s.started l, rest) := by
  have hcount : s.hashCount<2^16 := Nat.mod_lt _ (by decide)
  have hhashes := readHashes_write (s.md4PartHashes.take s.hashCount) rest
  rw [s.hashCount_take] at hhashes
  rw [readStart,if_pos rfl,Reader.bind_ok (readUInt32_write s.lastModified.toNat_lt _),readHashSet,
    Reader.bind_ok (Digest.read_append s.fileHash _),Reader.bind_ok (readUInt16_write hcount _),
    Reader.bind_ok hhashes,UInt32.ofNat_toNat]
  rfl

theorem readMet_save (s : PartMet) (now : Int) (l : LoadedMet)
    (hfine : ∀ t∈s.metTags now,t.Fine) (hcount : (s.metTags now).length<2^32) :
    readMet (s.savePartFile now) false l ((s.savePartFile now).drop 1) =
      .ok (((s.metTags now).map WrittenTag.reread).foldl (loadTag false) (s.started l), []) := by
  have hdrop : (s.savePartFile now).drop 1=writeUInt32 s.lastModified.toNat ++
      (s.fileHash.bytes++(writeUInt16 s.hashCount ++
        ((s.md4PartHashes.take s.hashCount).flatMap Digest.bytes ++
          (writeUInt32 (s.metTags now).length++(s.metTags now).flatMap WrittenTag.bytes)))) := by
    rw [savePartFile,metStart,List.append_assoc,List.drop_left' (writeUInt8_length _)]
    simp only [List.append_assoc]
  have hplausible := WrittenTag.length_le_bytes hfine
  have htagCount : readTagCount (writeUInt32 (s.metTags now).length ++
      (s.metTags now).flatMap WrittenTag.bytes) =
        .ok ((s.metTags now).length, (s.metTags now).flatMap WrittenTag.bytes) := by
    rw [readTagCount,Reader.bind_ok (readUInt32_write hcount _),
      Reader.bind_ok (Reader.remaining_apply _),if_neg (Nat.not_lt.mpr hplausible)]
    rfl
  have htags := WrittenTag.readMany_written hfine []
  rw [List.append_nil] at htags
  rw [hdrop,readMet,Reader.bind_ok (s.readStart_save l _ _),Reader.bind_ok htagCount,
    Reader.bind_ok htags]
  rfl

end PartMet

open Crypto Math Protocol Utils

theorem addWebSeed_sublist (url : QString) (webSeeds : List QString) :
    (addWebSeed url webSeeds).Sublist (webSeeds++[url]) := by
  unfold addWebSeed
  split_ifs
  · exact List.sublist_append_left _ _
  · exact List.Sublist.refl _

theorem addWebSeeds_sublist (urls webSeeds : List QString) :
    (urls.foldl (fun seeds url => addWebSeed url seeds) webSeeds).Sublist (webSeeds++urls) := by
  induction urls generalizing webSeeds with
  | nil => simp
  | cons url urls ih =>
    have hfirst := (addWebSeed_sublist url webSeeds).append_right urls
    rw [List.append_assoc,List.singleton_append] at hfirst
    exact (ih _).trans hfirst

theorem addWebSeeds_all {urls webSeeds : List QString} (hnodup : (webSeeds++urls).Nodup)
    (hne : []∉urls) :
    urls.foldl (fun seeds url => addWebSeed url seeds) webSeeds=webSeeds++urls := by
  induction urls generalizing webSeeds with
  | nil => simp
  | cons url urls ih =>
    have hurl : url≠[] := fun h => hne (h ▸ List.mem_cons_self)
    have hnew : url∉webSeeds := fun h =>
      (List.nodup_append.mp hnodup).2.2 url h url List.mem_cons_self rfl
    have hadd : addWebSeed url webSeeds=webSeeds++[url] :=
      if_neg (not_or.mpr ⟨hurl,hnew⟩)
    rw [← List.singleton_append,← List.append_assoc] at hnodup
    rw [List.foldl_cons,hadd,ih hnodup (fun h => hne (List.mem_cons_of_mem _ h)),
      List.append_assoc,List.singleton_append]

theorem addWebSeeds_reread {urls : List QString} (hnodup : urls.Nodup) (hne : []∉urls) :
    (urls.map (reread · .OptBOM)).foldl (fun seeds url => addWebSeed url seeds) []=urls ↔
      ∀ url∈urls,reread url .OptBOM=url := by
  constructor
  · intro hback
    have hsub := addWebSeeds_sublist (urls.map (reread · .OptBOM)) []
    rw [hback,List.nil_append] at hsub
    have hsame : urls=urls.map (reread · .OptBOM) := hsub.eq_of_length (by simp)
    exact fun url hurl => List.map_inj_left.mp (hsame.symm.trans (List.map_id urls).symm) url hurl
  · intro hback
    rw [List.map_congr_left hback,List.map_id']
    exact addWebSeeds_all hnodup hne

namespace PartMet

open LoadedMet WrittenTag

variable {s : PartMet} {l : LoadedMet} {t : WrittenTag} {ts : List WrittenTag} {now : Int}

/-- A new download, as far as tags are taken in only where they were written. -/
structure Unset (l : LoadedMet) : Prop where
  corruptionLoss : l.corruptionLoss = 0
  compressionGain : l.compressionGain = 0
  dlActiveTime : l.dlActiveTime = 0
  lastSeenComplete : l.lastSeenComplete = 0
  privateMaxSources : l.privateMaxSources = 0
  nameLocked : l.nameLocked = false
  webSeeds : l.webSeeds = []
  previewPrio : l.previewPrio = false
  pauseOnPreview : l.pauseOnPreview = false
  corruptedParts : l.corruptedParts = []

/-- The counters and settings as the loaded download has them. -/
def restore (s : PartMet) (now : Int) (l : LoadedMet) : LoadedMet :=
  { l with
    fileSize := s.fileSize
    transferred := s.transferred
    autoDownPriority := s.autoDownPriority
    downPriority := if s.autoDownPriority then kPrNormal else s.downPriority
    autoUpPriority := s.autoUpPriority
    upPriority := if s.autoUpPriority then kPrHigh else s.upPriority
    paused := s.paused
    category := s.category
    corruptionLoss := s.corruptionLoss.toUInt32.toUInt64
    compressionGain := s.compressionGain.toUInt32.toUInt64
    dlActiveTime := s.activeTime now
    lastSeenComplete := s.seenAgain
    privateMaxSources := s.privateMaxSources
    nameLocked := s.nameLocked
    webSeeds := (s.webSeeds.map (reread · .OptBOM)).foldl
      (fun seeds url => addWebSeed url seeds) []
    previewPrio := s.previewPrio
    pauseOnPreview := s.pauseOnPreview
    corruptedParts := s.corruptedParts }

theorem loadAll_settings (s : PartMet) (now : Int) (h : Unset l) :
    loadAll l (s.settingTags now).flatten=s.restore now l := by
  rw [loadAll_flatten,settingTags]
  simp only [List.foldl_cons,List.foldl_nil,loadAll_size,loadAll_state,loadAll_corrupted s,
    loadAll_compression s,loadAll_activeTime s now,loadAll_lastSeen s,loadAll_maxSources s,
    loadAll_nameLocked s,loadAll_seeds,loadAll_preview s,loadAll_corruptedParts s,
    h.corruptionLoss,h.compressionGain,h.dlActiveTime,h.lastSeenComplete,h.privateMaxSources,
    h.nameLocked,h.webSeeds,h.previewPrio,h.pauseOnPreview,h.corruptedParts,restore]

/-- A tag that is no counter and no setting. -/
def Aside (t : Tag) : Prop :=
  ∀ l, ∃ others namedGaps, loadTag false l t = { l with others := others, namedGaps := namedGaps }

theorem loadAll_aside (h : ∀ t∈ts,Aside t.reread) : ∃ others namedGaps,
    loadAll l ts = { l with others := others, namedGaps := namedGaps } := by
  induction ts generalizing l with
  | nil => exact ⟨l.others,l.namedGaps,rfl⟩
  | cons t ts ih =>
    obtain ⟨ht,hts⟩ := List.forall_mem_cons.mp h
    obtain ⟨others,namedGaps,hfirst⟩ := ht l
    obtain ⟨others',namedGaps',hrest⟩ := ih (l := loadTag false l t.reread) hts
    refine ⟨others',namedGaps',?_⟩
    have hsplit : loadAll l (t::ts)=loadAll (loadTag false l t.reread) ts := rfl
    rw [hsplit,hrest,hfirst]

theorem aside_str {nameId : UInt8} (h : nameId=FT_FILENAME ∨ nameId=FT_AICH_HASH)
    (encode : UTF8Mode) (text : QString) : Aside (str nameId encode text).reread := by
  intro l
  rcases h with rfl | rfl <;> exact ⟨_,l.namedGaps,rfl⟩

theorem aside_blob {nameId : UInt8} (h : nameId=FT_AICHHASHSET ∨ nameId=FT_KADNOTECACHE)
    (data : List UInt8) : Aside (blob nameId data).reread := by
  intro l
  rcases h with rfl | rfl <;> exact ⟨_,l.namedGaps,rfl⟩

theorem aside_gap {largeFile : Bool} {gapIndex : Nat} {gap : Interval} (h : gapIndex<2^32)
    (ht : t∈writeGap largeFile gapIndex gap) : Aside t.reread := by
  rw [(writeGap_spec h ht).2]
  intro l
  rcases List.mem_cons.mp ht with rfl | ht
  · cases largeFile <;> exact ⟨l.others,_,rfl⟩
  · rw [List.mem_singleton.mp ht]
    cases largeFile <;> exact ⟨l.others,_,rfl⟩

theorem aside_gapTags (ht : t∈s.gapTags) : Aside t.reread ∧ t.Fine := by
  obtain ⟨p,-,ht⟩ := List.mem_flatMap.mp ht
  have hindex : p.2%2^32<2^32 := Nat.mod_lt _ (by decide)
  exact ⟨aside_gap hindex ht,(writeGap_spec hindex ht).1⟩

theorem aside_hashTags (ht : t∈s.hashTags.flatten) : Aside t.reread := by
  simp only [hashTags,List.flatten_cons,List.flatten_nil,List.append_nil,List.mem_append,
    List.mem_map] at ht
  rcases ht with ⟨hash,-,rfl⟩ | ⟨data,-,rfl⟩ | ⟨data,-,rfl⟩
  · exact aside_str (Or.inr rfl) _ _
  · exact aside_blob (Or.inl rfl) _
  · exact aside_blob (Or.inr rfl) _

theorem loadAll_metTags (s : PartMet) (now : Int) (h : Unset l) : ∃ others namedGaps,
    loadAll l (s.metTags now) =
      { s.restore now l with others := others, namedGaps := namedGaps } := by
  have hname : loadAll l (s.metTags now) =
      loadAll { l with others := l.others ++
          [(str FT_FILENAME .OptBOM s.fileName).reread] }
        ((s.settingTags now).flatten++(s.hashTags.flatten++s.gapTags)) := rfl
  have hrest : ∀ t∈s.hashTags.flatten++s.gapTags, Aside t.reread := by
    intro t ht
    rcases List.mem_append.mp ht with ht | ht
    · exact aside_hashTags ht
    · exact (aside_gapTags ht).1
  obtain ⟨others,namedGaps,haside⟩ := loadAll_aside hrest
  refine ⟨others,namedGaps,?_⟩
  rw [hname,loadAll_append,loadAll_settings s now,haside]
  · rfl
  · exact { h with }

end PartMet

end EmuleQt.Files
