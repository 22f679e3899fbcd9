import EmuleQt.Files.PartMetRestored

namespace EmuleQt.Files

open Crypto Math Protocol Utils

theorem encodeBase32_length_le (data : List UInt8) :
    (encodeBase32 data).length≤(8*data.length)/5+1 := by
  have hloop : ∀ buffer bits,(encodeBase32Loop data buffer bits).length ≤
      (8*data.length+bits)/5+1 := by
    induction data with
    | nil =>
      intro buffer bits
      rw [encodeBase32Loop]
      split_ifs <;> simp
    | cons byte data ih =>
      intro buffer bits
      have hrest := ih ((buffer*256+byte.toNat)%2^32) ((bits+8)%5)
      rw [encodeBase32Loop,List.length_append,base32Digits,List.length_map,List.length_range,
        List.length_cons]
      omega
  exact hloop 0 0

theorem encodeString_raw_length_le (s : QString) : (encodeString s .Raw).length≤3*s.length := by
  have hbytes := QString.utf8_length_le (QString.chars s)
  rw [QString.chars_length] at hbytes
  exact hbytes

namespace PartMet

open LoadedMet WrittenTag

variable {s : PartMet} {now : Int} {t : WrittenTag}

/-- A state whose texts and blobs their length fields can tell and whose tags can be counted, and
that does not look like an old part file. -/
structure Readable (s : PartMet) (now : Int) : Prop where
  fileName : (encodeString s.fileName .OptBOM).length < 2 ^ 16
  webSeeds : ∀ url ∈ s.webSeeds, (encodeString url .OptBOM).length < 2 ^ 16
  corruptedParts : (encodeString (partList s.corruptedParts) .Raw).length < 2 ^ 16
  aichHashSet : ∀ data, s.aichHashSet = some data → data.length < 2 ^ 32
  kadNotes : ∀ data, s.kadNotes = some data → data.length < 2 ^ 32
  tagCount : (s.metTags now).length < 2 ^ 32
  noMark : s.NoMark

theorem onlyIf_length_le (c : Bool) (u : WrittenTag) : (onlyIf c u).length≤1 := by
  unfold onlyIf
  split_ifs <;> simp

theorem metTags_length_le (s : PartMet) (now : Int) :
    (s.metTags now).length≤20+s.webSeeds.length+2*s.writtenGaps.length := by
  have hsize : s.sizeTags.length≤2 := by
    unfold sizeTags
    split_ifs <;> simp
  have hblob : ∀ o : Option (List UInt8), o.toList.length≤1 := by
    intro o
    cases o <;> simp
  have hhash : s.aichHash.toList.length≤1 := by
    cases s.aichHash <;> simp
  have hgaps : s.gapTags.length=2*s.writtenGaps.length := by
    simp [gapTags,writeGap,Nat.mul_comm]
  simp only [metTags,settingTags,hashTags,List.length_cons,List.length_append,
    List.flatten_cons,List.flatten_nil,List.length_nil,List.length_map,hgaps]
  grind [onlyIf_length_le]

theorem fine_onlyIf {c : Bool} {u : WrittenTag} (h : u.Fine) (ht : t∈onlyIf c u) : t.Fine := by
  unfold onlyIf at ht
  split_ifs at ht
  · exact List.mem_singleton.mp ht ▸ h
  · cases ht

theorem fine_transferred (s : PartMet) : s.transferredTag.Fine := by
  unfold transferredTag
  split_ifs
  · exact fine_int64 _ _
  · exact fine_int _ _

theorem fine_sizeTags (ht : t∈s.sizeTags) : t.Fine := by
  unfold sizeTags at ht
  split_ifs at ht
  · rcases List.mem_pair.mp ht with rfl | rfl <;> exact fine_int _ _
  · rw [List.mem_singleton.mp ht]
    exact fine_int _ _

theorem fine_settingTags (h : s.Readable now) (ht : t∈(s.settingTags now).flatten) : t.Fine := by
  obtain ⟨ts,hts,ht⟩ := List.mem_flatten.mp ht
  simp only [settingTags,List.mem_cons,List.not_mem_nil,or_false] at hts
  rcases hts with rfl | rfl | rfl | rfl | rfl | rfl | rfl | rfl | rfl | rfl | rfl
  · exact fine_sizeTags ht
  · simp only [List.mem_cons,List.not_mem_nil,or_false] at ht
    rcases ht with rfl | rfl | rfl | rfl | rfl
    · exact fine_transferred s
    all_goals exact fine_int _ _
  · exact fine_onlyIf (fine_int _ _) ht
  · exact fine_onlyIf (fine_int _ _) ht
  · exact fine_onlyIf (fine_int _ _) ht
  · exact fine_onlyIf (fine_int _ _) ht
  · exact fine_onlyIf (fine_int _ _) ht
  · exact fine_onlyIf (fine_int _ _) ht
  · obtain ⟨url,hurl,rfl⟩ := List.mem_map.mp ht
    exact fine_str _ (by decide) (h.webSeeds url hurl)
  · exact fine_onlyIf (fine_int _ _) ht
  · exact fine_onlyIf (fine_str _ (by decide) h.corruptedParts) ht

theorem fine_hashTags (h : s.Readable now) (ht : t∈s.hashTags.flatten) : t.Fine := by
  simp only [hashTags,List.flatten_cons,List.flatten_nil,List.append_nil,List.mem_append,
    List.mem_map,Option.mem_toList] at ht
  rcases ht with ⟨hash,-,rfl⟩ | ⟨data,hdata,rfl⟩ | ⟨data,hdata,rfl⟩
  · have hraw := encodeString_raw_length_le (encodeBase32 hash.bytes)
    have hlen := encodeBase32_length_le hash.bytes
    rw [hash.size] at hlen
    unfold kAICHHashSize at hlen
    exact fine_str _ (by decide) (by omega)
  · exact fine_blob _ (h.aichHashSet data hdata)
  · exact fine_blob _ (h.kadNotes data hdata)

theorem fine_metTags (h : s.Readable now) (ht : t∈s.metTags now) : t.Fine := by
  rcases List.mem_cons.mp ht with rfl | ht
  · exact fine_str _ (by decide) h.fileName
  · rcases List.mem_append.mp ht with ht | ht
    · exact fine_settingTags h ht
    · rcases List.mem_append.mp ht with ht | ht
      · exact fine_hashTags h ht
      · exact (aside_gapTags ht).2

theorem loadPartFile_savePartFile (h : s.Readable now) (category : UInt32) (autoDown autoUp : Bool)
    (partLength : Nat) : ∃ others namedGaps gapList,
      loadPartFile (fresh category autoDown autoUp) (some partLength) (s.savePartFile now) =
          .LoadSuccess
            { s.restore now (s.started (fresh category autoDown autoUp)) with
              others := others, namedGaps := namedGaps, gapList := gapList } := by
  have htail : ∀ l,∃ gapList, addTail partLength l = { l with gapList := gapList } := by
    intro l
    unfold addTail
    split_ifs
    · exact ⟨_,rfl⟩
    · exact ⟨l.gapList,rfl⟩
  have hsize : ¬MAX_EMULE_FILE_SIZE<s.fileSize := Nat.not_lt.mpr s.fileSize_le
  have hread := s.readMet_save now (fresh category autoDown autoUp) (fun t ht => fine_metTags h ht)
    h.tagCount
  obtain ⟨others,namedGaps,htags⟩ := s.loadAll_metTags now
    (l := s.started (fresh category autoDown autoUp)) ⟨rfl,rfl,rfl,rfl,rfl,rfl,rfl,rfl,rfl,rfl⟩
  rw [← loadAll,htags] at hread
  obtain ⟨gapList,hgaps⟩ := htail
    { s.restore now (s.started (fresh category autoDown autoUp)) with
      others := others
      namedGaps := namedGaps
      gapList := mergedGaps { s.restore now (s.started (fresh category autoDown autoUp)) with
        others := others, namedGaps := namedGaps } }
  refine ⟨others,namedGaps,gapList,?_⟩
  rw [loadPartFile,s.readKind_save now h.noMark]
  dsimp only
  rw [hread]
  dsimp only [restore]
  rw [if_neg hsize]
  exact congrArg PartFileLoadResult.LoadSuccess hgaps

/-- The counters and settings of a loaded download are those of the saved one. Where a priority is
automatic, that it is automatic is the setting. -/
structure Restored (s : PartMet) (now : Int) (l : LoadedMet) : Prop where
  transferred : l.transferred = s.transferred
  corruptionLoss : l.corruptionLoss = s.corruptionLoss
  compressionGain : l.compressionGain = s.compressionGain
  dlActiveTime : l.dlActiveTime = s.activeTime now
  autoDownPriority : l.autoDownPriority = s.autoDownPriority
  downPriority : s.autoDownPriority = false → l.downPriority = s.downPriority
  autoUpPriority : l.autoUpPriority = s.autoUpPriority
  upPriority : s.autoUpPriority = false → l.upPriority = s.upPriority
  paused : l.paused = s.paused
  category : l.category = s.category
  corruptedParts : l.corruptedParts = s.corruptedParts
  previewPrio : l.previewPrio = s.previewPrio
  pauseOnPreview : l.pauseOnPreview = s.pauseOnPreview
  privateMaxSources : l.privateMaxSources = s.privateMaxSources
  webSeeds : l.webSeeds = s.webSeeds
  fileSize : l.fileSize = s.fileSize

theorem restored_restore_iff (s : PartMet) (now : Int) (l : LoadedMet) (others : List Tag)
    (namedGaps : List NamedGap) (gapList : List Interval) :
    Restored s now
        { s.restore now l with others := others, namedGaps := namedGaps, gapList := gapList } ↔
      s.corruptionLoss.toUInt32.toUInt64=s.corruptionLoss ∧
        s.compressionGain.toUInt32.toUInt64=s.compressionGain ∧
          ∀ url∈s.webSeeds,reread url .OptBOM=url := by
  rw [← addWebSeeds_reread s.webSeeds_nodup s.webSeeds_ne]
  constructor
  · intro h
    exact ⟨h.corruptionLoss,h.compressionGain,h.webSeeds⟩
  · intro h
    exact {
      transferred := rfl
      corruptionLoss := h.1
      compressionGain := h.2.1
      dlActiveTime := rfl
      autoDownPriority := rfl
      downPriority := fun hmanual => by simp [restore,hmanual]
      autoUpPriority := rfl
      upPriority := fun hmanual => by simp [restore,hmanual]
      paused := rfl
      category := rfl
      corruptedParts := rfl
      previewPrio := rfl
      pauseOnPreview := rfl
      privateMaxSources := rfl
      webSeeds := h.2.2
      fileSize := rfl }

/-- A download of 10 GiB with one web seed and one corrupted part. -/
def tenGiB (compressionGain : UInt64) : PartMet where
  fileName := QString.lit "film.avi"
  fileSize := 10*2^30
  fileHash := Digest.zero 16
  md4PartHashes := []
  lastModified := 0
  transferred := 6*2^30
  corruptionLoss := 9728000
  compressionGain := compressionGain
  dlActiveTime := 3600
  activated := 0
  autoDownPriority := false
  downPriority := kPrHigh
  autoUpPriority := true
  upPriority := kPrHigh
  paused := true
  category := 2
  lastSeenComplete := 0
  privateMaxSources := 0
  nameLocked := false
  webSeeds := [QString.lit "http://a/"]
  previewPrio := false
  pauseOnPreview := true
  corruptedParts := [7]
  aichHash := none
  aichHashSet := none
  kadNotes := none
  gapList := [⟨6*2^30,10*2^30-1⟩]
  bufferedData := []
  flushingData := []
  fileSize_le := by decide
  downPriority_le := by decide
  upPriority_le := by decide
  webSeeds_nodup := List.nodup_singleton _
  webSeeds_ne := by decide

theorem tenGiB_readable (compressionGain : UInt64) : (tenGiB compressionGain).Readable 0 where
  fileName := by
    show (encodeString (QString.lit "film.avi") .OptBOM).length<2^16
    decide
  webSeeds := by
    show ∀ url∈[QString.lit "http://a/"], (encodeString url .OptBOM).length<2^16
    decide
  corruptedParts := by
    have hraw := encodeString_raw_length_le (partList (tenGiB compressionGain).corruptedParts)
    have hparts : partList (tenGiB compressionGain).corruptedParts=QString.number 7 :=
      List.intercalate_singleton
    have hnumber := QString.number_length_le (n := 7) (k := 1) (by decide) (by decide)
    rw [hparts] at hraw ⊢
    omega
  aichHashSet := fun data hdata => nomatch hdata
  kadNotes := fun data hdata => nomatch hdata
  tagCount := by
    have hcount := (tenGiB compressionGain).metTags_length_le 0
    have hseeds : (tenGiB compressionGain).webSeeds.length=1 := rfl
    have hgaps : (tenGiB compressionGain).writtenGaps.length=1 := rfl
    omega
  noMark := fun hash hhash => nomatch hhash

/-- Of 5 GiB saved by compression 1 GiB is left. -/
theorem savePartFile_not_restored : ∃ l,
    loadPartFile (fresh 0 false false) (some (10 * 2 ^ 30))
        ((tenGiB (5 * 2 ^ 30)).savePartFile 0) = .LoadSuccess l ∧
      l.compressionGain = 2 ^ 30 ∧ (tenGiB (5 * 2 ^ 30)).compressionGain = 5 * 2 ^ 30 ∧
        ¬Restored (tenGiB (5 * 2 ^ 30)) 0 l := by
  obtain ⟨others,namedGaps,gapList,hload⟩ :=
    loadPartFile_savePartFile (tenGiB_readable (5*2^30)) 0 false false (10*2^30)
  refine ⟨_,hload,rfl,rfl,?_⟩
  intro hrestored
  have hcut := (restored_restore_iff _ _ _ others namedGaps gapList).mp hrestored
  exact absurd hcut.2.1 (by decide)

/-- What is saved is restored if and only if the corruption loss and the compression gain are below
4 GiB and the web seeds are whole texts that begin with no byte order mark. -/
theorem savePartFile_restored_iff (s : PartMet) (now : Int) (h : s.Readable now) (category : UInt32)
    (autoDown autoUp : Bool) (partLength : Nat) :
    (∃ l, loadPartFile (fresh category autoDown autoUp) (some partLength) (s.savePartFile now) =
        .LoadSuccess l ∧ Restored s now l) ↔
      s.corruptionLoss.toNat < 2 ^ 32 ∧ s.compressionGain.toNat < 2 ^ 32 ∧
        ∀ url ∈ s.webSeeds, ∃ cs : List Char,
          url = cs.flatMap utf16 ∧ cs.head? ≠ some '\uFEFF' := by
  obtain ⟨others,namedGaps,gapList,hload⟩ :=
    loadPartFile_savePartFile h category autoDown autoUp partLength
  have hsmall : ∀ v : UInt64, v.toUInt32.toUInt64=v ↔ v.toNat<2^32 := by
    intro v
    rw [toUInt32_toUInt64_iff,UInt64.lt_iff_toNat_lt]
    have hlast : (0xFFFFFFFF : UInt64).toNat=2^32-1 := rfl
    omega
  have hcond := s.restored_restore_iff now (s.started (fresh category autoDown autoUp)) others
    namedGaps gapList
  simp only [hsmall,QString.reread_eq_self_iff] at hcond
  rw [← hcond]
  constructor
  · intro hback
    obtain ⟨l',hload',hrestored⟩ := hback
    rw [hload] at hload'
    exact PartFileLoadResult.LoadSuccess.inj hload' ▸ hrestored
  · intro hrestored
    exact ⟨_,hload,hrestored⟩

theorem savePartFile_restored_tenGiB : ∃ l,
    loadPartFile (fresh 0 false false) (some (10 * 2 ^ 30))
        ((tenGiB (3 * 2 ^ 30)).savePartFile 0) = .LoadSuccess l ∧
      Restored (tenGiB (3 * 2 ^ 30)) 0 l := by
  refine ((tenGiB (3*2^30)).savePartFile_restored_iff 0 (tenGiB_readable _) 0 false false
    (10*2^30)).mpr ⟨by decide,by decide,?_⟩
  intro url hurl
  rw [List.mem_singleton.mp hurl]
  exact ⟨"http://a/".toList,by decide,by decide⟩

end PartMet

end EmuleQt.Files
