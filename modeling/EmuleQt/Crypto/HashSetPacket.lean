import EmuleQt.Crypto.AICHRoundTrip
import EmuleQt.Crypto.FileIdentifier

namespace EmuleQt.Crypto

open Utils

namespace AICHHashTree

variable {hashPair : AICHHash → AICHHash → AICHHash}

/-- The units of a tree stand in the order of their positions. -/
theorem leafPairs_range {unit size : Nat} {isLeft : Bool} {t : AICHHashTree} (hunit : 0<unit)
    (h : CompleteTo hashPair unit size isLeft t) (hpos : 0<size)
    (hbase : ∀ s,unit<s → s ≤ size → baseOf s=unit) {i : Nat} {p : List Bool × AICHHash}
    (hp : (leafPairs t)[i]? = some p) :
    i*unit<size ∧ RangeAt size isLeft (i*unit) (min unit (size-i*unit)) p.1 := by
  induction t generalizing size isLeft i p with
  | null => exact h.elim
  | node n l r ihl ihr =>
    obtain ⟨m,-,-,⟨hle,heq⟩ | ⟨hlt,l',r',heq,-,hl,hr⟩⟩ := completeTo_cases h
    · cases heq
      rw [leafPairs,isNull,if_pos rfl] at hp
      cases i with
      | zero =>
        cases hp
        rw [Nat.zero_mul,Nat.sub_zero,Nat.min_eq_right hle]
        exact ⟨hpos,.here⟩
      | succ i => simp at hp
    · cases heq
      obtain ⟨hb0,hbsize,hbl,hbr,-,-⟩ := share_spec hunit hlt isLeft
      have hsize := hbase size hlt (Nat.le_refl size)
      have hleft : leftShare size isLeft=(blocksOf unit size+isLeft.toNat)/2*unit := by
        rw [leftShare,hsize]
      have hsplit : baseOf size<size := hsize ▸ hlt
      have hright : rightShare size isLeft=size-leftShare size isLeft := rfl
      have hbasel : ∀ s,unit<s → s≤leftShare size isLeft → baseOf s=unit :=
        fun s h1 h2 => hbase s h1 (by omega)
      have hbaser : ∀ s,unit<s → s≤rightShare size isLeft → baseOf s=unit :=
        fun s h1 h2 => hbase s h1 (by omega)
      have hlpos : 0<leftShare size isLeft := hleft ▸ Nat.mul_pos hb0 hunit
      have hlen := leafPairs_length hunit hl hlpos hbasel
      rw [hleft,hbl] at hlen
      generalize (blocksOf unit size+isLeft.toNat)/2=b at *
      rw [leafPairs,(complete_valid hl).1,if_neg (by simp)] at hp
      by_cases hside : i<b
      · rw [List.getElem?_append_left (by rw [List.length_map,hlen]; exact hside),
          List.getElem?_map,Option.map_eq_some_iff] at hp
        obtain ⟨q,hq,rfl⟩ := hp
        obtain ⟨hin,hrange⟩ := ihl hl hlpos hbasel hq
        have hmul := Nat.mul_le_mul_right unit (Nat.succ_le_of_lt hside)
        rw [Nat.succ_mul] at hmul
        rw [show min unit (leftShare size isLeft-i*unit)=min unit (size-i*unit) by
          omega] at hrange
        exact ⟨by omega,.left hsplit (by omega) (by omega) hrange⟩
      · rw [List.getElem?_append_right (by rw [List.length_map,hlen]; omega),List.length_map,
          hlen,List.getElem?_map,Option.map_eq_some_iff] at hp
        obtain ⟨q,hq,rfl⟩ := hp
        obtain ⟨hin,hrange⟩ := ihr hr (by omega) hbaser hq
        have hmul := Nat.mul_le_mul_right unit (Nat.not_lt.mp hside)
        have hsub : (i-b)*unit=i*unit-leftShare size isLeft := by
          rw [hleft,Nat.sub_mul]
        rw [hsub] at hin hrange
        rw [show min unit (rightShare size isLeft-(i*unit-leftShare size isLeft)) =
          min unit (size-i*unit) by omega] at hrange
        exact ⟨by omega,.right hsplit (by omega) (by omega) hrange⟩

theorem modify_makePath (h : AICHHash) (path : List Bool) (t : AICHHashTree) :
    (makePath path t).modify (fun n => { n with hash := h, hashValid := true }) path =
      install h path t := by
  induction path generalizing t with
  | nil => cases t <;> rfl
  | cons branch path ih =>
    cases t with
    | null => cases branch <;> rfl
    | node n l r =>
      cases branch with
      | true => exact congrArg (node n · r) (ih _)
      | false => exact congrArg (node n l ·) (ih _)

end AICHHashTree

open AICHHashTree

theorem placePart_install {size start len : Nat} {path : List Bool}
    (hpath : RangeAt size true start len path) {t : AICHHashTree} (ht : Shaped size true t)
    (hnull : t.isNull=false) (hlen : path.length < maxLevels) (h : AICHHash) :
    placePart start len h t=some (install h path t) := by
  rw [placePart,findHash_eq hpath ht hnull hlen]
  exact congrArg some (modify_makePath h path t)

theorem placeParts_install {fileSize : Nat} (pairs : List (List Bool × AICHHash)) {part : Nat}
    {t : AICHHashTree} (ht : Shaped fileSize true t) (hnull : t.isNull=false)
    (hpairs : ∀ (i : Nat) (p : List Bool × AICHHash), pairs[i]? = some p →
      RangeAt fileSize true ((part+i)*PARTSIZE)
        (AICHRecoveryHashSet.partSizeAt fileSize ((part+i)*PARTSIZE)) p.1 ∧
      p.1.length < maxLevels) :
    placeParts fileSize part (pairs.map (·.2)) t=some (installAll pairs t) := by
  induction pairs generalizing part t with
  | nil => rfl
  | cons p pairs ih =>
    obtain ⟨hrange,hlen⟩ := hpairs 0 p rfl
    have hplace := placePart_install hrange ht hnull hlen p.2
    rw [Nat.add_zero] at hplace
    have hrest := @ih (part+1) _ (install_shaped p.2 p.1 ht)
      ((install_isNull p.2 p.1 t).trans hnull) fun i q hq => by
        rw [show part+1+i=part+(i+1) by omega]
        exact hpairs (i+1) q hq
    rw [List.map_cons,placeParts,hplace]
    exact hrest

theorem partsOf_eq {fileSize : Nat} (hmax : fileSize≤MAX_EMULE_FILE_SIZE) :
    partsOf fileSize=blocksOf PARTSIZE fileSize := by
  have hpos := PARTSIZE_pos
  have h64 : fileSize+PARTSIZE-1<2^64 :=
    Nat.lt_of_le_of_lt (Nat.sub_le_sub_right (Nat.add_le_add_right hmax PARTSIZE) 1) (by decide)
  have hlow := Nat.div_mul_le_self (fileSize+PARTSIZE-1) PARTSIZE
  have hhigh := Nat.lt_div_mul_add hpos (a := fileSize+PARTSIZE-1)
  rw [partsOf,Nat.mod_eq_of_lt h64]
  exact (blocksOf_unique hpos (by omega) (by omega)).symm

namespace FileIdentifier

variable {hashPair : AICHHash → AICHHash → AICHHash}

/-- The part hashes are those of a tree over the parts under the AICH root. -/
def HasPartTree (hashPair : AICHHash → AICHHash → AICHHash) (id : FileIdentifier) : Prop :=
  ∃ t, CompleteTo hashPair PARTSIZE id.fileSize true t ∧ t.hash=id.aichHash ∧
    id.aichPartHashSet=(leafPairs t).map (·.2)

theorem aichPartHashSet_length {id : FileIdentifier} (h : id.HasPartTree hashPair)
    (hsize : PARTSIZE < id.fileSize) :
    id.aichPartHashSet.length=blocksOf PARTSIZE id.fileSize := by
  obtain ⟨t,ht,-,hset⟩ := h
  have hpos := PARTSIZE_pos
  rw [hset,List.length_map,leafPairs_length hpos ht (by omega) fun s h1 _ => baseOf_large h1]

theorem partCount_small {fileSize : Nat} (hmax : fileSize≤MAX_EMULE_FILE_SIZE) :
    blocksOf PARTSIZE fileSize≤2^15 :=
  AICHRecoveryHashSet.blocksOf_le PARTSIZE_pos (hmax.trans (by decide))

theorem verifyAICHHashSet_of_partTree {id : FileIdentifier} (h : id.HasPartTree hashPair)
    (hvalid : id.hasValidAICHHash=true) (hsize : PARTSIZE < id.fileSize)
    (hmax : id.fileSize≤MAX_EMULE_FILE_SIZE) : id.verifyAICHHashSet hashPair=(true, id) := by
  have hpos := PARTSIZE_pos
  have hlength := aichPartHashSet_length h hsize
  have hsmall := partCount_small hmax
  obtain ⟨t,ht,hroot,hset⟩ := h
  obtain ⟨n,hn,hv,⟨hle,-⟩ | ⟨-,l,r,rfl,-⟩⟩ := completeTo_cases ht
  · omega
  have hexpected : id.hasExpectedAICHHashCount=true := by
    rw [hasExpectedAICHHashCount,getTheoreticalAICHPartHashCount,if_neg (by omega),
      partsOf_eq hmax,hlength]
    exact decide_eq_true rfl
  have hknown := AICHRecoveryHashSet.ofMasterHash_hashTree (by omega) hn hv .HashSetComplete
  have hshaped : Shaped id.fileSize true (node n null null) := ⟨hn,trivial,trivial⟩
  have hplaced : placeParts id.fileSize 0 id.aichPartHashSet (node n null null) =
      some (withRoot n (blankLeaves (node n l r))) := by
    rw [hset,placeParts_install _ hshaped rfl,(installAll_leafPairs ht).2 hsize n hn]
    intro i p hp
    obtain ⟨hin,hrange⟩ := leafPairs_range hpos ht (by omega) (fun s h1 _ => baseOf_large h1) hp
    have hdeep := (leafPairs_reaches hpos ht (fun s h1 _ => baseOf_large h1) hsmall p
      (List.mem_of_getElem? hp)).2
    rw [Nat.zero_add,AICHRecoveryHashSet.partSizeAt_eq hmax hin]
    exact ⟨hrange,by unfold maxLevels; omega⟩
  have hparts : partsOf id.fileSize%2^32=id.aichPartHashSet.length := by
    rw [partsOf_eq hmax,hlength,Nat.mod_eq_of_lt (by omega)]
  have hmany : ¬id.aichPartHashSet.length≤1 := by
    have hbounds := (blocksOf_bounds hpos id.fileSize).1
    intro hone
    have hmul := Nat.mul_le_mul_right PARTSIZE (hlength ▸ hone)
    rw [Nat.one_mul] at hmul
    omega
  have htree : ((AICHRecoveryHashSet.create id.fileSize).setMasterHash id.aichHash
      .HashSetComplete).hashTree=node n null null := by
    rw [← hroot]
    exact hknown
  rw [verifyAICHHashSet,if_neg (by simp [hvalid]; omega),hexpected,if_neg (by simp)]
  rw [hparts,if_neg hmany,List.take_length,htree,hplaced]
  dsimp only
  rw [verify_blankLeaves ht hsize false]
  rfl

end FileIdentifier

open Math Utils

theorem hashesBytes_length {n : Nat} (hashes : List (Digest n)) :
    (hashesBytes hashes).length=hashes.length*n := by
  induction hashes with
  | nil => simp [hashesBytes]
  | cons h hashes ih =>
    simp only [hashesBytes,List.flatMap_cons,List.length_append,h.size,List.length_cons,
      Nat.succ_mul] at ih ⊢
    omega

theorem pushHashes_hashesBytes {n : Nat} (push : Digest n → FileIdentifier → FileIdentifier)
    (hashes : List (Digest n)) (id : FileIdentifier) (rest : List UInt8) :
    pushHashes push hashes.length id (hashesBytes hashes++rest) =
      (.ok ((), rest), hashes.foldl (fun id h => push h id) id) := by
  induction hashes generalizing id with
  | nil => rfl
  | cons h hashes ih =>
    have hread := Digest.read_append h (hashesBytes hashes++rest)
    have hbytes : hashesBytes (h::hashes)++rest=h.bytes++(hashesBytes hashes++rest) := by
      simp [hashesBytes]
    rw [hbytes,List.length_cons,pushHashes,IdReader.lift_bind_ok hread]
    exact ih (push h id)

theorem skipHashes_hashesBytes {n : Nat} (hashes : List (Digest n)) (rest : List UInt8) :
    skipHashes n hashes.length (hashesBytes hashes++rest) = .ok ((), rest) := by
  induction hashes with
  | nil => rfl
  | cons h hashes ih =>
    have hread := Digest.read_append h (hashesBytes hashes++rest)
    have hbytes : hashesBytes (h::hashes)++rest=h.bytes++(hashesBytes hashes++rest) := by
      simp [hashesBytes]
    rw [hbytes,List.length_cons,skipHashes,Reader.bind_ok hread]
    exact ih

namespace FileIdentifier

theorem pushMD4_foldl (hashes : List MD4Hash) (id : FileIdentifier) :
    hashes.foldl (fun id h => { id with md4HashSet := id.md4HashSet++[h] }) id =
      { id with md4HashSet := id.md4HashSet++hashes } := by
  induction hashes generalizing id with
  | nil => simp
  | cons h hashes ih => simp [ih]

theorem pushAICH_foldl (hashes : List AICHHash) (id : FileIdentifier) :
    hashes.foldl (fun id h => { id with aichPartHashSet := id.aichPartHashSet++[h] }) id =
      { id with aichPartHashSet := id.aichPartHashSet++hashes } := by
  induction hashes generalizing id with
  | nil => simp
  | cons h hashes ih => simp [ih]

section Hashing

variable (md4Of : List UInt8 → MD4Hash) (hashPair : AICHHash → AICHHash → AICHHash)

/-- The sets that get written are right for the size and the hashes. -/
structure CorrectHashSets (id : FileIdentifier) : Prop where
  md4 : id.writesMD4 true=true → id.md4HashSet.length=id.getTheoreticalMD4PartHashCount ∧
    md4Of (hashesBytes id.md4HashSet)=id.md4Hash
  aich : id.writesAICH true=true → id.HasPartTree hashPair

/-- The receiver has the sender's size, MD4 hash and AICH root. -/
structure SameFile (sender receiver : FileIdentifier) : Prop where
  fileSize : receiver.fileSize=sender.fileSize
  md4Hash : receiver.md4Hash=sender.md4Hash
  aichHash : receiver.aichHash=sender.aichHash
  hasValidAICHHash : receiver.hasValidAICHHash=sender.hasValidAICHHash

/-- The receiver with the sender's sets as far as they are taken over. -/
def takeSets (sender receiver : FileIdentifier) (md4 aich : Bool) : FileIdentifier :=
  { receiver with
    md4HashSet := if md4 then sender.md4HashSet else receiver.md4HashSet
    aichPartHashSet := if aich then sender.aichPartHashSet else receiver.aichPartHashSet }

/-- The length read for an unwanted AICH set, from the first two bytes of its master hash, spans
that set. -/
def SkipAligned (sender : FileIdentifier) (aichSent aich : Bool) : Prop :=
  sender.writesAICH aichSent=false ∨ aich=true ∨
    leValue (sender.aichHash.bytes.take 2)=sender.aichPartHashSet.length+1

instance (sender : FileIdentifier) (aichSent aich : Bool) :
    Decidable (SkipAligned sender aichSent aich) := by
  unfold SkipAligned
  infer_instance

variable {md4Of hashPair} {sender receiver : FileIdentifier}

theorem writesMD4_count {md4Sent : Bool} (h : sender.writesMD4 md4Sent=true) :
    sender.writesMD4 true=true ∧ 2 ≤ sender.getTheoreticalMD4PartHashCount ∧
      sender.getTheoreticalMD4PartHashCount<2^16 := by
  simp only [writesMD4,Bool.and_eq_true,decide_eq_true_eq,Bool.true_and] at h ⊢
  obtain ⟨⟨-,hne⟩,hexpected⟩ := h
  refine ⟨⟨hne,hexpected⟩,?_⟩
  unfold getTheoreticalMD4PartHashCount at hne ⊢
  split_ifs at hne ⊢ with hzero
  · exact absurd rfl hne
  · have hlt : sender.fileSize/PARTSIZE%2^16<2^16 := Nat.mod_lt _ (by decide)
    generalize sender.fileSize/PARTSIZE%2^16=result at hne hlt ⊢
    by_cases hpos : result>0
    · simp only [hpos,decide_true,Bool.toNat_true] at hne ⊢
      omega
    · simp only [hpos,decide_false,Bool.toNat_false] at hne ⊢
      omega

theorem writesAICH_count {aichSent : Bool} (h : sender.writesAICH aichSent=true) :
    sender.writesAICH true=true ∧ sender.hasValidAICHHash=true ∧
      PARTSIZE<sender.fileSize := by
  simp only [writesAICH,Bool.and_eq_true,decide_eq_true_eq,Bool.true_and] at h ⊢
  obtain ⟨⟨-,hne⟩,hexpected,hvalid⟩ := h
  refine ⟨⟨hne,hexpected,hvalid⟩,hvalid,?_⟩
  unfold getTheoreticalAICHPartHashCount at hne
  split_ifs at hne with hsmall
  · exact absurd rfl hne
  · exact Nat.not_le.mp hsmall

theorem loadMD4_write (hcorrect : CorrectHashSets md4Of hashPair sender)
    (hsame : SameFile sender receiver) {md4Sent : Bool} (hsent : sender.writesMD4 md4Sent=true)
    (rest : List UInt8) :
    loadMD4HashsetFromFile md4Of true receiver (sender.writeMD4HashsetToFile++rest) =
      (.ok (true, rest), { receiver with md4HashSet := sender.md4HashSet }) := by
  obtain ⟨htrue,htwo,hsmall⟩ := writesMD4_count hsent
  obtain ⟨hlength,hhash⟩ := hcorrect.md4 htrue
  have htheory : (receiver.deleteMD4Hashset).getTheoreticalMD4PartHashCount =
      sender.getTheoreticalMD4PartHashCount := by
    simp only [getTheoreticalMD4PartHashCount,deleteMD4Hashset,hsame.fileSize]
  have hread := Digest.read_append sender.md4Hash
    (writeUInt16 sender.md4HashSet.length++(hashesBytes sender.md4HashSet++rest))
  have hparts := readUInt16_write (show sender.md4HashSet.length<2^16 by omega)
    (hashesBytes sender.md4HashSet++rest)
  have hpush := pushHashes_hashesBytes
    (fun h id => { id with md4HashSet := id.md4HashSet++[h] }) sender.md4HashSet
    receiver.deleteMD4Hashset rest
  rw [pushMD4_foldl] at hpush
  have hcheck : (true && (decide (receiver.deleteMD4Hashset.md4Hash≠sender.md4Hash) ||
      decide (sender.md4HashSet.length ≠
        receiver.deleteMD4Hashset.getTheoreticalMD4PartHashCount)))=false := by
    rw [htheory,hlength]
    simp [deleteMD4Hashset,hsame.md4Hash]
  have hne : sender.md4HashSet≠[] := by
    intro hnil
    rw [hnil] at hlength
    simp at hlength
    omega
  rw [writeMD4HashsetToFile,Nat.mod_eq_of_lt (by omega),List.take_length,List.append_assoc,
    List.append_assoc,loadMD4HashsetFromFile,IdReader.lift_bind_ok hread,IdReader.modify_bind,
    IdReader.lift_bind_ok hparts,IdReader.get_bind,hcheck,if_neg (by simp),
    IdReader.bind_ok hpush,IdReader.modify_bind,IdReader.get_bind]
  simp only [if_true,deleteMD4Hashset,List.nil_append]
  rw [if_neg (by omega),if_neg hne,IdReader.call,calculateMD4HashByHashSet]
  rw [if_neg (by simp only; omega)]
  simp [hhash,hsame.md4Hash]

theorem readMD4FromPacket_write (hcorrect : CorrectHashSets md4Of hashPair sender)
    (hsame : SameFile sender receiver) (md4Sent md4 : Bool) (rest : List UInt8) :
    readMD4FromPacket md4Of (sender.writesMD4 md4Sent) md4 receiver
        ((if sender.writesMD4 md4Sent then sender.writeMD4HashsetToFile else [])++rest) =
      (.ok (some (sender.writesMD4 md4Sent && md4), rest),
        takeSets sender receiver (sender.writesMD4 md4Sent && md4) false) := by
  cases hsent : sender.writesMD4 md4Sent with
  | false => simp [readMD4FromPacket,takeSets]
  | true =>
    cases md4 with
    | true =>
      have hload := loadMD4_write hcorrect hsame hsent rest
      simp only [readMD4FromPacket,Bool.not_true,Bool.and_false,Bool.false_eq_true,if_false,
        if_true,IdReader.bind_ok hload]
      rfl
    | false =>
      obtain ⟨htrue,-,hsmall⟩ := writesMD4_count hsent
      obtain ⟨hlength,-⟩ := hcorrect.md4 htrue
      have hread := Digest.read_append sender.md4Hash
        (writeUInt16 sender.md4HashSet.length++(hashesBytes sender.md4HashSet++rest))
      have hparts := readUInt16_write (show sender.md4HashSet.length<2^16 by omega)
        (hashesBytes sender.md4HashSet++rest)
      have hskip := skipHashes_hashesBytes sender.md4HashSet rest
      rw [if_pos rfl,writeMD4HashsetToFile,Nat.mod_eq_of_lt (by omega),List.take_length,
        List.append_assoc,List.append_assoc,readMD4FromPacket,if_pos (by simp),
        IdReader.lift_bind_ok hread,IdReader.lift_bind_ok hparts,IdReader.lift_bind_ok hskip]
      rfl

theorem loadAICH_write (hmax : sender.fileSize≤MAX_EMULE_FILE_SIZE)
    (hcorrect : CorrectHashSets md4Of hashPair sender) (hsame : SameFile sender receiver)
    {aichSent : Bool} (hsent : sender.writesAICH aichSent=true) (rest : List UInt8) :
    loadAICHHashsetFromFile hashPair true receiver (sender.writeAICHHashsetToFile++rest) =
      (.ok (true, rest), { receiver with aichPartHashSet := sender.aichPartHashSet }) := by
  obtain ⟨htrue,hvalid,hsize⟩ := writesAICH_count hsent
  have htree := hcorrect.aich htrue
  have hlength := aichPartHashSet_length htree hsize
  have hsmall := partCount_small hmax
  have hread := Digest.read_append sender.aichHash
    (writeUInt16 sender.aichPartHashSet.length++(hashesBytes sender.aichPartHashSet++rest))
  have hparts := readUInt16_write (show sender.aichPartHashSet.length<2^16 by omega)
    (hashesBytes sender.aichPartHashSet++rest)
  have hpush := pushHashes_hashesBytes
    (fun h id => { id with aichPartHashSet := id.aichPartHashSet++[h] })
    sender.aichPartHashSet { receiver with aichPartHashSet := [] } rest
  rw [pushAICH_foldl] at hpush
  have hcheck : (receiver.hasValidAICHHash && decide (sender.aichHash≠receiver.aichHash)) =
      false := by
    simp [hsame.aichHash]
  have hloaded : ({ receiver with aichPartHashSet := sender.aichPartHashSet } :
      FileIdentifier).HasPartTree hashPair := by
    obtain ⟨t,ht,hroot,hset⟩ := htree
    exact ⟨t,hsame.fileSize ▸ ht,hroot.trans hsame.aichHash.symm,hset⟩
  have hverify := verifyAICHHashSet_of_partTree hloaded (hsame.hasValidAICHHash.trans hvalid)
    (hsame.fileSize ▸ hsize) (hsame.fileSize ▸ hmax)
  have htheory : ({ receiver with aichPartHashSet := sender.aichPartHashSet } :
      FileIdentifier).getTheoreticalAICHPartHashCount≠0 := by
    have hfirst : 0<blocksOf PARTSIZE sender.fileSize := by
      have hbounds := (blocksOf_bounds PARTSIZE_pos sender.fileSize).1
      exact Nat.pos_of_mul_pos_right (Nat.lt_of_lt_of_le (Nat.zero_lt_of_lt hsize) hbounds)
    rw [getTheoreticalAICHPartHashCount,hsame.fileSize,if_neg (Nat.not_le.mpr hsize),
      partsOf_eq hmax,Nat.mod_eq_of_lt (by omega)]
    omega
  rw [writeAICHHashsetToFile,Nat.mod_eq_of_lt (by omega),List.take_length,List.append_assoc,
    List.append_assoc,loadAICHHashsetFromFile,IdReader.modify_bind,IdReader.lift_bind_ok hread,
    IdReader.get_bind,hcheck,if_neg (by simp),IdReader.lift_bind_ok hparts,
    IdReader.bind_ok hpush,IdReader.modify_bind]
  simp only [List.nil_append,if_neg htheory,if_true,IdReader.call,hverify]

/-- An unwanted AICH set is passed over exactly when the length read for it spans it. -/
theorem skipAICH_iff (hmax : sender.fileSize≤MAX_EMULE_FILE_SIZE)
    (hcorrect : CorrectHashSets md4Of hashPair sender) {aichSent : Bool}
    (hsent : sender.writesAICH aichSent=true) (md4 : Bool) (id : FileIdentifier)
    (rest : List UInt8) :
    readAICHFromPacket hashPair md4 true false id (sender.writeAICHHashsetToFile++rest) =
        (.ok ((true, md4, false), rest), id) ↔
      leValue (sender.aichHash.bytes.take 2)=sender.aichPartHashSet.length+1 := by
  obtain ⟨htrue,-,hsize⟩ := writesAICH_count hsent
  have hlength := aichPartHashSet_length (hcorrect.aich htrue) hsize
  have hsmall := partCount_small hmax
  have hbytes : sender.writeAICHHashsetToFile.length =
      22+sender.aichPartHashSet.length*kAICHHashSize := by
    rw [writeAICHHashsetToFile,Nat.mod_eq_of_lt (by omega),List.take_length,List.length_append,
      List.length_append,hashesBytes_length,sender.aichHash.size,writeUInt16_length]
    rfl
  have htake : (sender.writeAICHHashsetToFile++rest).take 2=sender.aichHash.bytes.take 2 := by
    have htwo : 2 ≤ sender.aichHash.bytes.length := by
      rw [sender.aichHash.size]
      decide
    rw [writeAICHHashsetToFile,List.append_assoc,List.append_assoc,
      List.take_append_of_le_length htwo]
  have hread : Reader.readUInt16 (sender.writeAICHHashsetToFile++rest) =
      .ok (leValue (sender.aichHash.bytes.take 2),
        (sender.writeAICHHashsetToFile++rest).drop 2) := by
    rw [Reader.readUInt16,Reader.readUInt,Reader.read,if_pos (by rw [List.length_append]; omega),
      htake]
  generalize leValue (sender.aichHash.bytes.take 2)=count at hread ⊢
  generalize sender.writeAICHHashsetToFile=bytes at hread hbytes
  rw [readAICHFromPacket,IdReader.get_bind,if_pos (by simp),IdReader.lift_bind_ok hread]
  by_cases hfits : count*kAICHHashSize≤((bytes++rest).drop 2).length
  · have hskip : Reader.skip (count*kAICHHashSize) ((bytes++rest).drop 2) =
        .ok ((), ((bytes++rest).drop 2).drop (count*kAICHHashSize)) := if_pos hfits
    rw [IdReader.lift_bind_ok hskip,IdReader.pure_apply,List.drop_drop]
    rw [List.length_drop,List.length_append] at hfits
    constructor
    · intro h
      have hrest : (bytes++rest).drop (2+count*kAICHHashSize)=rest := by
        simpa using h
      have hlen := congrArg List.length hrest
      rw [List.length_drop,List.length_append] at hlen
      have hmul : count*kAICHHashSize=(sender.aichPartHashSet.length+1)*kAICHHashSize := by
        rw [Nat.succ_mul,show kAICHHashSize=20 from rfl] at *
        omega
      exact Nat.eq_of_mul_eq_mul_right (by decide) hmul
    · rintro rfl
      have hdrop : 2+(sender.aichPartHashSet.length+1)*kAICHHashSize=bytes.length := by
        rw [hbytes,Nat.succ_mul,show kAICHHashSize=20 from rfl]
        omega
      rw [hdrop,List.drop_left]
  · have hskip : Reader.skip (count*kAICHHashSize) ((bytes++rest).drop 2) =
        .error ⟨"Seek failed in memory file"⟩ := if_neg hfits
    rw [IdReader.lift_bind_error hskip]
    refine iff_of_false (by simp) fun heq => hfits ?_
    rw [heq,List.length_drop,List.length_append,hbytes,Nat.succ_mul,
      show kAICHHashSize=20 from rfl]
    omega

theorem readAICHFromPacket_iff (hmax : sender.fileSize≤MAX_EMULE_FILE_SIZE)
    (hcorrect : CorrectHashSets md4Of hashPair sender) (hsame : SameFile sender receiver)
    (aichSent md4 aich : Bool) (rest : List UInt8) :
    readAICHFromPacket hashPair md4 (sender.writesAICH aichSent) aich receiver
        ((if sender.writesAICH aichSent then sender.writeAICHHashsetToFile else [])++rest) =
      (.ok ((true, md4, sender.writesAICH aichSent && aich), rest),
        takeSets sender receiver false (sender.writesAICH aichSent && aich)) ↔
      SkipAligned sender aichSent aich := by
  unfold SkipAligned
  cases hsent : sender.writesAICH aichSent with
  | false =>
    refine iff_of_true ?_ (Or.inl rfl)
    rw [readAICHFromPacket,IdReader.get_bind]
    simp [takeSets]
  | true =>
    obtain ⟨-,hvalid,-⟩ := writesAICH_count hsent
    cases aich with
    | true =>
      refine iff_of_true ?_ (Or.inr (Or.inl rfl))
      have hload := loadAICH_write hmax hcorrect hsame hsent rest
      rw [readAICHFromPacket,IdReader.get_bind,hsame.hasValidAICHHash,hvalid,
        if_neg (by simp),if_neg (by simp),if_pos rfl,IdReader.bind_ok hload]
      rfl
    | false =>
      have hskip := skipAICH_iff hmax hcorrect hsent md4 receiver rest
      simpa [takeSets] using hskip

theorem options_bits (md4 aich : Bool) :
    decide (((if md4 then 1 else 0)+if aich then 2 else 0) &&& 0x01>0)=md4 ∧
      decide (((if md4 then 1 else 0)+if aich then 2 else 0) &&& 0x02>0)=aich := by
  cases md4 <;> cases aich <;> decide

/-- The exchange works, byte for byte and set for set, exactly when no AICH set has to be passed
over that the misread length does not span. -/
theorem readHashSetsFromPacket_iff (hmax : sender.fileSize ≤ MAX_EMULE_FILE_SIZE)
    (hcorrect : CorrectHashSets md4Of hashPair sender) (hsame : SameFile sender receiver)
    (md4Sent aichSent md4 aich : Bool) (rest : List UInt8) :
    readHashSetsFromPacket md4Of hashPair md4 aich receiver
        (sender.writeHashSetsToPacket md4Sent aichSent ++ rest) =
      (.ok ((true, sender.writesMD4 md4Sent && md4, sender.writesAICH aichSent && aich), rest),
        takeSets sender receiver (sender.writesMD4 md4Sent && md4)
          (sender.writesAICH aichSent && aich)) ↔
      SkipAligned sender aichSent aich := by
  have hmd4 := readMD4FromPacket_write hcorrect hsame md4Sent md4
    ((if sender.writesAICH aichSent then sender.writeAICHHashsetToFile else [])++rest)
  have hsame' : SameFile sender (takeSets sender receiver (sender.writesMD4 md4Sent && md4) false) :=
    ⟨hsame.fileSize,hsame.md4Hash,hsame.aichHash,hsame.hasValidAICHHash⟩
  have haich := readAICHFromPacket_iff hmax hcorrect hsame' aichSent
    (sender.writesMD4 md4Sent && md4) aich rest
  obtain ⟨hbit1,hbit2⟩ := options_bits (sender.writesMD4 md4Sent) (sender.writesAICH aichSent)
  have hoptions : (if sender.writesMD4 md4Sent then 1 else 0) +
      (if sender.writesAICH aichSent then 2 else 0)<2^8 := by
    split_ifs <;> decide
  have hread := readUInt8_write hoptions
    ((if sender.writesMD4 md4Sent then sender.writeMD4HashsetToFile else []) ++
      ((if sender.writesAICH aichSent then sender.writeAICHHashsetToFile else [])++rest))
  rw [writeHashSetsToPacket,List.append_assoc,List.append_assoc,readHashSetsFromPacket,
    IdReader.lift_bind_ok hread,hbit1,hbit2,IdReader.bind_ok hmd4]
  exact haich

end Hashing

/-- MD4 of 32 zero bytes: the file hash over two zero part hashes. -/
def md4OfZeros : MD4Hash :=
  ⟨[186,235,100,38,130,55,18,114,43,51,158,210,43,56,63,169],rfl⟩

/-- A file one byte longer than a part, with the sets that go with two zero hashes. -/
def twoParts : FileIdentifier where
  fileSize := PARTSIZE+1
  md4Hash := md4OfZeros
  aichHash := AICHRecoveryHashSet.sha1OfZeros
  hasValidAICHHash := true
  md4HashSet := [default,default]
  aichPartHashSet := [default,default]

theorem twoParts_correct :
    CorrectHashSets (fun _ => md4OfZeros) (fun _ _ => AICHRecoveryHashSet.sha1OfZeros)
      twoParts where
  md4 _ := ⟨by decide +kernel,rfl⟩
  aich _ := ⟨.node ⟨PARTSIZE+1,AICHRecoveryHashSet.sha1OfZeros,true,true,true⟩
    (.node ⟨PARTSIZE,default,true,true,false⟩ .null .null)
    (.node ⟨1,default,false,true,false⟩ .null .null),by decide +kernel,rfl,rfl⟩

theorem readHashSetsFromPacket_iff_twoParts :
    readHashSetsFromPacket (fun _ => md4OfZeros) (fun _ _ => AICHRecoveryHashSet.sha1OfZeros)
        true true twoParts (twoParts.writeHashSetsToPacket true true ++ []) =
      (.ok ((true, true, true), []), twoParts) :=
  (readHashSetsFromPacket_iff (by decide) twoParts_correct ⟨rfl,rfl,rfl,rfl⟩ true true true true
    []).mpr (Or.inr (Or.inl rfl))

/-- The set's root begins with the bytes 184 and 13, so 3512 hashes are to be passed over. -/
theorem unwantedAICH_misread :
    CorrectHashSets (fun _ => md4OfZeros) (fun _ _ => AICHRecoveryHashSet.sha1OfZeros) twoParts ∧
      readHashSetsFromPacket (fun _ => md4OfZeros) (fun _ _ => AICHRecoveryHashSet.sha1OfZeros)
          false false twoParts (twoParts.writeHashSetsToPacket false true) =
        (.error ⟨"Seek failed in memory file"⟩, twoParts) :=
  ⟨twoParts_correct,by rfl⟩

end FileIdentifier

end EmuleQt.Crypto
