import EmuleQt.Crypto.AICHPartReader
import EmuleQt.Crypto.AICHRecoveryPacket

namespace EmuleQt.Crypto

open Utils

namespace AICHRecoveryHashSet

open AICHHashTree

theorem partSizeAt_eq {fileSize part : Nat} (hmax : fileSize≤MAX_EMULE_FILE_SIZE)
    (hpart : part*PARTSIZE<fileSize) :
    partSizeAt fileSize (part*PARTSIZE)=min PARTSIZE (fileSize-part*PARTSIZE) := by
  have h64 : fileSize<2^64 := hmax.trans_lt (by decide)
  have hsub : fileSize+2^64-part*PARTSIZE=fileSize-part*PARTSIZE+2^64 := by omega
  rw [partSizeAt,hsub,Nat.add_mod_right,Nat.mod_eq_of_lt (by omega)]

theorem blocksOf_le {base size c : Nat} (hbase : 0<base) (h : size≤c*base) :
    blocksOf base size≤c := by
  obtain ⟨-,h2⟩ := blocksOf_bounds hbase size
  have hlt : blocksOf base size*base<(c+1)*base := by
    rw [Nat.succ_mul]
    omega
  exact Nat.le_of_lt_succ (Nat.lt_of_mul_lt_mul_right hlt)

theorem exists_partPath {fileSize part : Nat} (hmax : fileSize≤MAX_EMULE_FILE_SIZE)
    (hpart : part*PARTSIZE<fileSize) :
    ∃ path, RangeAt fileSize true (part*PARTSIZE)
        (partSizeAt fileSize (part*PARTSIZE)) path ∧
      path.length≤15 ∧ (fileSize≤OLD_MAX_EMULE_FILE_SIZE → path.length≤9) := by
  rw [partSizeAt_eq hmax hpart]
  have unit : ∀ k,fileSize≤2^k*PARTSIZE → ∃ path,
      RangeAt fileSize true (part*PARTSIZE) (min PARTSIZE (fileSize-part*PARTSIZE)) path ∧
        path.length≤k := fun k hk =>
    rangeAt_unit PARTSIZE_pos k fileSize true (fun s h1 _ => baseOf_large h1)
      (blocksOf_le PARTSIZE_pos hk) part hpart
  by_cases hold : fileSize≤OLD_MAX_EMULE_FILE_SIZE
  · obtain ⟨path,hpath,hlen⟩ := unit 9 (hold.trans (by decide))
    exact ⟨path,hpath,by omega,fun _ => hlen⟩
  · obtain ⟨path,hpath,hlen⟩ := unit 15 (hmax.trans (by decide))
    exact ⟨path,hpath,hlen,fun h => absurd h hold⟩

theorem blockCount_part {partSize : Nat} (h : partSize≤PARTSIZE) : blockCount partSize≤2^6 := by
  exact blocksOf_le EMBLOCKSIZE_pos (h.trans (by decide))

/-- The announced count and that many identifiers, each with its hash. -/
def packetBytes (use32Bit : Bool) (pairs : List (Nat × AICHHash)) : List UInt8 :=
  (if use32Bit then writeUInt16 0 else [])++writeUInt16 pairs.length ++
    pairs.flatMap (fun p => writeIdent use32Bit p.1++p.2.bytes) ++
    (if use32Bit then [] else writeUInt16 0)

def withIdents (pairs : List (List Bool × AICHHash)) : List (Nat × AICHHash) :=
  pairs.map fun p => (identAt 1 p.1, p.2)

theorem encodePairs_withIdents (use32Bit : Bool) (pairs : List (List Bool × AICHHash)) :
    (withIdents pairs).flatMap (fun p => writeIdent use32Bit p.1++p.2.bytes) =
      encodePairs use32Bit 1 pairs := by
  simp only [withIdents,encodePairs,List.flatMap_map]
  rfl

section Hashing

variable (hashPair : AICHHash → AICHHash → AICHHash)

/-- A set from which recovery data is made, and the set once its hashes are loaded from
known2_64.met: every hash of the tree is there. -/
structure Loaded (known2 : Option (List UInt8)) (stored : AICHHash → Option Nat)
    (dbgDontLoad : Bool) (fileSize : Nat) (s loaded : AICHRecoveryHashSet) : Prop where
  status : s.status = .HashSetComplete
  dataSize : s.root.dataSize = fileSize
  load : (if dbgDontLoad then (true, s) else loadHashSet hashPair known2 stored s) = (true, loaded)
  complete : Complete hashPair fileSize true loaded.hashTree

/-- A set that knows only the size and the master hash. -/
def ofMasterHash (fileSize : Nat) (hash : AICHHash) (status : EAICHStatus) : AICHRecoveryHashSet :=
  (create fileSize).setMasterHash hash status

variable {hashPair}

variable {fileSize start len : Nat} {n : AICHNode} {s : AICHRecoveryHashSet} {path : List Bool}

theorem ofMasterHash_hashTree (hpos : fileSize≠0) (hn : n.Sized fileSize true)
    (hv : n.hashValid=true) (status : EAICHStatus) :
    (ofMasterHash fileSize n.hash status).hashTree=node n null null := by
  have hmade := AICHNode.create_sized fileSize true
  have hroot : (ofMasterHash fileSize n.hash status).root=n := by
    obtain ⟨d,hash,b,v,f⟩ := n
    obtain ⟨rfl,rfl,hf⟩ := hn
    simp only at hf hv
    subst hv
    rw [hf,← hmade.baseSize]
    simp [ofMasterHash,create,hpos,setMasterHash,setFileSize,AICHNode.create]
  rw [hashTree,hroot]
  simp [ofMasterHash,create,hpos,setMasterHash,setFileSize]

theorem setHashTree_node {t : AICHHashTree} (h : t.isNull=false) :
    (s.setHashTree t).hashTree=t ∧ (s.setHashTree t).status=s.status ∧
      (s.setHashTree t).setHashTree t=s.setHashTree t ∧
      ∀ t',t'.isNull=false → (s.setHashTree t).setHashTree t'=s.setHashTree t' := by
  cases t with
  | null => cases h
  | node n l r =>
    refine ⟨rfl,rfl,rfl,fun t' ht' => ?_⟩
    cases t' with
    | null => cases ht'
    | node => rfl

theorem partPairs_fit {t : AICHHashTree} (hpath : RangeAt fileSize true start len path)
    (ht : Complete hashPair fileSize true t) (hsplit : baseOf fileSize<fileSize)
    (hsmall : len≤PARTSIZE) (hlong : path.length≤15)
    (hshort : fileSize≤OLD_MAX_EMULE_FILE_SIZE → path.length≤9) :
    ∀ p∈recoveryPairs path t,p.1≠[] ∧ Reaches fileSize true p.1 ∧ p.1.length≤21 ∧
      identAt 1 p.1≠1 ∧ identAt 1 p.1<2^22 ∧
      (fileSize≤OLD_MAX_EMULE_FILE_SIZE → identAt 1 p.1<2^16) := by
  intro p hp
  obtain ⟨hreach,hlen⟩ := recoveryPairs_reaches hpath ht hsmall (blockCount_part hsmall)
    (by omega) p hp
  have hne := recoveryPairs_ne_root ht hsplit p hp
  have hplen : 0<p.1.length := List.length_pos_iff.mpr hne
  have hdeep : 2^(p.1.length+1)≤2^22 := Nat.pow_le_pow_right (by omega) (by omega)
  have hbound : (1+1)*2^p.1.length≤2^32 := by
    rw [Nat.mul_comm,← Nat.pow_succ]
    exact hdeep.trans (by decide)
  obtain ⟨hlow,hhigh⟩ := identAt_bounds hbound
  rw [Nat.one_mul] at hlow
  rw [Nat.mul_comm,← Nat.pow_succ] at hhigh
  have hone : 2^1≤2^p.1.length := Nat.pow_le_pow_right (by omega) hplen
  refine ⟨hne,hreach,by omega,by omega,hhigh.trans_le hdeep,fun hold => ?_⟩
  have hflat : path.length≤9 := hshort hold
  exact hhigh.trans_le (Nat.pow_le_pow_right (by omega) (by omega))

/-- The reader takes a packet's pairs into the tree, then computes and checks. -/
theorem readPacket_packetBytes (use32Bit : Bool) {size : Nat} {isLeft : Bool}
    (pairs : List (List Bool × AICHHash))
    (ht : Shaped size isLeft s.hashTree) (hcount : 0<pairs.length)
    (hcount16 : pairs.length<2^16)
    (hpairs : ∀ p∈pairs,p.1≠[] ∧ Reaches size isLeft p.1 ∧ p.1.length≤21 ∧
      identAt 1 p.1≠1 ∧ identAt 1 p.1<2^22 ∧ (use32Bit=false → identAt 1 p.1<2^16))
    (start len : Nat) :
    readPacket hashPair start len pairs.length (packetBytes use32Bit (withIdents pairs)) s =
      finishRecovery hashPair start len (s.setHashTree (installAll pairs s.hashTree))
        pairs.length := by
  have hlength : (withIdents pairs).length=pairs.length := List.length_map _
  have hbody := encodePairs_length use32Bit 1 pairs
  have hrefuse : ∀ p∈pairs,refuse16 (identAt 1 p.1)=false ∧
      refuse32 (identAt 1 p.1)=false := by
    intro p hp
    obtain ⟨-,-,-,hne,hlt,-⟩ := hpairs p hp
    simp only [refuse16,refuse32,Bool.or_eq_false_iff,decide_eq_false_iff_not]
    omega
  rw [packetBytes,hlength,encodePairs_withIdents]
  cases use32Bit with
  | false =>
    have hloop : readHashes 2 refuse16 pairs.length s.hashTree
        (encodePairs false 1 pairs++writeUInt16 0) =
          (installAll pairs s.hashTree, .done (writeUInt16 0)) :=
      @readHashes_encodePairs false refuse16 _ _ pairs _ ht rfl (fun p hp => by
        obtain ⟨hne,hreach,hlen,-,-,hlt⟩ := hpairs p hp
        exact ⟨hne,hreach,by omega,(hlt rfl).trans_le (by decide),(hrefuse p hp).1⟩) _
    have hsize : ¬((encodePairs false 1 pairs++writeUInt16 0).length <
        pairs.length*(kAICHHashSize+2) ∨ pairs.length≠pairs.length ∧ pairs.length≠0) := by
      rw [List.length_append,hbody,show identSize false=2 from rfl]
      omega
    have hnext : ¬(pairs.length=0 ∧ (writeUInt16 0).length≥2) := fun h => by omega
    simp only [Bool.false_eq_true,if_false,List.nil_append,List.append_assoc]
    rw [readPacket,readUInt16_write hcount16]
    dsimp only
    rw [if_neg hsize,afterLoop,hloop]
    dsimp only
    rw [if_neg hnext]
  | true =>
    have hloop : readHashes 4 refuse32 pairs.length s.hashTree (encodePairs true 1 pairs++[]) =
        (installAll pairs s.hashTree, .done []) :=
      @readHashes_encodePairs true refuse32 _ _ pairs _ ht rfl (fun p hp => by
        obtain ⟨hne,hreach,hlen,-,hlt,-⟩ := hpairs p hp
        exact ⟨hne,hreach,by omega,hlt.trans_le (by decide),(hrefuse p hp).2⟩) _
    rw [List.append_nil] at hloop
    have hsize : ¬((writeUInt16 pairs.length++encodePairs true 1 pairs).length <
        pairs.length*(kAICHHashSize+2) ∨ pairs.length≠0 ∧ (0 : Nat)≠0) := by
      rw [List.length_append,writeUInt16_length,hbody,show identSize true=2+2 from rfl,
        ← Nat.add_assoc,Nat.mul_add]
      omega
    have hsize32 : ¬((encodePairs true 1 pairs).length<pairs.length*(kAICHHashSize+4) ∨
        pairs.length≠pairs.length ∧ pairs.length≠0) := by
      rw [hbody,show identSize true=4 from rfl]
      omega
    have hnext : 0=0 ∧ (writeUInt16 pairs.length++encodePairs true 1 pairs).length≥2 := by
      rw [List.length_append,writeUInt16_length]
      omega
    have hself : s.setHashTree s.hashTree=s := rfl
    simp only [if_true,List.append_nil,List.append_assoc]
    rw [readPacket,readUInt16_write (by omega)]
    dsimp only
    rw [if_neg hsize,afterLoop,readHashes]
    dsimp only
    rw [hself,if_pos hnext,readUInt16_write hcount16]
    dsimp only
    rw [if_neg hsize32,afterLoop,hloop]

theorem writePart_complete (hpath : RangeAt fileSize true start len path)
    (ht : Complete hashPair fileSize true s.hashTree) (hpos : 0<len) (hsmall : len≤PARTSIZE)
    (hlong : path.length≤15) (dbgDontLoad : Bool) :
    ∃ s', writePart dbgDontLoad start len s =
      (true, packetBytes s.isLargeFile (withIdents (recoveryPairs path s.hashTree)), s') := by
  have hblocks := blockCount_part hsmall
  have hpairs := recoveryPairs_length hpath ht hpos hsmall
  have hfind : s.partLevel start len=⟨s.hashTree,some path,path.length+1⟩ := by
    rw [partLevel,findHash_eq hpath (complete_shaped ht) rfl
      (show path.length < maxLevels by unfold maxLevels; omega),
      makePath_complete hpath.reaches ht]
    congr 1
    unfold maxLevels
    omega
  have hcount : hashesOfPart (path.length+1) len=(recoveryPairs path s.hashTree).length := by
    rw [hashesOfPart,Nat.add_sub_cancel,hpairs,Nat.mod_eq_of_lt (by omega)]
  have hwrite := createPartRecoveryData_complete s.isLargeFile hpath 0 ht
  have hbytes := encodePairs_length s.isLargeFile 1 (recoveryPairs path s.hashTree)
  have hself : s.setHashTree s.hashTree=s := rfl
  rw [show shiftIdent 0 true=1 from rfl] at hwrite
  rw [writePart,hfind]
  dsimp only
  rw [hself,hcount,hwrite]
  refine ⟨_,Prod.ext ?_ (Prod.ext ?_ rfl)⟩
  · rw [hbytes]
    simp [identSize]
  · rw [packetBytes,encodePairs_withIdents,withIdents,List.length_map]

theorem createPartRecoveryData_loaded {known2 : Option (List UInt8)}
    {stored : AICHHash → Option Nat} {dbgDontLoad : Bool} {loaded : AICHRecoveryHashSet}
    (hs : Loaded hashPair known2 stored dbgDontLoad fileSize s loaded)
    (hsize : EMBLOCKSIZE<fileSize) (start : Nat) :
    createPartRecoveryData (loadHashSet hashPair known2 stored) dbgDontLoad start s =
      writePart dbgDontLoad start (partSizeAt fileSize start) loaded := by
  have hroot : loaded.root.dataSize=fileSize := hs.complete.1.dataSize
  rw [createPartRecoveryData,if_neg (by simp [hs.status]),if_neg (by rw [hs.dataSize]; omega),
    hs.load]
  exact congrArg (fun size => writePart dbgDontLoad start (partSizeAt size start) loaded) hroot

/-- The computed hashes meet the master hash, and every block of the part is there. -/
theorem finishRecovery_blankTo {l r : AICHHashTree} (hpath : RangeAt fileSize true start len path)
    (ht : Complete hashPair fileSize true (node n l r)) (hsplit : baseOf fileSize<fileSize)
    (hsmall : len≤PARTSIZE) (hlong : path.length≤15)
    (hs : s.hashTree=withRoot n (blankTo path (node n l r))) {count : Nat} (hcount : 0<count) :
    ∃ s', finishRecovery hashPair start len s count=(.ok true, s') ∧
      s'.hashTree=prunedTo path (node n l r) ∧
      ∀ pos∈blockPositions len,∃ block, block.hashValid=true ∧
        (node n l r).findExistingHash maxLevels (start+pos) (min EMBLOCKSIZE (len-pos)) =
          some block ∧
        s'.hashTree.findExistingHash maxLevels (start+pos) (min EMBLOCKSIZE (len-pos)) =
          some block := by
  have hverify := verify_blankTo hpath ht hsplit
  have hnull : (prunedTo path (node n l r)).isNull=false := (prunedTo_root path _).2.2
  have hcheck : s.verifyDeletingBad hashPair =
      (true, s.setHashTree (prunedTo path (node n l r))) := by
    rw [verifyDeletingBad,hs,hverify]
  have hfound : ∀ pos∈blockPositions len,∃ block, block.hashValid=true ∧
      (node n l r).findExistingHash maxLevels (start+pos) (min EMBLOCKSIZE (len-pos)) =
        some block ∧
      (prunedTo path (node n l r)).findExistingHash maxLevels (start+pos)
        (min EMBLOCKSIZE (len-pos))=some block := by
    intro pos hpos
    obtain ⟨i,hi,rfl⟩ := List.mem_map.mp hpos
    have hin : i*EMBLOCKSIZE<len := by
      have hlt := Nat.succ_le_of_lt (List.mem_range.mp hi)
      have hmul := Nat.mul_le_mul_right EMBLOCKSIZE hlt
      have hdiv := Nat.div_mul_le_self (len+EMBLOCKSIZE-1) EMBLOCKSIZE
      have hbase := EMBLOCKSIZE_pos
      rw [Nat.succ_mul] at hmul
      omega
    obtain ⟨rest,hrest,hrlen⟩ := rangeAt_unit EMBLOCKSIZE_pos 6 len (endBranch true path)
      (fun x _ hx => baseOf_small (hx.trans hsmall)) (blockCount_part hsmall) i hin
    have hbase := EMBLOCKSIZE_pos
    have hblock := hpath.append (by omega) hrest
    have hlevels : (path++rest).length < maxLevels := by
      rw [List.length_append,maxLevels]
      omega
    obtain ⟨block,hblockAt,hv⟩ := nodeAt_complete hblock.reaches ht
    have hwhole := findExistingHash_prunedTo hblock (List.nil_prefix (l := path++rest)) ht hlevels
    exact ⟨block,hv,hwhole.trans hblockAt,
      (findExistingHash_prunedTo hblock (List.prefix_append path rest) ht hlevels).trans hblockAt⟩
  have htree := (setHashTree_node (s := s) hnull).1
  refine ⟨s.setHashTree (prunedTo path (node n l r)),?_,htree,fun pos hpos => ?_⟩
  · rw [finishRecovery,if_neg (by omega),hcheck]
    dsimp only
    rw [htree]
    congr 2
    refine List.all_eq_true.mpr fun pos hpos => ?_
    obtain ⟨block,hv,-,hpruned⟩ := hfound pos hpos
    rw [hpruned]
    exact hv
  · rw [htree]
    exact hfound pos hpos

/-- A set with nothing below the master hash takes the part's pairs and answers true. -/
theorem readForPart_packetBytes {l r : AICHHashTree} (hpath : RangeAt fileSize true start len path)
    (ht : Complete hashPair fileSize true (node n l r)) (hsplit : baseOf fileSize<fileSize)
    (hpos : 0<len) (hsmall : len≤PARTSIZE) (hlong : path.length≤15) (use32Bit : Bool)
    (hpairs : ∀ p∈recoveryPairs path (node n l r), p.1≠[] ∧ Reaches fileSize true p.1 ∧
      p.1.length≤21 ∧ identAt 1 p.1≠1 ∧ identAt 1 p.1<2^22 ∧
      (use32Bit=false → identAt 1 p.1<2^16))
    (hs : s.hashTree=node n null null) :
    ∃ s', readForPart hashPair start len
        (packetBytes use32Bit (withIdents (recoveryPairs path (node n l r))))
        (s.partLevel start len) s=(.ok true, s') ∧
      s'.hashTree=prunedTo path (node n l r) ∧
      ∀ pos∈blockPositions len,∃ block, block.hashValid=true ∧
        (node n l r).findExistingHash maxLevels (start+pos) (min EMBLOCKSIZE (len-pos)) =
          some block ∧
        s'.hashTree.findExistingHash maxLevels (start+pos) (min EMBLOCKSIZE (len-pos)) =
          some block := by
  have hshaped : Shaped fileSize true (node n null null) := ⟨ht.1,trivial,trivial⟩
  have hmadeNull : (makePath path (node n null null)).isNull=false := makePath_isNull path _
  have hblocks := blockCount_part hsmall
  have hcount := recoveryPairs_length hpath ht hpos hsmall
  have hblocks0 : 0<blockCount len := by
    obtain ⟨h1,-⟩ := blocksOf_bounds EMBLOCKSIZE_pos len
    exact Nat.pos_of_mul_pos_right (hpos.trans_le h1)
  have hfind : s.partLevel start len =
      ⟨makePath path (node n null null),some path,path.length+1⟩ := by
    rw [partLevel,hs,findHash_eq hpath hshaped rfl
      (show path.length < maxLevels by unfold maxLevels; omega)]
    congr 1
    unfold maxLevels
    omega
  have hhashes : hashesOfPart (path.length+1) len =
      (recoveryPairs path (node n l r)).length := by
    rw [hashesOfPart,Nat.add_sub_cancel,hcount,Nat.mod_eq_of_lt (by omega)]
  obtain ⟨hmade,-,-,hagain⟩ := setHashTree_node (s := s) hmadeNull
  have hmadeShaped : Shaped fileSize true
      (s.setHashTree (makePath path (node n null null))).hashTree := by
    rw [hmade]
    exact makePath_shaped path hshaped
  have hinstalled := (installAll_recoveryPairs hpath ht).2 hsplit n ht.1
  have hwritten : ((s.setHashTree (makePath path (node n null null))).setHashTree
      (installAll (recoveryPairs path (node n l r)) (makePath path (node n null null)))).hashTree =
        withRoot n (blankTo path (node n l r)) := by
    rw [← hinstalled]
    refine (setHashTree_node ?_).1
    rw [hinstalled]
    obtain ⟨hnull,-⟩ := blankTo_reCalculate hpath ht
    cases hb : blankTo path (node n l r) with
    | null => rw [hb] at hnull; cases hnull
    | node => rfl
  rw [readForPart,hfind]
  rw [hhashes,readPacket_packetBytes use32Bit _ hmadeShaped (by omega) (by omega) hpairs,hmade]
  exact finishRecovery_blankTo hpath ht hsplit hsmall hlong hwritten (by omega)

theorem readRecoveryData_eq (hashPair : AICHHash → AICHHash → AICHHash)
    (hs : s.hashTree=node n null null) (hn : n.Sized fileSize true)
    (hstatus : s.status = .Verified ∨ s.status = .Trusted) (start : Nat) (input : List UInt8) :
    readRecoveryData hashPair start input s =
      readForPart hashPair start (partSizeAt fileSize start) input
        (s.partLevel start (partSizeAt fileSize start)) s := by
  have hok : ¬(s.status ≠ .Verified ∧ s.status ≠ .Trusted) := by
    rcases hstatus with h | h <;> simp [h]
  have hsize : s.root.dataSize=fileSize := by
    rw [show s.root=n from (AICHHashTree.node.inj hs).1,hn.dataSize]
  rw [readRecoveryData,if_neg hok,hsize]

/-- Recovery data of any part is written whole, its identifiers fit, and a set that knows only
the size and the master hash reads it back to exactly the hashes the sender has. -/
theorem recoveryData_roundTrip {known2 : Option (List UInt8)} {stored : AICHHash → Option Nat}
    {dbgDontLoad : Bool} {fileSize part : Nat} (hsize : EMBLOCKSIZE < fileSize)
    (hmax : fileSize ≤ MAX_EMULE_FILE_SIZE) (hpart : part * PARTSIZE < fileSize)
    {s loaded : AICHRecoveryHashSet}
    (hs : Loaded hashPair known2 stored dbgDontLoad fileSize s loaded) {status : EAICHStatus}
    (hstatus : status = .Verified ∨ status = .Trusted) :
    ∃ pairs s' r' path,
      createPartRecoveryData (loadHashSet hashPair known2 stored) dbgDontLoad (part * PARTSIZE) s =
        (true, packetBytes (decide (fileSize > OLD_MAX_EMULE_FILE_SIZE)) pairs, s') ∧
      pairs.length < 2 ^ 16 ∧
      (∀ p ∈ pairs, p.1 ≤ 0x400000 ∧
        p.1 < 2 ^ if fileSize > OLD_MAX_EMULE_FILE_SIZE then 32 else 16) ∧
      readRecoveryData hashPair (part * PARTSIZE)
          (packetBytes (decide (fileSize > OLD_MAX_EMULE_FILE_SIZE)) pairs)
          (ofMasterHash fileSize loaded.getMasterHash status) = (.ok true, r') ∧
      r'.hashTree = prunedTo path loaded.hashTree ∧
      RangeAt fileSize true (part * PARTSIZE) (partSizeAt fileSize (part * PARTSIZE)) path ∧
      ∀ pos ∈ blockPositions (partSizeAt fileSize (part * PARTSIZE)), ∃ block,
        block.hashValid = true ∧
        loaded.hashTree.findExistingHash maxLevels (part * PARTSIZE + pos)
          (min EMBLOCKSIZE (partSizeAt fileSize (part * PARTSIZE) - pos)) = some block ∧
        r'.hashTree.findExistingHash maxLevels (part * PARTSIZE + pos)
          (min EMBLOCKSIZE (partSizeAt fileSize (part * PARTSIZE) - pos)) = some block := by
  obtain ⟨path,hpath,hlong,hshort⟩ := exists_partPath hmax hpart
  have hpartSize := partSizeAt_eq hmax hpart
  have hpos : 0<partSizeAt fileSize (part*PARTSIZE) := by
    have := PARTSIZE_pos
    omega
  have hsmall : partSizeAt fileSize (part*PARTSIZE)≤PARTSIZE := by omega
  have hsplit : baseOf fileSize<fileSize := by
    unfold baseOf
    split_ifs <;> omega
  have hcreate := createPartRecoveryData_loaded hs hsize (part*PARTSIZE)
  have hcomplete := hs.complete
  obtain ⟨hn,hv,-⟩ := hs.complete
  have hknown := ofMasterHash_hashTree (by omega) hn hv status
  have hread := readRecoveryData_eq hashPair (ofMasterHash_hashTree (by omega) hn hv status) hn
    hstatus (part*PARTSIZE)
  have hlarge : loaded.isLargeFile=decide (fileSize>OLD_MAX_EMULE_FILE_SIZE) := by
    rw [isLargeFile,hn.dataSize]
  have hfit := partPairs_fit hpath hcomplete hsplit hsmall hlong hshort
  have hcount := recoveryPairs_length hpath hcomplete hpos hsmall
  have hblocks := blockCount_part hsmall
  obtain ⟨s',hwrite⟩ := writePart_complete hpath hcomplete hpos hsmall hlong dbgDontLoad
  rw [hlarge] at hwrite
  obtain ⟨r',hr',htree,hfound⟩ := readForPart_packetBytes hpath hcomplete hsplit hpos hsmall
    hlong (decide (fileSize>OLD_MAX_EMULE_FILE_SIZE)) (fun p hp => by
      obtain ⟨h1,h2,h3,h4,h5,h6⟩ := hfit p hp
      exact ⟨h1,h2,h3,h4,h5,fun hb => h6 (Nat.not_lt.mp (of_decide_eq_false hb))⟩) hknown
  refine ⟨withIdents (recoveryPairs path loaded.hashTree),s',r',path,hcreate.trans hwrite,?_,
    ?_,(hread _).trans hr',htree,hpath,hfound⟩
  · rw [withIdents,List.length_map,hcount]
    omega
  · intro p hp
    obtain ⟨q,hq,rfl⟩ := List.mem_map.mp hp
    obtain ⟨-,-,-,-,h22,h16⟩ := hfit q hq
    refine ⟨by omega,?_⟩
    split_ifs with hl
    · exact h22.trans_le (by decide)
    · exact h16 (Nat.not_lt.mp hl)

end Hashing

/-- The complete tree of a file of two blocks whose hashes are all zeros. -/
def twoZeroBlocks : AICHRecoveryHashSet where
  root := ⟨2*EMBLOCKSIZE,sha1OfZeros,true,true,false⟩
  left := .node ⟨EMBLOCKSIZE,default,true,true,false⟩ .null .null
  right := .node ⟨EMBLOCKSIZE,default,false,true,false⟩ .null .null
  status := .HashSetComplete
  untrustedHashes := []

theorem recoveryData_roundTrip_twoBlocks :
    ∃ pairs s' r', createPartRecoveryData (loadHashSet (fun _ _ => sha1OfZeros) none fun _ => none)
        true (0 * PARTSIZE) twoZeroBlocks = (true, packetBytes false pairs, s') ∧
      readRecoveryData (fun _ _ => sha1OfZeros) (0 * PARTSIZE) (packetBytes false pairs)
        (ofMasterHash (2 * EMBLOCKSIZE) sha1OfZeros .Verified) = (.ok true, r') := by
  have hs : Loaded (fun _ _ => sha1OfZeros) none (fun _ => none) true (2*EMBLOCKSIZE)
      twoZeroBlocks twoZeroBlocks := ⟨rfl,rfl,rfl,by decide +kernel⟩
  obtain ⟨pairs,s',r',-,hcreate,-,-,hread,-⟩ :=
    @recoveryData_roundTrip _ _ _ _ _ 0 (by decide) (by decide) (by decide) _ _ hs .Verified
      (Or.inl rfl)
  exact ⟨pairs,s',r',hcreate,hread⟩

end AICHRecoveryHashSet

end EmuleQt.Crypto
