import EmuleQt.Files.PartFile

namespace EmuleQt.Files

open Client Crypto Math Utils

/-- What the bytes of a part hash to; `read` is false when they could not be read. -/
structure PartDigest where
  read : Bool
  md4 : MD4Hash
  aichValid : Bool
  aich : AICHHash
  deriving DecidableEq

inductive PartVerdict
  | Ok | Bad | Unread
  deriving DecidableEq

/-- The arguments of `verifyChangedParts`, what `digestPart` reads of the .part, and the
settings. -/
structure VerifyEnv where
  forceICH : Bool
  noAICH : Bool
  digests : Option (List (Nat × PartDigest))
  digestPart : Nat → PartDigest
  useICH : Bool
  sharedFileList : Bool

namespace VerifyEnv

def digestOf (env : VerifyEnv) (part : Nat) : Option PartDigest :=
  env.digests.bind fun digests => digests.lookup part

/-- The digest `hashSinglePart` judges by. -/
def digest (env : VerifyEnv) (part : Nat) : PartDigest :=
  (env.digestOf part).getD (env.digestPart part)

end VerifyEnv

/-- What a turn of the loop of `verifyChangedParts` comes to; a condemned part may have AICH
recovery data requested for it. -/
inductive PartOutcome
  | unchanged | postponed | unread | verified | incomplete | recovered
  | condemned (requestAICHRecovery : Bool)
  deriving DecidableEq

namespace PartFile

def haveAICH (f : PartFile) : Bool :=
  f.identifier.hasValidAICHHash && f.identifier.hasExpectedAICHHashCount

/-- The MD4 check: whether it failed, and whether a hash to compare with is missing. -/
def checkMD4 (f : PartFile) (given : PartDigest) (partNumber : Nat) : Bool × Bool :=
  if f.identifier.hasExpectedMD4HashCount then
    if f.partCount>1 ∨ f.fileSize=PARTSIZE then
      match f.identifier.getMD4PartHash partNumber with
      | some storedHash => (decide (given.md4≠storedHash), false)
      | none => (false, true)
    else (decide (given.md4≠f.identifier.md4Hash), false)
  else (false, true)

/-- The AICH part hashes that the 16-bit count shows. -/
def availableAICHHashes (f : PartFile) : List AICHHash :=
  f.identifier.aichPartHashSet.take (f.identifier.aichPartHashSet.length%2^16)

/-- The AICH check, in the same way. -/
def checkAICH (f : PartFile) (given : PartDigest) (partNumber : Nat) : Bool × Bool :=
  if f.partCount>1 then
    match f.availableAICHHashes[partNumber]? with
    | some storedHash => (decide (storedHash≠given.aich), false)
    | none => (false, true)
  else (decide (f.identifier.aichHash≠given.aich), false)

/-- Asks for both hash sets; the part is checked once more when one arrives. -/
def awaitHashset (f : PartFile) (partNumber : Nat) : PartFile :=
  { f with
    md4HashsetNeeded := true
    aichPartHashsetNeeded := true
    partsAwaitingHashset := (f.partsAwaitingHashset ++
      List.replicate (f.partCount-f.partsAwaitingHashset.length) false).set partNumber true }

/-- The verdict on a digest, and whether AICH was checked and agreed. -/
def judge (f : PartFile) (given : PartDigest) (partNumber : Nat) : PartVerdict × Bool × PartFile :=
  if given.read = false then (.Unread, false, f)
  else
    let md4 := f.checkMD4 given partNumber
    let aichChecked := f.haveAICH && given.aichValid
    let aich := if aichChecked then f.checkAICH given partNumber else (false, false)
    (if md4.1 || aich.1 then .Bad else .Ok, aichChecked && !aich.1,
      { f with
        md4HashsetNeeded := f.md4HashsetNeeded || md4.2
        aichPartHashsetNeeded := f.aichPartHashsetNeeded || aich.2 })

def hashSinglePart (f : PartFile) (env : VerifyEnv) (partNumber : Nat) :
    PartVerdict × Bool × PartFile :=
  if partNumber ≥ f.partCount then (.Ok, false, f)
  else if f.identifier.hasExpectedMD4HashCount = false ∧ f.haveAICH = false then
    -- nothing to compare against
    (.Ok, false, f.awaitHashset partNumber)
  else f.judge (env.digest partNumber) partNumber

/-- A part that failed its hash: it becomes a gap again and the loss is counted. -/
def condemnPart (f : PartFile) (p partStart partEnd : Nat) : PartFile :=
  let lost := partEnd-partStart+1
  let corrupted := UInt16.ofNat p
  let f := { f with
    gapList := addGap f.fileSize partStart partEnd f.gapList
    corruptedParts :=
      if corrupted∈f.corruptedParts then f.corruptedParts else f.corruptedParts++[corrupted]
    corruptionLoss := (f.corruptionLoss+lost)%2^64 }
  if (f.corruptionBlackBox.soleSenderOfWholePart p lost).isNull then f
  else f.markPartCorrupted partStart partEnd

/-- A part whose bytes on disk were good behind its gaps. -/
def recoverPart (f : PartFile) (sharedFileList : Bool) (p partStart partEnd : Nat) : PartFile :=
  let recovered := totalGapSizeInRange partStart partEnd f.gapList
  let f := f.verifiedData partStart partEnd
  let f := { f with gapList := fillGap partStart partEnd f.gapList }
  let f := ((f.removeBlockFromList partStart partEnd).dropCorruptedPart p)
  let f := f.addToSharedFiles sharedFileList
  { f with
    corruptionLoss := f.corruptionLoss-recovered
    ichPartsSaved := (f.ichPartsSaved+1)%2^32 }

/-- The verdict on a complete part, as `hashSinglePart` gave it. -/
def settleComplete (env : VerifyEnv) (p : Nat) :
    PartVerdict × Bool × PartFile → PartOutcome × PartFile
  | (.Unread, _, f) => (.unread, { f with changedParts := f.changedParts.set p true })
  | (.Ok, _, f) =>
    (.verified, ((f.verifiedData (partStart p) (f.partEnd p)).dropCorruptedPart p).addToSharedFiles
      env.sharedFileList)
  | (.Bad, aichAgreed, f) =>
    (.condemned (!env.noAICH && !aichAgreed), f.condemnPart p (partStart p) (f.partEnd p))

/-- Intelligent corruption handling of a part with gaps. -/
def settleGapped (env : VerifyEnv) (p : Nat) :
    PartVerdict × Bool × PartFile → PartOutcome × PartFile
  | (.Ok, _, f) => (.recovered, f.recoverPart env.sharedFileList p (partStart p) (f.partEnd p))
  | (.Bad, _, f) => (.incomplete, f)
  | (.Unread, _, f) => (.incomplete, f)

/-- The state in which the loop looks at a flagged part. -/
def unflag (f : PartFile) (p : Nat) : PartFile :=
  { f with changedParts := f.changedParts.set p false }

/-- One turn of the loop of `verifyChangedParts`. -/
def verifyPart (env : VerifyEnv) (p : Nat) (f : PartFile) : PartOutcome × PartFile :=
  if f.changedParts[p]? ≠ some true then (.unchanged, f)
  else if (f.unflag p).isComplete p then
    if (f.unflag p).isCompleteBDSafe (partStart p) (f.partEnd p) then
      settleComplete env p ((f.unflag p).hashSinglePart env p)
    else (.postponed, f)
  else if (f.unflag p).isCorruptedPart p && (env.useICH || env.forceICH) then
    settleGapped env p ((f.unflag p).hashSinglePart env p)
  else (.incomplete, f.unflag p)

/-- The turns of the loop, with what each came to. -/
def verifyParts (env : VerifyEnv) : (parts : List Nat) → PartFile →
    List (Nat × PartOutcome) × PartFile
  | [], f => ([], f)
  | p::parts, f =>
    let turn := f.verifyPart env p
    let rest := verifyParts env parts turn.2
    ((p, turn.1)::rest.1, rest.2)

def verifyChangedParts (env : VerifyEnv) (f : PartFile) : List (Nat × PartOutcome) × PartFile :=
  verifyParts env (List.range f.partCount) f

end PartFile

open Client Crypto Math Math.Interval Utils

namespace PartFile

/-- The MD4 hash a part is compared with, if there is one. -/
def storedMD4 (f : PartFile) (p : Nat) : Option MD4Hash :=
  if f.identifier.hasExpectedMD4HashCount then
    if f.partCount>1 ∨ f.fileSize=PARTSIZE then f.identifier.getMD4PartHash p
    else some f.identifier.md4Hash
  else none

/-- The AICH hash a part is compared with when its digest has one. -/
def storedAICH (f : PartFile) (p : Nat) : Option AICHHash :=
  if f.haveAICH then
    if f.partCount>1 then f.availableAICHHashes[p]?
    else some f.identifier.aichHash
  else none

/-- Some stored hash was compared with the digest of the part. -/
def Compared (f : PartFile) (d : PartDigest) (p : Nat) : Prop :=
  d.read = true ∧ ((f.storedMD4 p).isSome ∨ d.aichValid = true ∧ (f.storedAICH p).isSome)

/-- No comparison that ran failed. -/
def Agrees (f : PartFile) (d : PartDigest) (p : Nat) : Prop :=
  (∀ h ∈ f.storedMD4 p, d.md4 = h) ∧ (d.aichValid = true → ∀ h ∈ f.storedAICH p, d.aich = h)

/-- There is a hash set, and when the part is read it has a hash to compare with. -/
def Comparable (f : PartFile) (d : PartDigest) (p : Nat) : Prop :=
  (f.identifier.hasExpectedMD4HashCount = true ∨ f.haveAICH = true) ∧
    (d.read = true → (f.storedMD4 p).isSome ∨ d.aichValid = true ∧ (f.storedAICH p).isSome)

/-- The part is up for intelligent corruption handling. -/
def UpForRecovery (env : VerifyEnv) (f : PartFile) (p : Nat) : Prop :=
  f.changedParts[p]? = some true ∧ f.isComplete p=false ∧ f.isCorruptedPart p=true ∧
    (env.useICH || env.forceICH)=true

/-- A part with gaps was taken for good: a gap of it was closed, its place in the corrupted list
was given up, or `verifiedData` was called for it. -/
def TakenForGood (env : VerifyEnv) (f : PartFile) (p : Nat) : Prop :=
  (∃ x, x/PARTSIZE=p ∧ x∈union f.gapList ∧
    x∉union (f.verifyChangedParts env).2.gapList) ∨
    (f.verifyChangedParts env).2.corruptedParts.count (UInt16.ofNat p) <
      f.corruptedParts.count (UInt16.ofNat p) ∨
    (p, .recovered)∈(f.verifyChangedParts env).1 ∨ (p, .verified)∈(f.verifyChangedParts env).1

section HashSinglePart

variable {f : PartFile} {env : VerifyEnv} {p : Nat}

theorem hashSinglePart_frame : ∃ needMD4 needAICH awaiting,
    (f.hashSinglePart env p).2.2 = { f with
      md4HashsetNeeded := needMD4
      aichPartHashsetNeeded := needAICH
      partsAwaitingHashset := awaiting } := by
  unfold hashSinglePart
  split_ifs
  · exact ⟨_,_,_,rfl⟩
  · exact ⟨_,_,_,rfl⟩
  · unfold judge
    by_cases hread : (env.digest p).read=false
    · rw [if_pos hread]
      exact ⟨_,_,_,rfl⟩
    · rw [if_neg hread]
      exact ⟨_,_,_,rfl⟩

theorem checkMD4_failed (f : PartFile) (d : PartDigest) (p : Nat) :
    (f.checkMD4 d p).1=false ↔ ∀ h∈f.storedMD4 p,d.md4=h := by
  unfold checkMD4 storedMD4
  split_ifs
  · cases f.identifier.getMD4PartHash p <;> simp
  · simp
  · simp

theorem checkAICH_failed {f : PartFile} (hAICH : f.haveAICH=true) (d : PartDigest) (p : Nat) :
    (f.checkAICH d p).1=false ↔ ∀ h∈f.storedAICH p,d.aich=h := by
  unfold checkAICH storedAICH
  split_ifs
  · cases f.availableAICHHashes[p]? with
    | none => simp
    | some storedHash =>
      simp only [decide_eq_false_iff_not,not_not,Option.mem_some,forall_eq']
      exact eq_comm
  · simp only [decide_eq_false_iff_not,not_not,Option.mem_some,forall_eq']
    exact eq_comm

theorem judge_ok (d : PartDigest) :
    (f.judge d p).1 = .Ok ↔ d.read=true ∧ f.Agrees d p := by
  unfold judge
  cases hread : d.read
  · simp
  · have hAICH : (if (f.haveAICH && d.aichValid)=true then f.checkAICH d p
        else (false, false)).1=false ↔
          (d.aichValid=true → ∀ h∈f.storedAICH p,d.aich=h) := by
      cases hhave : f.haveAICH
      · have hstored : f.storedAICH p=none := by
          unfold storedAICH
          rw [hhave]
          rfl
        simp [hstored]
      · cases hvalid : d.aichValid
        · simp
        · simpa using checkAICH_failed hhave d p
    rw [if_neg (by simp),Agrees,← checkMD4_failed,← hAICH]
    simp only [true_and]
    generalize (f.checkMD4 d p).1=md4Error
    generalize (if (f.haveAICH && d.aichValid)=true then f.checkAICH d p
      else (false, false)).1=aichError
    cases md4Error <;> cases aichError <;> simp

theorem hashSinglePart_ok (hp : p<f.partCount) : (f.hashSinglePart env p).1 = .Ok ↔
    (f.identifier.hasExpectedMD4HashCount=false ∧ f.haveAICH=false) ∨
      (env.digest p).read=true ∧ f.Agrees (env.digest p) p := by
  unfold hashSinglePart
  rw [if_neg (Nat.not_le.mpr hp)]
  by_cases hnone : f.identifier.hasExpectedMD4HashCount=false ∧ f.haveAICH=false
  · rw [if_pos hnone]
    exact iff_of_true rfl (Or.inl hnone)
  · rw [if_neg hnone,or_iff_right hnone,judge_ok]

theorem compared_of_ok (hp : p<f.partCount) (hok : (f.hashSinglePart env p).1 = .Ok)
    (hcomp : f.Comparable (env.digest p) p) :
    f.Compared (env.digest p) p ∧ f.Agrees (env.digest p) p := by
  obtain ⟨hset,hhash⟩ := hcomp
  rcases (hashSinglePart_ok hp).mp hok with ⟨hMD4,hAICH⟩ | ⟨hread,hagrees⟩
  · rw [hMD4,hAICH] at hset
    rcases hset with h | h <;> cases h
  · exact ⟨⟨hread,hhash hread⟩,hagrees⟩

theorem ok_of_not_comparable (hp : p<f.partCount)
    (hcomp : ¬f.Comparable (env.digest p) p) : (f.hashSinglePart env p).1 = .Ok := by
  rw [hashSinglePart_ok hp]
  by_cases hset : f.identifier.hasExpectedMD4HashCount=true ∨ f.haveAICH=true
  · have hhash : ¬((env.digest p).read=true → _) := fun h => hcomp ⟨hset,h⟩
    obtain ⟨hread,hnone⟩ := Classical.not_imp.mp hhash
    obtain ⟨hMD4,hAICH⟩ := not_or.mp hnone
    refine Or.inr ⟨hread,fun h hstored => ?_,fun hvalid h hstored => ?_⟩
    · exact absurd (Option.isSome_of_mem hstored) hMD4
    · exact absurd ⟨hvalid,Option.isSome_of_mem hstored⟩ hAICH
  · exact Or.inl (by simpa using hset)

theorem not_compared_of_not_comparable (hcomp : ¬f.Comparable (env.digest p) p) :
    ¬f.Compared (env.digest p) p := by
  rintro ⟨hread,hhash⟩
  refine hcomp ⟨?_,fun _ => hhash⟩
  unfold storedMD4 storedAICH at hhash
  by_contra hnone
  obtain ⟨hMD4,hAICH⟩ := not_or.mp hnone
  rw [if_neg hMD4,if_neg hAICH] at hhash
  simp at hhash

end HashSinglePart

section Parts

variable {f : PartFile} {p x : Nat}

theorem partStart_lt (hp : p<f.partCount) : partStart p<f.fileSize :=
  partStart_lt_of_partsOf hp

theorem partStart_le_partEnd (hp : p<f.partCount) : partStart p≤f.partEnd p := by
  have hlt := partStart_lt hp
  have hpos := PARTSIZE_pos
  exact Nat.le_min.mpr ⟨by omega,by omega⟩

theorem in_part_iff (hx : x<f.fileSize) :
    (partStart p≤x ∧ x≤f.partEnd p) ↔ x/PARTSIZE=p := by
  have hpos := PARTSIZE_pos
  rw [Nat.div_eq_iff PARTSIZE_pos,partEnd,partStart,Nat.le_min,Nat.mul_comm]
  omega

theorem part_of_le (hp : p<f.partCount) (hlow : partStart p≤x) (hhigh : x≤f.partEnd p) :
    x/PARTSIZE=p := by
  have hlt := partStart_lt hp
  have hx : x<f.fileSize := by
    have hend := hhigh.trans (Nat.min_le_right _ _)
    omega
  exact (in_part_iff hx).mp ⟨hlow,hhigh⟩

theorem isComplete_iff (hgaps : WellFormed f.fileSize f.gapList) (hp : p<f.partCount) :
    f.isComplete p=true ↔ ∀ x,x/PARTSIZE=p → x∉union f.gapList := by
  unfold isComplete
  rw [Bool.and_eq_true,decide_eq_true_iff,and_iff_right hp,
    isCompleteRange_iff (partStart_le_partEnd hp) hgaps]
  constructor
  · intro h x hx hmem
    obtain ⟨i,hi,hlow,hhigh⟩ := mem_union.mp hmem
    have hsize : x<f.fileSize := hhigh.trans_lt (hgaps.inside i hi).2
    obtain ⟨hstart,hend⟩ := (in_part_iff hsize).mpr hx
    exact h x hstart hend hmem
  · exact fun h x hlow hhigh => h x (part_of_le hp hlow hhigh)

end Parts

/-- The two states agree on the hash sets and on one part. -/
structure SameAt (p : Nat) (f g : PartFile) : Prop where
  identifier : g.identifier=f.identifier
  gaps : ∀ x, x/PARTSIZE=p → (x∈union g.gapList ↔ x∈union f.gapList)
  corrupted : g.corruptedParts.count (UInt16.ofNat p)=f.corruptedParts.count (UInt16.ofNat p)
  changed : g.changedParts[p]? = f.changedParts[p]?

namespace SameAt

variable {p : Nat} {f g h : PartFile}

theorem rfl' : SameAt p f f := ⟨rfl,fun _ _ => Iff.rfl,rfl,rfl⟩

theorem trans (hfg : SameAt p f g) (hgh : SameAt p g h) : SameAt p f h :=
  ⟨hgh.identifier.trans hfg.identifier,fun x hx => (hgh.gaps x hx).trans (hfg.gaps x hx),
    hgh.corrupted.trans hfg.corrupted,hgh.changed.trans hfg.changed⟩

theorem fileSize (hfg : SameAt p f g) : g.fileSize=f.fileSize :=
  congrArg FileIdentifier.fileSize hfg.identifier

theorem partCount (hfg : SameAt p f g) : g.partCount=f.partCount := by
  rw [PartFile.partCount,hfg.fileSize,PartFile.partCount]

end SameAt

/-- What a turn of the loop can do: one part's flag, its place in the corrupted list and its bytes
in the gap list. -/
structure Turn (q : Nat) (f g : PartFile) : Prop where
  identifier : g.identifier = f.identifier
  changed : ∀ i ≠ q, g.changedParts[i]? = f.changedParts[i]?
  corrupted : g.corruptedParts = f.corruptedParts ∨
    g.corruptedParts = f.corruptedParts.erase (UInt16.ofNat q) ∨
    g.corruptedParts = f.corruptedParts ++ [UInt16.ofNat q]
  gaps : g.gapList = f.gapList ∨
    g.gapList = addGap f.fileSize (partStart q) (f.partEnd q) f.gapList ∨
    g.gapList = fillGap (partStart q) (f.partEnd q) f.gapList

section Turn

variable {f g : PartFile} {env : VerifyEnv} {p q : Nat}

theorem Turn.wellFormed (h : Turn q f g) (hq : q<f.partCount)
    (hgaps : WellFormed f.fileSize f.gapList) : WellFormed g.fileSize g.gapList := by
  rw [fileSize,h.identifier]
  rcases h.gaps with hsame | hadd | hfill
  · rwa [hsame]
  · rw [hadd]
    exact addGap_wellFormed hgaps (partStart_lt hq)
  · rw [hfill]
    exact fillGap_wellFormed hgaps

theorem partCount_lt (f : PartFile) : f.partCount<2^16 := Nat.mod_lt _ (by decide)

theorem corruptedPart_ne (hp : p<f.partCount) (hq : q<f.partCount) (hne : p≠q) :
    UInt16.ofNat p≠UInt16.ofNat q := by
  have hcount := f.partCount_lt
  intro h
  have hnat := congrArg UInt16.toNat h
  rw [UInt16.toNat_ofNat',UInt16.toNat_ofNat',Nat.mod_eq_of_lt (hp.trans hcount),
    Nat.mod_eq_of_lt (hq.trans hcount)] at hnat
  exact hne hnat

theorem Turn.sameAt (h : Turn q f g) (hp : p<f.partCount) (hq : q<f.partCount) (hne : p≠q)
    (hgaps : WellFormed f.fileSize f.gapList) : SameAt p f g := by
  have hother : ∀ x,x/PARTSIZE=p → ¬(partStart q≤x ∧ x≤f.partEnd q) :=
    fun x hx hin => hne (hx.symm.trans (part_of_le hq hin.1 hin.2))
  refine ⟨h.identifier,fun x hx => ?_,?_,h.changed p hne⟩
  · rcases h.gaps with hsame | hadd | hfill
    · rw [hsame]
    · rw [hadd,mem_union_addGap hgaps (partStart_lt hq)]
      exact or_iff_left fun hin => hother x hx ⟨hin.1,hin.2.1⟩
    · rw [hfill,mem_union_fillGap hgaps]
      exact and_iff_left (hother x hx)
  · have hcorrupted := corruptedPart_ne hp hq hne
    rcases h.corrupted with hsame | herase | happend
    · rw [hsame]
    · rw [herase,List.count_erase_of_ne hcorrupted]
    · rw [happend,List.count_append,List.count_singleton]
      simp [hcorrupted.symm]

theorem verifiedData_frame (f : PartFile) (start stop : Nat) :
    ∃ box, f.verifiedData start stop = { f with corruptionBlackBox := box } := by
  unfold verifiedData
  split_ifs
  · exact ⟨_,rfl⟩
  · exact ⟨_,rfl⟩

theorem addToSharedFiles_frame (f : PartFile) (sharedFileList : Bool) :
    ∃ status, f.addToSharedFiles sharedFileList = { f with status := status } := by
  unfold addToSharedFiles
  split_ifs
  · exact ⟨_,rfl⟩
  · exact ⟨_,rfl⟩

theorem condemnPart_frame (f : PartFile) (p first last : Nat) :
    (f.condemnPart p first last).identifier=f.identifier ∧
      (f.condemnPart p first last).changedParts=f.changedParts ∧
      (f.condemnPart p first last).gapList=addGap f.fileSize first last f.gapList ∧
      (f.condemnPart p first last).corruptedParts=if UInt16.ofNat p∈f.corruptedParts
        then f.corruptedParts else f.corruptedParts++[UInt16.ofNat p] := by
  unfold condemnPart
  dsimp only
  split <;> exact ⟨rfl,rfl,rfl,rfl⟩

theorem recoverPart_frame (f : PartFile) (sharedFileList : Bool) (p first last : Nat) :
    (f.recoverPart sharedFileList p first last).identifier=f.identifier ∧
      (f.recoverPart sharedFileList p first last).changedParts=f.changedParts ∧
      (f.recoverPart sharedFileList p first last).gapList=fillGap first last f.gapList ∧
      (f.recoverPart sharedFileList p first last).corruptedParts =
        f.corruptedParts.erase (UInt16.ofNat p) := by
  unfold recoverPart
  obtain ⟨box,hbox⟩ := f.verifiedData_frame first last
  rw [hbox]
  dsimp only
  obtain ⟨status,hstatus⟩ := addToSharedFiles_frame
    ((removeBlockFromList { f with
      corruptionBlackBox := box, gapList := fillGap first last f.gapList } first
        last).dropCorruptedPart p) sharedFileList
  rw [hstatus]
  exact ⟨rfl,rfl,rfl,rfl⟩

/-- The two states agree on what a turn can change. -/
structure Agree (f g : PartFile) : Prop where
  identifier : g.identifier = f.identifier
  changed : g.changedParts = f.changedParts
  corrupted : g.corruptedParts = f.corruptedParts
  gaps : g.gapList = f.gapList

theorem hashSinglePart_agree : Agree f (f.hashSinglePart env q).2.2 := by
  obtain ⟨needMD4,needAICH,awaiting,hframe⟩ :=
    @hashSinglePart_frame f env q
  rw [hframe]
  exact ⟨rfl,rfl,rfl,rfl⟩

theorem verifiedData_agree {first last : Nat} : Agree f (f.verifiedData first last) := by
  obtain ⟨box,hbox⟩ := f.verifiedData_frame first last
  rw [hbox]
  exact ⟨rfl,rfl,rfl,rfl⟩

theorem addToSharedFiles_agree {b : Bool} : Agree f (f.addToSharedFiles b) := by
  obtain ⟨status,hstatus⟩ := f.addToSharedFiles_frame b
  rw [hstatus]
  exact ⟨rfl,rfl,rfl,rfl⟩

theorem Turn.refl (q : Nat) (f : PartFile) : Turn q f f :=
  ⟨rfl,fun _ _ => rfl,Or.inl rfl,Or.inl rfl⟩

theorem Agree.partEnd (h : Agree f g) : g.partEnd q=f.partEnd q := by
  rw [PartFile.partEnd,fileSize,h.identifier,PartFile.partEnd,fileSize]

theorem Agree.turn {h : PartFile} (hfg : Agree f g) (hgh : Turn q g h) : Turn q f h := by
  obtain ⟨hidentifier,hchanged,hcorrupted,hgaps⟩ := hgh
  rw [hfg.identifier] at hidentifier
  rw [hfg.changed] at hchanged
  rw [hfg.corrupted] at hcorrupted
  rw [hfg.gaps,hfg.partEnd,fileSize,hfg.identifier] at hgaps
  exact ⟨hidentifier,hchanged,hcorrupted,hgaps⟩

theorem Turn.agree {h : PartFile} (hfg : Turn q f g) (hgh : Agree g h) : Turn q f h := by
  refine ⟨hgh.identifier.trans hfg.identifier,?_,?_,?_⟩
  · rw [hgh.changed]
    exact hfg.changed
  · rw [hgh.corrupted]
    exact hfg.corrupted
  · rw [hgh.gaps]
    exact hfg.gaps

theorem Turn.of_unflag (h : Turn q (f.unflag q) g) : Turn q f g :=
  ⟨h.identifier,fun i hi => (h.changed i hi).trans (List.getElem?_set_ne hi.symm),h.corrupted,
    h.gaps⟩

theorem dropCorruptedPart_turn : Turn q f (f.dropCorruptedPart q) :=
  ⟨rfl,fun _ _ => rfl,Or.inr (Or.inl rfl),Or.inl rfl⟩

theorem condemnPart_turn : Turn q f (f.condemnPart q (partStart q) (f.partEnd q)) := by
  obtain ⟨hidentifier,hchanged,hgaps,hcorrupted⟩ :=
    f.condemnPart_frame q (partStart q) (f.partEnd q)
  refine ⟨hidentifier,fun _ _ => by rw [hchanged],?_,Or.inr (Or.inl hgaps)⟩
  rw [hcorrupted]
  split_ifs
  · exact Or.inl rfl
  · exact Or.inr (Or.inr rfl)

theorem recoverPart_turn {b : Bool} :
    Turn q f (f.recoverPart b q (partStart q) (f.partEnd q)) := by
  obtain ⟨hidentifier,hchanged,hgaps,hcorrupted⟩ :=
    f.recoverPart_frame b q (partStart q) (f.partEnd q)
  exact ⟨hidentifier,fun _ _ => by rw [hchanged],Or.inr (Or.inl hcorrupted),
    Or.inr (Or.inr hgaps)⟩

variable {r : PartVerdict × Bool × PartFile}

theorem settleComplete_turn (hagree : Agree f r.2.2) :
    Turn q f (settleComplete env q r).2 := by
  obtain ⟨verdict,aichAgreed,f1⟩ := r
  refine hagree.turn ?_
  cases verdict with
  | Unread => exact ⟨rfl,fun _ hi => List.getElem?_set_ne hi.symm,Or.inl rfl,Or.inl rfl⟩
  | Ok => exact (verifiedData_agree.turn dropCorruptedPart_turn).agree addToSharedFiles_agree
  | Bad => exact condemnPart_turn

theorem settleGapped_turn (hagree : Agree f r.2.2) :
    Turn q f (settleGapped env q r).2 := by
  obtain ⟨verdict,aichAgreed,f1⟩ := r
  refine hagree.turn ?_
  cases verdict with
  | Unread => exact Turn.refl q f1
  | Ok => exact recoverPart_turn
  | Bad => exact Turn.refl q f1

theorem verifyPart_turn : Turn q f (f.verifyPart env q).2 := by
  unfold verifyPart
  split_ifs with hchanged hcomplete hsafe hcorrupted
  · exact Turn.refl q f
  · exact Turn.of_unflag (settleComplete_turn hashSinglePart_agree)
  · exact Turn.refl q f
  · exact Turn.of_unflag (settleGapped_turn hashSinglePart_agree)
  · exact Turn.of_unflag (Turn.refl q _)

theorem partCount_congr (h : g.identifier=f.identifier) : g.partCount=f.partCount := by
  rw [partCount,fileSize,h,partCount,fileSize]

theorem haveAICH_congr (h : g.identifier=f.identifier) : g.haveAICH=f.haveAICH := by
  unfold haveAICH
  rw [h]

theorem stored_congr (h : g.identifier=f.identifier) (p : Nat) :
    g.storedMD4 p=f.storedMD4 p ∧ g.storedAICH p=f.storedAICH p := by
  unfold storedMD4 storedAICH availableAICHHashes haveAICH partCount fileSize
  rw [h]
  exact ⟨rfl,rfl⟩

theorem hashSinglePart_ok_congr (h : g.identifier=f.identifier) (hq : q<f.partCount) :
    (g.hashSinglePart env q).1 = .Ok ↔ (f.hashSinglePart env q).1 = .Ok := by
  rw [hashSinglePart_ok hq,hashSinglePart_ok (by rwa [partCount_congr h])]
  unfold Agrees
  rw [h,haveAICH_congr h,(stored_congr h q).1,(stored_congr h q).2]

theorem settleGapped_ok (hagree : Agree f r.2.2) :
    (r.1 = .Ok ∧ (settleGapped env q r).1 = .recovered) ∨
      (r.1 ≠ .Ok ∧ (settleGapped env q r).1 = .incomplete ∧
        (settleGapped env q r).2.gapList=f.gapList ∧
        (settleGapped env q r).2.corruptedParts=f.corruptedParts) := by
  obtain ⟨verdict,aichAgreed,f1⟩ := r
  cases verdict with
  | Ok => exact Or.inl ⟨rfl,rfl⟩
  | Bad => exact Or.inr ⟨by simp,rfl,hagree.gaps,hagree.corrupted⟩
  | Unread => exact Or.inr ⟨by simp,rfl,hagree.gaps,hagree.corrupted⟩

/-- A part with gaps is recovered when it is up for recovery and its verdict is `Ok`, and is left
alone otherwise. -/
theorem verifyPart_gapped (hq : q<f.partCount) (hgapped : f.isComplete q=false) :
    (f.UpForRecovery env q ∧ (f.hashSinglePart env q).1 = .Ok ∧
      (f.verifyPart env q).1 = .recovered) ∨
    (¬(f.UpForRecovery env q ∧ (f.hashSinglePart env q).1 = .Ok) ∧
      (f.verifyPart env q).1 ≠ .recovered ∧ (f.verifyPart env q).1 ≠ .verified ∧
      (f.verifyPart env q).2.gapList=f.gapList ∧
      (f.verifyPart env q).2.corruptedParts=f.corruptedParts) := by
  have hunflag : ¬(f.unflag q).isComplete q=true := by
    rw [Bool.not_eq_true]
    exact hgapped
  have hok : ((f.unflag q).hashSinglePart env q).1 = .Ok ↔ (f.hashSinglePart env q).1 = .Ok :=
    hashSinglePart_ok_congr rfl hq
  unfold verifyPart
  split_ifs with hchanged hup
  · exact Or.inr ⟨fun h => hchanged h.1.1,by simp,by simp,rfl,rfl⟩
  · have hUp : f.UpForRecovery env q := by
      rw [Bool.and_eq_true] at hup
      exact ⟨not_not.mp hchanged,hgapped,hup.1,hup.2⟩
    rcases @settleGapped_ok (f.unflag q) env q _
      (@hashSinglePart_agree (f.unflag q) env q) with
      ⟨hverdict,hrecovered⟩ | ⟨hverdict,hincomplete,hgaps,hcorrupted⟩
    · exact Or.inl ⟨hUp,hok.mp hverdict,hrecovered⟩
    · refine Or.inr ⟨fun h => hverdict (hok.mpr h.2),?_,?_,hgaps,hcorrupted⟩
      · rw [hincomplete]
        simp
      · rw [hincomplete]
        simp
  · refine Or.inr ⟨fun h => hup ?_,by simp,by simp,rfl,rfl⟩
    rw [Bool.and_eq_true]
    exact ⟨h.1.2.2.1,h.1.2.2.2⟩

end Turn

section Run

variable {f g : PartFile} {env : VerifyEnv} {p : Nat}

theorem verifyParts_sameAt {parts : List Nat} (hp : p<f.partCount) (hnot : p∉parts)
    (hparts : ∀ q∈parts,q<f.partCount) (hgaps : WellFormed f.fileSize f.gapList) :
    SameAt p f (verifyParts env parts f).2 ∧
      WellFormed (verifyParts env parts f).2.fileSize (verifyParts env parts f).2.gapList ∧
      ∀ o,(p, o)∉(verifyParts env parts f).1 := by
  induction parts generalizing f with
  | nil => exact ⟨SameAt.rfl',hgaps,fun _ h => by cases h⟩
  | cons q parts ih =>
    obtain ⟨hne,hnot'⟩ := List.ne_and_not_mem_of_not_mem_cons hnot
    have hq := hparts q List.mem_cons_self
    have hturn := @verifyPart_turn f env q
    have hsame := hturn.sameAt hp hq hne hgaps
    have hcount := hsame.partCount
    obtain ⟨hrest,hwell,houtcome⟩ := ih (f := (f.verifyPart env q).2) (by rwa [hcount]) hnot'
      (fun r hr => by rw [hcount]; exact hparts r (List.mem_cons_of_mem q hr))
      (hturn.wellFormed hq hgaps)
    refine ⟨hsame.trans hrest,hwell,fun o ho => ?_⟩
    rcases List.mem_cons.mp ho with heq | ho
    · exact hne (congrArg Prod.fst heq)
    · exact houtcome o ho

theorem verifyParts_append (xs ys : List Nat) (f : PartFile) :
    (verifyParts env (xs++ys) f).1 =
      (verifyParts env xs f).1++(verifyParts env ys (verifyParts env xs f).2).1 ∧
    (verifyParts env (xs++ys) f).2=(verifyParts env ys (verifyParts env xs f).2).2 := by
  induction xs generalizing f with
  | nil => exact ⟨rfl,rfl⟩
  | cons x xs ih =>
    obtain ⟨houtcomes,hstate⟩ := ih (f.verifyPart env x).2
    exact ⟨congrArg ((x, (f.verifyPart env x).1) :: ·) houtcomes,hstate⟩

theorem SameAt.isComplete (h : SameAt p f g) (hp : p<f.partCount)
    (hf : WellFormed f.fileSize f.gapList) (hg : WellFormed g.fileSize g.gapList) :
    g.isComplete p=f.isComplete p := by
  rw [Bool.eq_iff_iff,isComplete_iff hf hp,isComplete_iff hg (by rwa [h.partCount])]
  exact forall_congr' fun x => imp_congr_right fun hx => not_congr (h.gaps x hx)

theorem SameAt.upForRecovery (h : SameAt p f g) (hp : p<f.partCount)
    (hf : WellFormed f.fileSize f.gapList) (hg : WellFormed g.fileSize g.gapList) :
    g.UpForRecovery env p ↔ f.UpForRecovery env p := by
  have hcorrupted : g.isCorruptedPart p=f.isCorruptedPart p := by
    unfold isCorruptedPart
    rw [decide_eq_decide,← List.count_pos_iff,h.corrupted,List.count_pos_iff]
  unfold UpForRecovery
  rw [h.changed,h.isComplete hp hf hg,hcorrupted]

/-- A part with gaps is taken for good exactly when it is up for recovery and `hashSinglePart`
answers `Ok`. -/
theorem takenForGood_iff (hgaps : WellFormed f.fileSize f.gapList) (hp : p<f.partCount)
    (hgapped : f.isComplete p=false) :
    f.TakenForGood env p ↔ f.UpForRecovery env p ∧ (f.hashSinglePart env p).1 = .Ok := by
  obtain ⟨xs,ys,hsplit⟩ := List.append_of_mem (List.mem_range.mpr hp)
  have hnodup : (xs++p::ys).Nodup := by
    rw [← hsplit]
    exact List.nodup_range
  have hlt : ∀ q∈xs++p::ys, q<f.partCount := fun q hq => by
    rw [← hsplit] at hq
    exact List.mem_range.mp hq
  obtain ⟨hnotx,hnoty⟩ : p∉xs ∧ p∉ys := by
    have hmiddle := List.nodup_middle.mp hnodup
    exact ⟨fun h => (List.nodup_cons.mp hmiddle).1 (List.mem_append_left ys h),
      fun h => (List.nodup_cons.mp hmiddle).1 (List.mem_append_right xs h)⟩
  obtain ⟨hbefore,hwell,hxs⟩ := @verifyParts_sameAt f env p xs hp hnotx
    (fun q hq => hlt q (List.mem_append_left _ hq)) hgaps
  obtain ⟨houtcomes,hstate⟩ := @verifyParts_append env xs (p::ys) f
  generalize hf1 : (verifyParts env xs f).2=f1 at hbefore hwell houtcomes hstate
  have hp1 : p<f1.partCount := by rwa [hbefore.partCount]
  have hgapped1 : f1.isComplete p=false := by rwa [hbefore.isComplete hp hgaps hwell]
  have hturn := @verifyPart_turn f1 env p
  have hcount : (f1.verifyPart env p).2.partCount=f.partCount :=
    (partCount_congr hturn.identifier).trans hbefore.partCount
  obtain ⟨hafter,-,hys⟩ := @verifyParts_sameAt (f1.verifyPart env p).2 env p ys
    (by rw [hcount]; exact hp) hnoty
    (fun q hq => by rw [hcount]; exact hlt q (List.mem_append_right _ (List.mem_cons_of_mem p hq)))
    (hturn.wellFormed hp1 hwell)
  have hup := @SameAt.upForRecovery f f1 env p hbefore hp hgaps hwell
  have hok := @hashSinglePart_ok_congr f f1 env p hbefore.identifier hp
  unfold TakenForGood verifyChangedParts
  rw [hsplit,houtcomes,hstate]
  rcases @verifyPart_gapped f1 env p hp1 hgapped1 with
    ⟨hUp,hOk,hrecovered⟩ | ⟨hnot,hrec,hver,hsamegaps,hsamecorrupted⟩
  · refine iff_of_true (Or.inr (Or.inr (Or.inl ?_))) ⟨hup.mp hUp,hok.mp hOk⟩
    exact List.mem_append_right _ (List.mem_cons.mpr (Or.inl (by rw [hrecovered])))
  · have houtcome : ∀ o,(p, o)∈(verifyParts env xs f).1 ++
        (verifyParts env (p::ys) f1).1 → o=(f1.verifyPart env p).1 := by
      intro o ho
      rcases List.mem_append.mp ho with ho | ho
      · exact absurd ho (hxs o)
      · rcases List.mem_cons.mp ho with heq | ho
        · exact congrArg Prod.snd heq
        · exact absurd ho (hys o)
    have hkept : ∀ x,x/PARTSIZE=p →
        (x∈union (verifyParts env (p::ys) f1).2.gapList ↔ x∈union f.gapList) := by
      intro x hx
      have hlast := hafter.gaps x hx
      rw [hsamegaps] at hlast
      exact hlast.trans (hbefore.gaps x hx)
    have hlisted : (verifyParts env (p::ys) f1).2.corruptedParts.count (UInt16.ofNat p) =
        f.corruptedParts.count (UInt16.ofNat p) := by
      have hlast := hafter.corrupted
      rw [hsamecorrupted] at hlast
      exact hlast.trans hbefore.corrupted
    refine iff_of_false ?_ fun h => hnot ⟨hup.mpr h.1,hok.mpr h.2⟩
    rintro (⟨x,hx,hgap,hclosed⟩ | hdropped | hrecovered | hverified)
    · exact hclosed ((hkept x hx).mpr hgap)
    · exact absurd hdropped (Nat.not_lt.mpr (Nat.le_of_eq hlisted.symm))
    · exact hrec (houtcome _ hrecovered).symm
    · exact hver (houtcome _ hverified).symm

/-- A part with gaps is taken for good only on a comparison that ran, with none that failed, exactly
when every part up for recovery has a hash to compare with. -/
theorem recovers_compared_iff (env : VerifyEnv) (f : PartFile)
    (hgaps : WellFormed f.fileSize f.gapList) :
    (∀ p < f.partCount, f.isComplete p = false → f.TakenForGood env p →
      f.Compared (env.digest p) p ∧ f.Agrees (env.digest p) p) ↔
    ∀ p < f.partCount, f.UpForRecovery env p → f.Comparable (env.digest p) p := by
  constructor
  · intro hsound p hp hup
    by_contra hcomp
    have hok := ok_of_not_comparable hp hcomp
    have hgood := (takenForGood_iff hgaps hp hup.2.1).mpr ⟨hup,hok⟩
    exact not_compared_of_not_comparable hcomp (hsound p hp hup.2.1 hgood).1
  · intro hcomp p hp hgapped hgood
    obtain ⟨hup,hok⟩ := (takenForGood_iff hgaps hp hgapped).mp hgood
    exact compared_of_ok hp hok (hcomp p hp hup)

end Run

/-- A download of two parts without part hashes; the first was found corrupted and lacks 100
bytes. -/
def corruptedDownload (md4HashSet : List MD4Hash) : PartFile where
  identifier := ⟨PARTSIZE+1,.zero 16,.zero 20,false,md4HashSet,[]⟩
  gapList := [⟨0,99⟩]
  bufferedData := []
  flushingData := []
  requestedBlocks := []
  corruptedParts := [0]
  changedParts := [true]
  partsAwaitingHashset := []
  corruptionBlackBox := .init (PARTSIZE+1)
  corruptionLoss := PARTSIZE
  ichPartsSaved := 0
  status := .Empty
  destroying := false
  md4HashsetNeeded := true
  aichPartHashsetNeeded := true

/-- Every part reads back, and hashes to zero. -/
def readBack : VerifyEnv where
  forceICH := false
  noAICH := false
  digests := none
  digestPart _ := ⟨true,.zero 16,false,.zero 20⟩
  useICH := true
  sharedFileList := false

theorem corruptedDownload_wellFormed (hashes : List MD4Hash) :
    WellFormed (corruptedDownload hashes).fileSize (corruptedDownload hashes).gapList :=
  (WellFormed.nil _).cons ⟨by decide,(by decide : 99<PARTSIZE+1)⟩ fun _ h =>
    absurd h List.not_mem_nil

theorem recovers_compared_iff_hashed :
    (corruptedDownload [.zero 16, .zero 16]).Compared (readBack.digest 0) 0 :=
  ((recovers_compared_iff readBack (corruptedDownload [.zero 16,.zero 16])
    (corruptedDownload_wellFormed _)).mpr (fun p _ hup => by
      have hpart : p=0 := by
        cases p with
        | zero => rfl
        | succ p => exact absurd hup.1 (by simp [corruptedDownload])
      subst hpart
      exact ⟨Or.inl (by decide +kernel),fun _ => Or.inl (by decide +kernel)⟩)
    0 (by decide +kernel) (by decide +kernel)
    (Or.inr (Or.inr (Or.inl (by decide +kernel))))).1

/-- Without a hash set the gap is closed although nothing was compared. -/
theorem recovered_unchecked :
    (corruptedDownload []).isComplete 0 = false ∧
      (corruptedDownload []).isCorruptedPart 0 = true ∧
      ((corruptedDownload []).verifyChangedParts readBack).1 = [(0, .recovered), (1, .unchanged)] ∧
      ((corruptedDownload []).verifyChangedParts readBack).2.gapList = [] ∧
      ((corruptedDownload []).verifyChangedParts readBack).2.corruptedParts = [] ∧
      ¬(corruptedDownload []).Compared (readBack.digest 0) 0 := by
  refine ⟨by decide +kernel,by decide +kernel,by decide +kernel,by decide +kernel,
    by decide +kernel,not_compared_of_not_comparable fun hcomp => ?_⟩
  exact absurd hcomp.1 (by decide +kernel)

end PartFile

end EmuleQt.Files
