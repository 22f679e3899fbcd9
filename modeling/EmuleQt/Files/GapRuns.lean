import EmuleQt.Files.GapQueries
import EmuleQt.Files.PartFile
import Mathlib.Order.CompletePartialOrder

namespace EmuleQt.Files

open Math Math.Interval Crypto Utils

/-- What the gap functions of a `PartFile` read and write. A gap ends below `fileSize`, so no end
plus one leaves uint64. -/
structure GapFile where
  fileSize : Nat
  gapList : List Interval
  completedSize : Nat
  deriving DecidableEq

namespace GapFile

/-- A `PartFile` as it is constructed. -/
def new : GapFile := ⟨0, [], 0⟩

def updateCompletedInfos (f : GapFile) : GapFile :=
  if f.fileSize = 0 then { f with completedSize := 0 }
  else
    let totalGaps := totalGapSize f.gapList
    { f with completedSize := if f.fileSize > totalGaps then f.fileSize - totalGaps else 0 }

def setFileSize (size : Nat) (f : GapFile) : GapFile :=
  let gapList := if size > 0 ∧ f.gapList = [] then [⟨0, size - 1⟩] else f.gapList
  updateCompletedInfos { f with fileSize := size, gapList := gapList }

def addGap (start stop : Nat) (f : GapFile) : GapFile :=
  if start > stop then f
  else if f.fileSize = 0 then f
  else updateCompletedInfos { f with gapList := Files.addGap f.fileSize start stop f.gapList }

def fillGap (start stop : Nat) (f : GapFile) : GapFile :=
  if start > stop then f
  else updateCompletedInfos { f with gapList := Files.fillGap start stop f.gapList }

def isComplete (start stop : Nat) (f : GapFile) : Bool := isCompleteRange start stop f.gapList

/-- `isComplete` of a part. -/
def isCompletePart (part : Nat) (f : GapFile) : Bool :=
  decide (part<partsOf f.fileSize%2^16) &&
    f.isComplete (PartFile.partStart part)
      (min (PartFile.partStart part+PARTSIZE-1) (f.fileSize-1))

def isPureGap (start stop : Nat) (f : GapFile) : Bool := Files.isPureGap start stop f.gapList

def totalGapSizeInRange (start stop : Nat) (f : GapFile) : Nat :=
  Files.totalGapSizeInRange start stop f.gapList

def getFilledArray (f : GapFile) : List Interval := Files.getFilledArray f.fileSize f.gapList

/-- The bytes of the file that are not there yet. -/
def missing (f : GapFile) : Set Nat := union f.gapList

/-- States of a file whose size was set and whose gaps were then only added and filled; a size
read in two halves only grows. -/
inductive Reachable : GapFile → Prop
  | new : Reachable new
  | setFileSize {f : GapFile} (size : Nat) : f.fileSize ≤ size → Reachable f →
      Reachable (f.setFileSize size)
  | addGap {f : GapFile} (start stop : Nat) : start ≤ stop → start < f.fileSize → Reachable f →
      Reachable (f.addGap start stop)
  | fillGap {f : GapFile} (start stop : Nat) : start ≤ stop → Reachable f →
      Reachable (f.fillGap start stop)

/-- The list is in order, merged and inside the file, and the size done is up to date. -/
structure Sound (f : GapFile) : Prop where
  wellFormed : WellFormed f.fileSize f.gapList
  merged : Separated f.gapList
  completed : f.completedSize = f.fileSize - f.missing.ncard

section Steps

variable {f : GapFile} {start stop size : Nat}

@[simp] theorem updateCompletedInfos_gapList : f.updateCompletedInfos.gapList=f.gapList := by
  rw [updateCompletedInfos]
  split_ifs <;> rfl

@[simp] theorem updateCompletedInfos_fileSize : f.updateCompletedInfos.fileSize=f.fileSize := by
  rw [updateCompletedInfos]
  split_ifs <;> rfl

theorem updateCompletedInfos_sound (hwell : WellFormed f.fileSize f.gapList)
    (hmerged : Separated f.gapList) : f.updateCompletedInfos.Sound := by
  refine ⟨by simpa using hwell,by simpa using hmerged,?_⟩
  have hcount := totalGapSize_eq hwell
  have hmissing : f.updateCompletedInfos.missing=union f.gapList := by simp [missing]
  rw [hmissing,updateCompletedInfos_fileSize,updateCompletedInfos,← hcount]
  split_ifs with hzero
  · simp [hzero]
  · simp only
    split_ifs with hmore
    · rfl
    · omega

theorem setFileSize_sound (hgrows : f.fileSize ≤ size) (h : f.Sound) :
    (f.setFileSize size).Sound := by
  have hinside : Inside size f.gapList := fun g hg =>
    ⟨(h.wellFormed.inside g hg).1,Nat.lt_of_lt_of_le (h.wellFormed.inside g hg).2 hgrows⟩
  rw [setFileSize]
  split_ifs with hfresh
  · refine updateCompletedInfos_sound ?_ (List.pairwise_singleton _ _)
    exact (WellFormed.nil size).cons ⟨Nat.zero_le _,by simp only; omega⟩
      fun g hg => absurd hg List.not_mem_nil
  · exact updateCompletedInfos_sound ⟨hinside,h.wellFormed.ascending⟩ h.merged

theorem addGap_sound (hstart : start<f.fileSize) (h : f.Sound) : (f.addGap start stop).Sound := by
  rw [addGap]
  split_ifs with hempty hzero
  · exact h
  · exact h
  · exact updateCompletedInfos_sound (addGap_wellFormed h.wellFormed hstart)
      (addGap_separated h.wellFormed h.merged hstart)

theorem fillGap_sound (h : f.Sound) : (f.fillGap start stop).Sound := by
  rw [fillGap]
  split_ifs with hempty
  · exact h
  · exact updateCompletedInfos_sound (fillGap_wellFormed h.wellFormed) (fillGap_separated h.merged)

theorem missing_addGap (h : f.Sound) (hstart : start<f.fileSize) :
    (f.addGap start stop).missing=f.missing ∪ Set.Icc start (min stop (f.fileSize-1)) := by
  ext x
  have hlist := @mem_union_addGap f.fileSize start stop f.gapList h.wellFormed hstart x
  have hstep : x∈(f.addGap start stop).missing ↔
      x∈union (Files.addGap f.fileSize start stop f.gapList) := by
    rw [addGap,missing]
    split_ifs with hempty hzero
    · rw [Files.addGap,if_pos hempty]
    · omega
    · rw [updateCompletedInfos_gapList]
  rw [hstep,hlist,missing,Set.mem_union,Set.mem_Icc]
  exact or_congr_right (by omega)

theorem missing_fillGap (h : f.Sound) :
    (f.fillGap start stop).missing=f.missing \ Set.Icc start stop := by
  ext x
  have hlist := @mem_union_fillGap f.fileSize start stop f.gapList h.wellFormed x
  have hstep : x∈(f.fillGap start stop).missing ↔
      x∈union (Files.fillGap start stop f.gapList) := by
    rw [fillGap,missing]
    split_ifs with hempty
    · rw [Files.fillGap,if_pos hempty]
    · rw [updateCompletedInfos_gapList]
  rw [hstep,hlist,missing,Set.mem_sdiff,Set.mem_Icc]

theorem Reachable.sound (h : Reachable f) : f.Sound := by
  induction h with
  | new =>
    exact ⟨WellFormed.nil 0,List.Pairwise.nil,(Nat.zero_sub _).symm⟩
  | setFileSize size hgrows _ ih => exact setFileSize_sound hgrows ih
  | addGap start stop _ hstart _ ih => exact addGap_sound hstart ih
  | fillGap start stop _ _ ih => exact fillGap_sound ih

theorem missing_setFileSize_new : (new.setFileSize size).missing=Set.Iio size := by
  ext x
  rw [missing,setFileSize,updateCompletedInfos_gapList,Set.mem_Iio]
  simp only [new,and_true]
  split_ifs with hsize
  · simp only [mem_union_cons,mem_union_nil,or_false]
    omega
  · simp only [mem_union_nil,false_iff]
    omega

theorem isComplete_iff (hle : start ≤ stop) (h : f.Sound) :
    f.isComplete start stop=true ↔ Disjoint (Set.Icc start stop) f.missing := by
  rw [isComplete,isCompleteRange_iff hle h.wellFormed,Set.disjoint_left]
  exact ⟨fun hall x hx => hall x hx.1 hx.2,fun hall x hlow hhigh => hall ⟨hlow,hhigh⟩⟩

theorem isCompletePart_iff {part : Nat} (h : f.Sound) :
    f.isCompletePart part=true ↔ part<partsOf f.fileSize%2^16 ∧
      Disjoint {x | x/PARTSIZE=part} f.missing := by
  rw [isCompletePart,Bool.and_eq_true,decide_eq_true_iff]
  refine and_congr_right fun hpart => ?_
  have hlow := PartFile.partStart_lt_of_partsOf hpart
  have hpos := PARTSIZE_pos
  rw [isComplete_iff (Nat.le_min.mpr ⟨by omega,by omega⟩) h,Set.disjoint_left,Set.disjoint_left]
  refine forall_congr' fun x => ?_
  have hin : x ∈ {x | x/PARTSIZE=part} ↔
      PartFile.partStart part≤x ∧ x≤PartFile.partStart part+PARTSIZE-1 := by
    rw [Set.mem_ofPred_eq,Nat.div_eq_iff hpos,PartFile.partStart,Nat.mul_comm]
  rw [hin,Set.mem_Icc,Nat.le_min]
  constructor
  · intro hall hx hmem
    have hsize : x<f.fileSize := h.wellFormed.inside.union_lt hmem
    exact hall ⟨hx.1,hx.2,by omega⟩ hmem
  · intro hall hx
    exact hall ⟨hx.1,hx.2.1⟩

end Steps

/-- The list is sorted and stands for the missing bytes, and every function on it computes what
its name says of them. -/
structure IsMissingSet (f : GapFile) : Prop where
  nonempty : ∀ gap∈f.gapList, gap.start≤gap.stop
  inside : ∀ gap∈f.gapList, gap.stop≤f.fileSize-1
  sorted : f.gapList.Pairwise fun a b => a.stop<b.start
  merged : Separated f.gapList
  addGap : ∀ start stop, start ≤ stop → start<f.fileSize →
    (f.addGap start stop).missing=f.missing ∪ Set.Icc start (min stop (f.fileSize-1))
  fillGap : ∀ start stop, start ≤ stop →
    (f.fillGap start stop).missing=f.missing \ Set.Icc start stop
  completedSize : f.missing.ncard≤f.fileSize ∧
    f.completedSize=f.fileSize-f.missing.ncard
  isComplete : ∀ start stop, start ≤ stop →
    (f.isComplete start stop=true ↔ Disjoint (Set.Icc start stop) f.missing)
  isCompletePart : ∀ part, f.isCompletePart part=true ↔
    part<partsOf f.fileSize%2^16 ∧ Disjoint {x | x/PARTSIZE=part} f.missing
  isPureGap : ∀ start stop, start ≤ stop →
    (f.isPureGap start stop=true ↔ Set.Icc start stop ⊆ f.missing)
  totalGapSizeInRange : ∀ start stop, start ≤ stop →
    f.totalGapSizeInRange start stop=(f.missing ∩ Set.Icc start stop).ncard
  getFilledArray : union f.getFilledArray=Set.Iio f.fileSize \ f.missing
  filledSorted : WellFormed f.fileSize f.getFilledArray ∧ Separated f.getFilledArray

theorem Sound.isMissingSet {f : GapFile} (h : f.Sound) : f.IsMissingSet := by
  have hfilled := getFilledArray_correct h.wellFormed
  exact {
    nonempty := fun gap hgap => (h.wellFormed.inside gap hgap).1
    inside := fun gap hgap => Nat.le_sub_one_of_lt (h.wellFormed.inside gap hgap).2
    sorted := h.wellFormed.ascending
    merged := h.merged
    addGap := fun _ _ _ hstart => missing_addGap h hstart
    fillGap := fun _ _ _ => missing_fillGap h
    completedSize := ⟨h.wellFormed.inside.ncard_le,h.completed⟩
    isComplete := fun _ _ hle => isComplete_iff hle h
    isCompletePart := fun _ => isCompletePart_iff h
    isPureGap := fun _ _ hle => isPureGap_iff hle h.wellFormed.inside h.merged
    totalGapSizeInRange := fun _ _ hle => totalGapSizeInRange_eq hle h.wellFormed
    getFilledArray := hfilled.1
    filledSorted := hfilled.2 }

/-- The gap list of every file in reach is its set of missing bytes. -/
theorem gapList_isMissingSet : (∀ size, (new.setFileSize size).missing = Set.Iio size) ∧
    ∀ f, Reachable f → f.IsMissingSet :=
  ⟨fun _ => missing_setFileSize_new,fun _ h => h.sound.isMissingSet⟩

/-- A file of ten bytes of which 3 to 5 came in. -/
def threeIn : GapFile := (new.setFileSize 10).fillGap 3 5

theorem gapList_isMissingSet_threeIn :
    Reachable threeIn ∧ threeIn.gapList = [⟨0, 2⟩, ⟨6, 9⟩] ∧ threeIn.completedSize = 3 ∧
      threeIn.IsMissingSet := by
  have hreach : Reachable threeIn :=
    .fillGap 3 5 (by decide) (.setFileSize 10 (by decide) .new)
  exact ⟨hreach,by decide,by decide,gapList_isMissingSet.2 threeIn hreach⟩

end GapFile

end EmuleQt.Files
