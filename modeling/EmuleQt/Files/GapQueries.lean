import EmuleQt.Files.GapList
import Mathlib.Data.Set.Card

namespace EmuleQt.Math.Interval

variable {size : Nat} {i : Interval} {is : List Interval}

theorem union_cons : union (i::is)=i.points ∪ union is := Set.ext fun _ => mem_union_cons

theorem finite_points (i : Interval) : i.points.Finite := Set.finite_Icc i.start i.stop

theorem finite_union (is : List Interval) : (union is).Finite := by
  induction is with
  | nil => exact Set.finite_empty.subset fun x hx => absurd hx mem_union_nil
  | cons i is ih =>
    rw [union_cons]
    exact (finite_points i).union ih

theorem ncard_points (i : Interval) : i.points.ncard=i.stop+1-i.start := by
  rw [points,← Finset.coe_Icc,Set.ncard_coe_finset,Nat.card_Icc]

theorem Inside.union_lt (h : Inside size is) {x : Nat} (hx : x∈union is) : x<size := by
  obtain ⟨i,hi,-,hstop⟩ := mem_union.mp hx
  exact Nat.lt_of_le_of_lt hstop (h i hi).2

theorem Inside.ncard_le (h : Inside size is) : (union is).ncard ≤ size := by
  have hsub : union is ⊆ Set.Ico 0 size := fun x hx => ⟨Nat.zero_le x,h.union_lt hx⟩
  calc (union is).ncard≤(Set.Ico 0 size).ncard := Set.ncard_le_ncard hsub (Set.finite_Ico 0 size)
    _ = size := by rw [← Finset.coe_Ico,Set.ncard_coe_finset,Nat.card_Ico,Nat.sub_zero]

theorem ncard_points_inter (i : Interval) (start stop : Nat) :
    (i.points ∩ Set.Icc start stop).ncard=min i.stop stop+1-max i.start start := by
  have hmeet : i.points ∩ Set.Icc start stop=points ⟨max i.start start,min i.stop stop⟩ := by
    ext x
    simp only [Set.mem_inter_iff,mem_points,Set.mem_Icc]
    omega
  rw [hmeet,ncard_points]

end EmuleQt.Math.Interval

namespace EmuleQt.Files

open Math Math.Interval

def isPureGap (start stop : Nat) : List Interval → Bool
  | [] => false
  | gap :: gapList =>
    if gap.start ≤ start ∧ gap.stop ≥ stop then true
    else if gap.start > start then false
    else isPureGap start stop gapList

/-- The sum of `updateCompletedInfos` and of `totalGapSize`. -/
def totalGapSize : List Interval → Nat
  | [] => 0
  | gap :: gapList => gap.stop - gap.start + 1 + totalGapSize gapList

/-- The loop of `getFilledArray`; `pos` is the first byte not yet looked at. -/
def filledFrom (fileSize pos : Nat) : List Interval → List Interval
  | [] => if pos<fileSize then [⟨pos,fileSize-1⟩] else []
  | gap::gapList =>
    if gap.start>pos then ⟨pos,gap.start-1⟩ :: filledFrom fileSize (gap.stop+1) gapList
    else filledFrom fileSize (gap.stop+1) gapList

def getFilledArray (fileSize : Nat) (gapList : List Interval) : List Interval :=
  if fileSize = 0 then [] else filledFrom fileSize 0 gapList

section Merged

variable {fileSize start stop : Nat} {gapList : List Interval}

theorem Separated.of_cons {gap : Interval} (h : Separated (gap::gapList)) :
    (∀ g∈gapList,gap.stop+1<g.start) ∧ Separated gapList := List.pairwise_cons.mp h

theorem addGapLoop_separated (hle : start ≤ stop) (hinside : Inside fileSize gapList)
    (h : Separated gapList) : Separated (addGapLoop start stop gapList) := by
  induction gapList generalizing start stop with
  | nil => exact List.pairwise_singleton _ _
  | cons it gapList ih =>
    obtain ⟨hafter,htail⟩ := Separated.of_cons h
    have hinside' : Inside fileSize gapList := fun g hg => hinside g (List.mem_cons_of_mem it hg)
    rw [addGapLoop]
    split_ifs with hbehind htouch
    · refine List.pairwise_cons.mpr ⟨fun g hg => ?_,h⟩
      rcases List.mem_cons.mp hg with rfl | hg
      · exact hbehind
      · have hit := (hinside it List.mem_cons_self).1
        have hlater := hafter g hg
        simp only
        omega
    · have hjoined : min start it.start ≤ max stop it.stop :=
        Nat.le_trans (Nat.min_le_left _ _) (Nat.le_trans hle (Nat.le_max_left _ _))
      exact ih hjoined hinside' htail
    · refine List.pairwise_cons.mpr ⟨fun g hg => ?_,ih hle hinside' htail⟩
      exact lt_start_addGapLoop (by omega) hafter g hg

theorem fillGapLoop_separated (hle : start ≤ stop) (h : Separated gapList) :
    Separated (fillGapLoop start stop gapList) := by
  induction gapList with
  | nil => exact h
  | cons it gapList ih =>
    obtain ⟨hafter,htail⟩ := Separated.of_cons h
    have hrest := ih htail
    have hlow : ∀ {b}, b ≤ it.stop+1 → ∀ g∈fillGapLoop start stop gapList, b<g.start :=
      fun hb => lt_start_fillGapLoop fun g hg => Nat.lt_of_le_of_lt hb (hafter g hg)
    rw [fillGapLoop]
    split_ifs with h1 h2 h3 h4 h5
    · exact h
    · exact List.pairwise_cons.mpr ⟨hlow (Nat.le_refl _),hrest⟩
    · exact hrest
    · exact List.pairwise_cons.mpr ⟨hlow (Nat.le_refl _),hrest⟩
    · exact List.pairwise_cons.mpr ⟨hlow (by simp only; omega),hrest⟩
    · refine List.pairwise_cons.mpr ⟨fun g hg => ?_,List.pairwise_cons.mpr ⟨hafter,htail⟩⟩
      rcases List.mem_cons.mp hg with rfl | hg
      · simp only
        omega
      · have hlater := hafter g hg
        simp only
        omega

theorem addGap_separated (hwell : WellFormed fileSize gapList) (h : Separated gapList)
    (hstart : start<fileSize) : Separated (addGap fileSize start stop gapList) := by
  rw [addGap]
  split_ifs with hempty hzero hcut
  · exact h
  · exact h
  · exact addGapLoop_separated (by omega) hwell.inside h
  · exact addGapLoop_separated (by omega) hwell.inside h

theorem fillGap_separated (h : Separated gapList) : Separated (fillGap start stop gapList) := by
  rw [fillGap]
  split_ifs with hempty
  · exact h
  · exact fillGapLoop_separated (by omega) h

end Merged

section Queries

variable {fileSize start stop : Nat} {gapList : List Interval}

theorem isPureGap_iff (hle : start ≤ stop) (hinside : Inside fileSize gapList)
    (hmerged : Separated gapList) :
    isPureGap start stop gapList=true ↔ Set.Icc start stop ⊆ union gapList := by
  induction gapList with
  | nil =>
    refine iff_of_false (by simp [isPureGap]) fun hsub => ?_
    exact mem_union_nil (hsub ⟨Nat.le_refl start,hle⟩)
  | cons gap gapList ih =>
    obtain ⟨hafter,htail⟩ := Separated.of_cons hmerged
    have hinside' : Inside fileSize gapList := fun g hg => hinside g (List.mem_cons_of_mem gap hg)
    have hgap := (hinside gap List.mem_cons_self).1
    have hbehind : ∀ {x}, x∈union gapList → gap.stop+1<x := by
      intro x hx
      obtain ⟨g,hg,hlow,-⟩ := mem_union.mp hx
      exact Nat.lt_of_lt_of_le (hafter g hg) hlow
    rw [isPureGap]
    split_ifs with hholds hpast
    · refine iff_of_true rfl fun x hx => mem_union_cons.mpr (Or.inl ?_)
      exact ⟨Nat.le_trans hholds.1 hx.1,Nat.le_trans hx.2 hholds.2⟩
    · refine iff_of_false (by simp) fun hsub => ?_
      rcases mem_union_cons.mp (hsub ⟨Nat.le_refl start,hle⟩) with hin | hrest
      · omega
      · have hlater := hbehind hrest
        omega
    · rw [ih hinside' htail]
      constructor
      · intro hsub x hx
        exact mem_union_cons.mpr (Or.inr (hsub hx))
      · intro hsub
        -- the byte behind this gap is in no gap, so the range cannot start in it
        have hclear : gap.stop<start := by
          by_contra hin
          have hnext : gap.stop+1∈Set.Icc start stop := ⟨by omega,by omega⟩
          rcases mem_union_cons.mp (hsub hnext) with hself | hrest
          · omega
          · exact absurd (hbehind hrest) (Nat.lt_irrefl _)
        intro x hx
        refine (mem_union_cons.mp (hsub hx)).resolve_left fun hin => ?_
        have hlow := hx.1
        omega

theorem ncard_cons_inter {gap : Interval} (hafter : ∀ g∈gapList,gap.stop<g.start)
    (range : Set Nat) : (union (gap::gapList) ∩ range).ncard =
      (gap.points ∩ range).ncard+(union gapList ∩ range).ncard := by
  have happart : Disjoint (gap.points ∩ range) (union gapList ∩ range) := by
    refine Set.disjoint_left.mpr fun x hx hrest => ?_
    have hstop := hx.1.2
    have hlater := WellFormed.lt_of_mem_union hafter hrest.1
    omega
  rw [union_cons,Set.union_inter_distrib_right,Set.ncard_union_eq happart
    ((finite_points gap).inter_of_left _) ((finite_union gapList).inter_of_left _)]

theorem totalGapSize_eq (h : WellFormed fileSize gapList) :
    totalGapSize gapList=(union gapList).ncard := by
  induction gapList with
  | nil =>
    have hnone : union [] = ∅ := Set.eq_empty_of_forall_notMem fun x => mem_union_nil
    rw [hnone,Set.ncard_empty,totalGapSize]
  | cons gap gapList ih =>
    obtain ⟨hgap,hafter,htail⟩ := h.of_cons
    have hsplit := ncard_cons_inter hafter Set.univ
    simp only [Set.inter_univ] at hsplit
    rw [totalGapSize,hsplit,ncard_points,ih htail]
    omega

theorem totalGapSizeInRange_eq (hle : start ≤ stop) (h : WellFormed fileSize gapList) :
    totalGapSizeInRange start stop gapList=(union gapList ∩ Set.Icc start stop).ncard := by
  induction gapList with
  | nil =>
    have hnone : union [] ∩ Set.Icc start stop = ∅ :=
      Set.eq_empty_of_forall_notMem fun x hx => mem_union_nil hx.1
    rw [hnone,Set.ncard_empty,totalGapSizeInRange]
  | cons gap gapList ih =>
    obtain ⟨hgap,hafter,htail⟩ := h.of_cons
    rw [totalGapSizeInRange]
    split_ifs with hpast hbefore
    · -- this gap and the later ones start behind the range
      have hnone : union (gap::gapList) ∩ Set.Icc start stop = ∅ := by
        refine Set.eq_empty_of_forall_notMem fun x hx => ?_
        have hstop := hx.2.2
        rcases mem_union_cons.mp hx.1 with hin | hrest
        · omega
        · have hlater := WellFormed.lt_of_mem_union hafter hrest
          omega
      rw [hnone,Set.ncard_empty]
    · rw [ncard_cons_inter hafter,ncard_points_inter,← ih htail]
      omega
    · rw [ncard_cons_inter hafter,ncard_points_inter,← ih htail]
      omega

theorem mem_union_filledFrom {pos : Nat} (h : WellFormed fileSize gapList)
    (hpos : ∀ g∈gapList,pos≤g.start) {x : Nat} :
    x∈union (filledFrom fileSize pos gapList) ↔
      pos≤x ∧ x<fileSize ∧ x∉union gapList := by
  induction gapList generalizing pos with
  | nil =>
    rw [filledFrom]
    split_ifs with hleft
    · simp only [mem_union_cons,mem_union_nil,or_false,not_false_eq_true,and_true]
      omega
    · simp only [mem_union_nil,not_false_eq_true,and_true,false_iff]
      omega
  | cons gap gapList ih =>
    obtain ⟨hgap,hafter,htail⟩ := h.of_cons
    have hlow := hpos gap List.mem_cons_self
    have hrest := @ih (gap.stop+1) htail fun g hg => hafter g hg
    have hbehind : x∈union gapList → gap.stop<x := WellFormed.lt_of_mem_union hafter
    rw [filledFrom]
    split_ifs with hbefore
    · rw [mem_union_cons,hrest,mem_union_cons,not_or]
      by_cases hx : x∈union gapList
      · have hlater := hbehind hx
        simp only [hx,not_true,and_false,or_false,iff_false]
        omega
      · simp only [hx,not_false_eq_true,and_true]
        omega
    · rw [hrest,mem_union_cons,not_or]
      by_cases hx : x∈union gapList
      · simp only [hx,not_true,and_false]
      · simp only [hx,not_false_eq_true,and_true]
        omega

theorem filledFrom_lower {pos : Nat} (h : WellFormed fileSize gapList)
    (hpos : ∀ g∈gapList,pos≤g.start) :
    ∀ i∈filledFrom fileSize pos gapList, pos ≤ i.start := by
  induction gapList generalizing pos with
  | nil =>
    intro i hi
    rw [filledFrom] at hi
    split_ifs at hi with hleft
    · rw [List.mem_singleton.mp hi]
    · exact absurd hi List.not_mem_nil
  | cons gap gapList ih =>
    obtain ⟨hgap,hafter,htail⟩ := h.of_cons
    have hlow := hpos gap List.mem_cons_self
    have hrest := @ih (gap.stop+1) htail fun g hg => hafter g hg
    intro i hi
    rw [filledFrom] at hi
    split_ifs at hi with hbefore
    · rcases List.mem_cons.mp hi with rfl | hi
      · exact Nat.le_refl _
      · have hlater := hrest i hi
        omega
    · have hlater := hrest i hi
      omega

theorem filledFrom_wellFormed {pos : Nat} (h : WellFormed fileSize gapList)
    (hpos : ∀ g∈gapList,pos≤g.start) :
    WellFormed fileSize (filledFrom fileSize pos gapList) ∧
      Separated (filledFrom fileSize pos gapList) := by
  induction gapList generalizing pos with
  | nil =>
    rw [filledFrom]
    split_ifs with hleft
    · have hlast : pos≤fileSize-1 ∧ fileSize-1<fileSize := by omega
      exact ⟨(WellFormed.nil fileSize).cons hlast fun g hg => absurd hg List.not_mem_nil,
        List.pairwise_singleton _ _⟩
    · exact ⟨WellFormed.nil fileSize,List.Pairwise.nil⟩
  | cons gap gapList ih =>
    obtain ⟨hgap,hafter,htail⟩ := h.of_cons
    have hnext : ∀ g∈gapList,gap.stop+1≤g.start := fun g hg => hafter g hg
    obtain ⟨hrest,happart⟩ := ih htail hnext
    rw [filledFrom]
    split_ifs with hbefore
    · have hlower := filledFrom_lower htail hnext
      have hpiece : pos≤gap.start-1 ∧ gap.start-1<fileSize := by omega
      refine ⟨hrest.cons hpiece fun g hg => ?_,List.pairwise_cons.mpr ⟨fun g hg => ?_,happart⟩⟩
      · have hg' := hlower g hg
        simp only
        omega
      · have hg' := hlower g hg
        simp only
        omega
    · exact ⟨hrest,happart⟩

theorem getFilledArray_correct (h : WellFormed fileSize gapList) :
    union (getFilledArray fileSize gapList) = {x | x<fileSize ∧ x∉union gapList} ∧
      WellFormed fileSize (getFilledArray fileSize gapList) ∧
      Separated (getFilledArray fileSize gapList) := by
  rw [getFilledArray]
  split_ifs with hzero
  · refine ⟨?_,WellFormed.nil fileSize,List.Pairwise.nil⟩
    ext x
    simp only [mem_union_nil,Set.mem_ofPred_eq,false_iff]
    omega
  · refine ⟨?_,filledFrom_wellFormed h fun g _ => Nat.zero_le g.start⟩
    ext x
    rw [mem_union_filledFrom h fun g _ => Nat.zero_le g.start,Set.mem_ofPred_eq,
      and_iff_right (Nat.zero_le x)]

end Queries

end EmuleQt.Files
