import EmuleQt.Math.Interval

namespace EmuleQt.Files

open Math Math.Interval

/-- The loop of `addGap`: what overlaps or touches the new gap goes into it. -/
def addGapLoop (start stop : Nat) : List Interval → List Interval
  | [] => [⟨start,stop⟩]
  | it::gapList =>
    if it.start>stop+1 then ⟨start,stop⟩ :: it::gapList
    else if it.stop+1≥start then
      addGapLoop (min start it.start) (max stop it.stop) gapList
    else it::addGapLoop start stop gapList

/-- `addGap` in a file of `fileSize` bytes; `stop` is the last byte of the gap. -/
def addGap (fileSize start stop : Nat) (gapList : List Interval) : List Interval :=
  if start > stop then gapList
  else if fileSize = 0 then gapList
  else addGapLoop start (if stop ≥ fileSize then fileSize - 1 else stop) gapList

/-- The loop of `fillGap`. -/
def fillGapLoop (start stop : Nat) : List Interval → List Interval
  | [] => []
  | it::gapList =>
    if it.start>stop then it::gapList
    else if it.stop<start then it::fillGapLoop start stop gapList
    else if start ≤ it.start ∧ stop≥it.stop then fillGapLoop start stop gapList
    else if start ≤ it.start then ⟨stop+1,it.stop⟩ :: fillGapLoop start stop gapList
    else if stop≥it.stop then ⟨it.start,start-1⟩ :: fillGapLoop start stop gapList
    else ⟨it.start,start-1⟩ :: ⟨stop+1,it.stop⟩ :: gapList

def fillGap (start stop : Nat) (gapList : List Interval) : List Interval :=
  if start > stop then gapList else fillGapLoop start stop gapList

def isCompleteRange (start stop : Nat) : List Interval → Bool
  | [] => true
  | gap::gapList =>
    if gap.start>stop then true
    else if gap.stop≥start then false
    else isCompleteRange start stop gapList

def totalGapSizeInRange (start stop : Nat) : List Interval → Nat
  | [] => 0
  | gap :: gapList =>
    if gap.start > stop then 0
    else if gap.stop < start then totalGapSizeInRange start stop gapList
    else min gap.stop stop - max gap.start start + 1 + totalGapSizeInRange start stop gapList

/-- Non-empty gaps inside the file, in order and disjoint. -/
structure WellFormed (fileSize : Nat) (gapList : List Interval) : Prop where
  inside : Inside fileSize gapList
  ascending : Ascending gapList

namespace WellFormed

variable {fileSize start stop : Nat} {gapList : List Interval}

theorem nil (fileSize : Nat) : WellFormed fileSize [] :=
  ⟨fun _ hi => absurd hi List.not_mem_nil,List.Pairwise.nil⟩

theorem of_cons {gap : Interval} (h : WellFormed fileSize (gap::gapList)) :
    (gap.start≤gap.stop ∧ gap.stop<fileSize) ∧
      (∀ g∈gapList,gap.stop<g.start) ∧ WellFormed fileSize gapList := by
  obtain ⟨hafter,htail⟩ := List.pairwise_cons.mp h.ascending
  exact ⟨h.inside gap List.mem_cons_self,hafter,
    fun g hg => h.inside g (List.mem_cons_of_mem gap hg),htail⟩

theorem cons {gap : Interval} (hgap : gap.start≤gap.stop ∧ gap.stop<fileSize)
    (hafter : ∀ g∈gapList,gap.stop<g.start) (h : WellFormed fileSize gapList) :
    WellFormed fileSize (gap::gapList) := by
  refine ⟨fun g hg => ?_,List.pairwise_cons.mpr ⟨hafter,h.ascending⟩⟩
  rcases List.mem_cons.mp hg with rfl | hg
  · exact hgap
  · exact h.inside g hg

theorem lt_of_mem_union {gap : Interval} (h : ∀ g∈gapList,gap.stop<g.start) {x : Nat}
    (hx : x∈union gapList) : gap.stop<x := by
  obtain ⟨g,hg,hstart,-⟩ := mem_union.mp hx
  exact (h g hg).trans_le hstart

end WellFormed

section AddGap

variable {fileSize start stop : Nat} {gapList : List Interval}

theorem mem_union_addGapLoop (hle : start ≤ stop) (h : WellFormed fileSize gapList) {x : Nat} :
    x∈union (addGapLoop start stop gapList) ↔
      x∈union gapList ∨ (start≤x ∧ x ≤ stop) := by
  induction gapList generalizing start stop with
  | nil => simp [addGapLoop]
  | cons it gapList ih =>
    obtain ⟨hit,-,htail⟩ := h.of_cons
    rw [addGapLoop]
    split_ifs with hbehind htouch
    · rw [mem_union_cons,or_comm]
    · have hjoined : min start it.start ≤ max stop it.stop :=
        (Nat.min_le_left _ _).trans (hle.trans (Nat.le_max_left _ _))
      rw [ih hjoined htail,mem_union_cons]
      by_cases hx : x∈union gapList
      · simp [hx]
      · simp only [hx,false_or,or_false]
        omega
    · rw [mem_union_cons,ih hle htail,mem_union_cons,or_assoc]

theorem lt_start_addGapLoop {b : Nat} (hb : b<start) (hgaps : ∀ g∈gapList,b<g.start) :
    ∀ g∈addGapLoop start stop gapList, b<g.start := by
  induction gapList generalizing start stop with
  | nil =>
    intro g hg
    rw [addGapLoop,List.mem_singleton] at hg
    rwa [hg]
  | cons it gapList ih =>
    have hit := hgaps it List.mem_cons_self
    have htail : ∀ g∈gapList,b<g.start := fun g hg => hgaps g (List.mem_cons_of_mem it hg)
    intro g hg
    rw [addGapLoop] at hg
    split_ifs at hg with hbehind htouch
    · rcases List.mem_cons.mp hg with rfl | hg
      · exact hb
      · exact hgaps g hg
    · exact ih (Nat.lt_min.mpr ⟨hb,hit⟩) htail g hg
    · rcases List.mem_cons.mp hg with rfl | hg
      · exact hit
      · exact ih hb htail g hg

theorem addGapLoop_wellFormed (hle : start ≤ stop) (hsize : stop<fileSize)
    (h : WellFormed fileSize gapList) : WellFormed fileSize (addGapLoop start stop gapList) := by
  induction gapList generalizing start stop with
  | nil => exact (WellFormed.nil fileSize).cons ⟨hle,hsize⟩ fun _ hg => by cases hg
  | cons it gapList ih =>
    obtain ⟨hit,hafter,htail⟩ := h.of_cons
    rw [addGapLoop]
    split_ifs with hbehind htouch
    · refine h.cons ⟨hle,hsize⟩ fun g hg => ?_
      rcases List.mem_cons.mp hg with rfl | hg
      · exact (Nat.lt_succ_self stop).trans hbehind
      · have hg' := hafter g hg
        simp only
        omega
    · exact ih ((Nat.min_le_left _ _).trans (hle.trans (Nat.le_max_left _ _)))
        (Nat.max_lt.mpr ⟨hsize,hit.2⟩) htail
    · exact (ih hle hsize htail).cons hit (lt_start_addGapLoop (by omega) hafter)

theorem mem_union_addGap (h : WellFormed fileSize gapList) (hstart : start<fileSize) {x : Nat} :
    x∈union (addGap fileSize start stop gapList) ↔
      x∈union gapList ∨ (start≤x ∧ x ≤ stop ∧ x<fileSize) := by
  rw [addGap]
  split_ifs with hempty hzero hcut
  · rw [or_iff_left (by omega)]
  · omega
  · rw [mem_union_addGapLoop (by omega) h]
    exact or_congr_right (by omega)
  · rw [mem_union_addGapLoop (by omega) h]
    exact or_congr_right (by omega)

theorem addGap_wellFormed (h : WellFormed fileSize gapList) (hstart : start<fileSize) :
    WellFormed fileSize (addGap fileSize start stop gapList) := by
  rw [addGap]
  split_ifs with hempty hzero hcut
  · exact h
  · exact h
  · exact addGapLoop_wellFormed (by omega) (by omega) h
  · exact addGapLoop_wellFormed (by omega) (by omega) h

end AddGap

section FillGap

variable {fileSize start stop : Nat} {gapList : List Interval}

theorem mem_union_fillGapLoop (hle : start ≤ stop) (h : WellFormed fileSize gapList) {x : Nat} :
    x∈union (fillGapLoop start stop gapList) ↔
      x∈union gapList ∧ ¬(start≤x ∧ x ≤ stop) := by
  induction gapList with
  | nil => simp [fillGapLoop]
  | cons it gapList ih =>
    obtain ⟨hit,hafter,htail⟩ := h.of_cons
    have hbehind : ∀ {x}, x∈union gapList → it.stop<x := WellFormed.lt_of_mem_union hafter
    have hrest := ih htail
    rw [fillGapLoop]
    by_cases hx : x∈union gapList
    · have hlt := hbehind hx
      simp only [hx,true_and] at hrest
      split_ifs <;> simp only [mem_union_cons,hx,hrest,or_true,true_and,true_iff] <;> omega
    · simp only [hx,false_and,iff_false] at hrest
      split_ifs <;> simp only [mem_union_cons,hx,hrest,or_false,false_iff] <;> omega

theorem lt_start_fillGapLoop {b : Nat} (hgaps : ∀ g∈gapList,b<g.start) :
    ∀ g∈fillGapLoop start stop gapList, b<g.start := by
  induction gapList with
  | nil => exact fun _ hg => by cases hg
  | cons it gapList ih =>
    have hit := hgaps it List.mem_cons_self
    have htail : ∀ g∈gapList,b<g.start := fun g hg => hgaps g (List.mem_cons_of_mem it hg)
    have hrest := ih htail
    intro g hg
    rw [fillGapLoop] at hg
    split_ifs at hg with h1 h2 h3 h4 h5
    · exact hgaps g hg
    · rcases List.mem_cons.mp hg with rfl | hg
      · exact hit
      · exact hrest g hg
    · exact hrest g hg
    · rcases List.mem_cons.mp hg with rfl | hg
      · simp only
        omega
      · exact hrest g hg
    · rcases List.mem_cons.mp hg with rfl | hg
      · exact hit
      · exact hrest g hg
    · rcases List.mem_cons.mp hg with rfl | hg
      · exact hit
      · rcases List.mem_cons.mp hg with rfl | hg
        · simp only
          omega
        · exact htail g hg

theorem fillGapLoop_wellFormed (hle : start ≤ stop) (h : WellFormed fileSize gapList) :
    WellFormed fileSize (fillGapLoop start stop gapList) := by
  induction gapList with
  | nil => exact h
  | cons it gapList ih =>
    obtain ⟨hit,hafter,htail⟩ := h.of_cons
    have hrest := ih htail
    have hlow : ∀ {b}, b ≤ it.stop → ∀ g∈fillGapLoop start stop gapList, b<g.start :=
      fun hb => lt_start_fillGapLoop fun g hg => hb.trans_lt (hafter g hg)
    rw [fillGapLoop]
    split_ifs with h1 h2 h3 h4 h5
    · exact h
    · exact hrest.cons hit (hlow (Nat.le_refl _))
    · exact hrest
    · exact hrest.cons ⟨by simp only; omega,hit.2⟩ (hlow (Nat.le_refl _))
    · exact hrest.cons ⟨by simp only; omega,by simp only; omega⟩ (hlow (by simp only; omega))
    · have hright : WellFormed fileSize (⟨stop+1,it.stop⟩::gapList) :=
        htail.cons ⟨by simp only; omega,hit.2⟩ hafter
      refine hright.cons ⟨by simp only; omega,by simp only; omega⟩ fun g hg => ?_
      rcases List.mem_cons.mp hg with rfl | hg
      · simp only
        omega
      · have hg' := hafter g hg
        simp only
        omega

theorem mem_union_fillGap (h : WellFormed fileSize gapList) {x : Nat} :
    x∈union (fillGap start stop gapList) ↔
      x∈union gapList ∧ ¬(start≤x ∧ x ≤ stop) := by
  rw [fillGap]
  split_ifs with hempty
  · rw [and_iff_left (by omega)]
  · exact mem_union_fillGapLoop (by omega) h

theorem fillGap_wellFormed (h : WellFormed fileSize gapList) :
    WellFormed fileSize (fillGap start stop gapList) := by
  rw [fillGap]
  split_ifs with hempty
  · exact h
  · exact fillGapLoop_wellFormed (by omega) h

end FillGap

theorem isCompleteRange_iff {fileSize start stop : Nat} (hle : start ≤ stop)
    {gapList : List Interval} (h : WellFormed fileSize gapList) :
    isCompleteRange start stop gapList=true ↔
      ∀ x,start≤x → x ≤ stop → x∉union gapList := by
  induction gapList with
  | nil => simp [isCompleteRange]
  | cons gap gapList ih =>
    obtain ⟨hgap,hafter,htail⟩ := h.of_cons
    have hbehind : ∀ {x}, x∈union gapList → gap.stop<x := WellFormed.lt_of_mem_union hafter
    rw [isCompleteRange]
    split_ifs with hpast hoverlap
    · refine iff_of_true rfl fun x _ hx hmem => ?_
      rcases mem_union_cons.mp hmem with hin | hrest
      · omega
      · have := hbehind hrest
        omega
    · refine iff_of_false (by simp) fun hall => ?_
      exact hall (max start gap.start) (Nat.le_max_left _ _) (Nat.max_le.mpr ⟨hle,by omega⟩)
        (mem_union_cons.mpr (Or.inl (by omega)))
    · rw [ih htail]
      refine forall_congr' fun x => imp_congr_right fun hstart => imp_congr_right fun _ => ?_
      rw [mem_union_cons,not_or,and_iff_right (by omega)]

end EmuleQt.Files
