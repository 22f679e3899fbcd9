import Mathlib.Order.Interval.Set.Basic
import Mathlib.Data.List.Basic
import Mathlib.Data.List.Pairwise
import Mathlib.Data.List.TakeWhile
import Mathlib.Order.MinMax

namespace EmuleQt.Math

/-- `[first, second)`. -/
structure Span (α : Type*) where
  first : α
  second : α
  deriving DecidableEq

namespace Span

variable {α : Type*} [LinearOrder α] {r back : Span α} {rs : List (Span α)} {a b x : α}

def points (r : Span α) : Set α := Set.Ico r.first r.second

/-- The points some span of a list holds. -/
def union (rs : List (Span α)) : Set α := {x | ∃ r ∈ rs, x ∈ r.points}

theorem mem_union : x∈union rs ↔ ∃ r∈rs, r.first≤x ∧ x<r.second := Iff.rfl

@[simp] theorem mem_union_nil : x∉union ([] : List (Span α)) := by
  intro h
  obtain ⟨r,hr,-⟩ := h
  cases hr

@[simp] theorem mem_union_cons :
    x∈union (r::rs) ↔ (r.first≤x ∧ x<r.second) ∨ x∈union rs := by
  simp only [mem_union,List.mem_cons,exists_eq_or_imp]

@[simp] theorem mem_union_append {rs ts : List (Span α)} :
    x∈union (rs++ts) ↔ x∈union rs ∨ x∈union ts := by
  simp only [mem_union,List.mem_append,or_and_right,exists_or]

/-- No span is empty, and something is left out between each two neighbours. -/
structure Separated (rs : List (Span α)) : Prop where
  nonempty : ∀ r ∈ rs, r.first < r.second
  apart : rs.Pairwise fun r t => r.second < t.first

theorem separated_nil : Separated ([] : List (Span α)) := ⟨by simp,List.Pairwise.nil⟩

theorem Separated.tail (h : Separated (r::rs)) : Separated rs :=
  ⟨fun t ht => h.nonempty t (List.mem_cons_of_mem r ht),(List.pairwise_cons.mp h.apart).2⟩

/-- Separated spans stand in the order of their first points. -/
theorem Separated.sorted (h : Separated rs) : rs.Pairwise fun r t => r.first≤t.first :=
  h.apart.imp_of_mem fun hr _ hrt => (h.nonempty _ hr).le.trans hrt.le

/-- Insertion before the first span that does not begin earlier. -/
def insertFirst (r : Span α) (rs : List (Span α)) : List (Span α) :=
  rs.takeWhile (fun t => decide (t.first<r.first)) ++
    r::rs.dropWhile fun t => decide (t.first<r.first)

/-- Joining of what overlaps or touches; `back` is the span that is still open. -/
def coalesceFrom (back : Span α) : List (Span α) → List (Span α)
  | [] => [back]
  | r::rs =>
    if r.first≤back.second then coalesceFrom ⟨back.first,max back.second r.second⟩ rs
    else back::coalesceFrom r rs

def coalesce : List (Span α) → List (Span α)
  | [] => []
  | r :: rs => coalesceFrom r rs

/-- What `[a, b)` leaves of a span. -/
def cutOne (a b : α) (r : Span α) : List (Span α) :=
  if r.second≤a ∨ b≤r.first then [r]
  else (if r.first<a then [⟨r.first,a⟩] else [])++if b<r.second then [⟨b,r.second⟩] else []

def cut (a b : α) (rs : List (Span α)) : List (Span α) := rs.flatMap (cutOne a b)

theorem mem_union_insertFirst (r : Span α) (rs : List (Span α)) :
    x∈union (insertFirst r rs) ↔ (r.first≤x ∧ x<r.second) ∨ x∈union rs := by
  have hsplit : rs.takeWhile (fun t => decide (t.first<r.first)) ++
      rs.dropWhile (fun t => decide (t.first<r.first))=rs := List.takeWhile_append_dropWhile
  rw [insertFirst,mem_union_append,mem_union_cons,or_left_comm,← mem_union_append,hsplit]

theorem insertFirst_sorted (r : Span α) (h : rs.Pairwise fun r t => r.first≤t.first) :
    (insertFirst r rs).Pairwise fun r t => r.first≤t.first := by
  have hback : ∀ t∈rs.dropWhile (fun t => decide (t.first<r.first)), r.first≤t.first := by
    induction rs with
    | nil => simp
    | cons t rs ih =>
      obtain ⟨hhead,htail⟩ := List.pairwise_cons.mp h
      rw [List.dropWhile_cons]
      split_ifs with hlt
      · exact ih htail
      · have hle : r.first≤t.first := not_lt.mp (by simpa using hlt)
        intro u hu
        rcases List.mem_cons.mp hu with rfl | hu
        · exact hle
        · exact hle.trans (hhead u hu)
  have hsplit : (rs.takeWhile (fun t => decide (t.first<r.first)) ++
      rs.dropWhile fun t => decide (t.first<r.first)).Pairwise fun r t => r.first≤t.first := by
    rw [List.takeWhile_append_dropWhile]
    exact h
  obtain ⟨hfront,hrest,hcross⟩ := List.pairwise_append.mp hsplit
  refine List.pairwise_append.mpr ⟨hfront,List.pairwise_cons.mpr ⟨hback,hrest⟩,?_⟩
  intro t ht u hu
  rcases List.mem_cons.mp hu with rfl | hu
  · have hlt := List.mem_takeWhile_imp ht
    exact (of_decide_eq_true hlt).le
  · exact hcross t ht u hu

theorem mem_union_coalesceFrom (hne : ∀ t∈back::rs, t.first<t.second)
    (hsorted : (back::rs).Pairwise fun r t => r.first≤t.first) :
    x∈union (coalesceFrom back rs) ↔ x∈union (back::rs) := by
  induction rs generalizing back with
  | nil => rfl
  | cons r rs ih =>
    obtain ⟨hle,hrest⟩ := List.pairwise_cons.mp hsorted
    obtain ⟨hback,hne'⟩ := List.forall_mem_cons.mp hne
    have htail := (List.pairwise_cons.mp hrest).2
    have hfirst := hle r List.mem_cons_self
    rw [coalesceFrom]
    split_ifs with hjoin
    · have hjoined : ((⟨back.first,max back.second r.second⟩::rs : List (Span α))).Pairwise
          fun r t => r.first≤t.first :=
        List.pairwise_cons.mpr ⟨fun t ht => hle t (List.mem_cons_of_mem r ht),htail⟩
      have hopen : ∀ t∈(⟨back.first,max back.second r.second⟩::rs : List (Span α)),
          t.first<t.second :=
        List.forall_mem_cons.mpr ⟨lt_max_of_lt_left hback,fun t ht =>
          hne' t (List.mem_cons_of_mem r ht)⟩
      rw [@ih ⟨back.first,max back.second r.second⟩ hopen hjoined]
      simp only [mem_union_cons,← or_assoc,lt_max_iff]
      refine or_congr_left ?_
      constructor
      · intro hx
        obtain ⟨hx,hlt | hlt⟩ := hx
        · exact Or.inl ⟨hx,hlt⟩
        · by_cases hr : r.first≤x
          · exact Or.inr ⟨hr,hlt⟩
          · exact Or.inl ⟨hx,(not_le.mp hr).trans_le hjoin⟩
      · intro hx
        rcases hx with ⟨hx,hlt⟩ | ⟨hx,hlt⟩
        · exact ⟨hx,Or.inl hlt⟩
        · exact ⟨hfirst.trans hx,Or.inr hlt⟩
    · rw [mem_union_cons,ih hne' hrest,mem_union_cons (r := back)]

theorem first_le_of_mem_coalesceFrom
    (hsorted : (back::rs).Pairwise fun r t => r.first≤t.first) :
    ∀ t∈coalesceFrom back rs,back.first≤t.first := by
  induction rs generalizing back with
  | nil =>
    intro t ht
    rw [List.mem_singleton.mp ht]
  | cons r rs ih =>
    obtain ⟨hle,hrest⟩ := List.pairwise_cons.mp hsorted
    have htail := (List.pairwise_cons.mp hrest).2
    intro t ht
    rw [coalesceFrom] at ht
    split_ifs at ht with hjoin
    · exact @ih ⟨back.first,max back.second r.second⟩ (List.pairwise_cons.mpr
        ⟨fun u hu => hle u (List.mem_cons_of_mem r hu),htail⟩) t ht
    · rcases List.mem_cons.mp ht with rfl | ht
      · exact le_refl _
      · exact (hle r List.mem_cons_self).trans (ih hrest t ht)

theorem coalesceFrom_separated (hne : ∀ t∈back::rs, t.first<t.second)
    (hsorted : (back::rs).Pairwise fun r t => r.first≤t.first) :
    Separated (coalesceFrom back rs) := by
  induction rs generalizing back with
  | nil => exact ⟨hne,List.pairwise_singleton _ _⟩
  | cons r rs ih =>
    obtain ⟨hle,hrest⟩ := List.pairwise_cons.mp hsorted
    obtain ⟨hback,hne'⟩ := List.forall_mem_cons.mp hne
    have htail := (List.pairwise_cons.mp hrest).2
    rw [coalesceFrom]
    split_ifs with hjoin
    · refine ih (List.forall_mem_cons.mpr ⟨lt_max_of_lt_left hback,fun t ht =>
        hne' t (List.mem_cons_of_mem r ht)⟩) ?_
      exact List.pairwise_cons.mpr ⟨fun t ht => hle t (List.mem_cons_of_mem r ht),htail⟩
    · have hrestSeparated := ih hne' hrest
      refine ⟨List.forall_mem_cons.mpr ⟨hback,hrestSeparated.nonempty⟩,
        List.pairwise_cons.mpr ⟨?_,hrestSeparated.apart⟩⟩
      intro t ht
      exact (not_le.mp hjoin).trans_le (first_le_of_mem_coalesceFrom hrest t ht)

/-- Insertion and joining add exactly the new span. -/
theorem coalesce_insertFirst (hr : r.first<r.second) (h : Separated rs) :
    Separated (coalesce (insertFirst r rs)) ∧
      ∀ x,x∈union (coalesce (insertFirst r rs)) ↔
        (r.first≤x ∧ x<r.second) ∨ x∈union rs := by
  have hsorted := insertFirst_sorted r h.sorted
  have hne : ∀ t∈insertFirst r rs,t.first<t.second := by
    intro t ht
    rcases List.mem_append.mp ht with ht | ht
    · exact h.nonempty t ((List.takeWhile_sublist _).mem ht)
    · rcases List.mem_cons.mp ht with rfl | ht
      · exact hr
      · exact h.nonempty t ((List.dropWhile_sublist _).mem ht)
  have hunion := fun x => mem_union_insertFirst (x := x) r rs
  cases hlist : insertFirst r rs with
  | nil =>
    rw [hlist] at hunion
    exact ⟨separated_nil,hunion⟩
  | cons back ts =>
    rw [hlist] at hunion hsorted hne
    exact ⟨coalesceFrom_separated hne hsorted,fun x =>
      (mem_union_coalesceFrom hne hsorted).trans (hunion x)⟩

theorem mem_cutOne {t : Span α} (ht : t∈cutOne a b r) (hr : r.first<r.second) :
    r.first≤t.first ∧ t.first<t.second ∧ t.second≤r.second := by
  unfold cutOne at ht
  split_ifs at ht with hout hleft hright hright
  · rw [List.mem_singleton.mp ht]
    exact ⟨le_refl _,hr,le_refl _⟩
  all_goals
    rw [not_or,not_le,not_le] at hout
  · rcases List.mem_pair.mp ht with rfl | rfl
    · exact ⟨le_refl _,hleft,hout.1.le⟩
    · exact ⟨hout.2.le,hright,le_refl _⟩
  · rw [List.append_nil] at ht
    rw [List.mem_singleton.mp ht]
    exact ⟨le_refl _,hleft,hout.1.le⟩
  · rw [List.nil_append] at ht
    rw [List.mem_singleton.mp ht]
    exact ⟨hout.2.le,hright,le_refl _⟩
  · cases ht

theorem mem_union_cutOne (hab : a<b) :
    x∈union (cutOne a b r) ↔ (r.first≤x ∧ x<r.second) ∧ ¬(a≤x ∧ x<b) := by
  unfold cutOne
  split_ifs with hout hleft hright hright <;>
    simp only [List.singleton_append,List.nil_append,mem_union_cons,mem_union_nil,or_false,
      not_and,not_lt]
  all_goals grind

theorem cutOne_apart (hab : a<b) :
    (cutOne a b r).Pairwise fun r t => r.second<t.first := by
  unfold cutOne
  split_ifs with hout hleft hright hright
  · exact List.pairwise_singleton _ _
  · exact List.pairwise_pair.mpr hab
  · exact List.pairwise_singleton _ _
  · exact List.pairwise_singleton _ _
  · exact List.Pairwise.nil

/-- Cutting takes exactly `[a, b)` away. -/
theorem cut_spec (hab : a<b) (h : Separated rs) :
    Separated (cut a b rs) ∧ ∀ x,x∈union (cut a b rs) ↔ x∈union rs ∧ ¬(a≤x ∧ x<b) := by
  induction rs with
  | nil => exact ⟨separated_nil,by simp [cut]⟩
  | cons r rs ih =>
    obtain ⟨hseparated,hunion⟩ := ih h.tail
    have hr := h.nonempty r List.mem_cons_self
    have hsplit : cut a b (r::rs)=cutOne a b r++cut a b rs := List.flatMap_cons
    rw [hsplit]
    refine ⟨⟨?_,List.pairwise_append.mpr ⟨cutOne_apart hab,hseparated.apart,?_⟩⟩,?_⟩
    · intro t ht
      rcases List.mem_append.mp ht with ht | ht
      · exact (mem_cutOne ht hr).2.1
      · exact hseparated.nonempty t ht
    · intro t ht u hu
      obtain ⟨v,hv,hu⟩ := List.mem_flatMap.mp hu
      have hvne := h.nonempty v (List.mem_cons_of_mem r hv)
      have hrv := (List.pairwise_cons.mp h.apart).1 v hv
      exact ((mem_cutOne ht hr).2.2.trans_lt hrv).trans_le (mem_cutOne hu hvne).1
    · intro x
      rw [mem_union_append,mem_union_cutOne hab,hunion,mem_union_cons,or_and_right]

theorem Separated.mem_tail (h : Separated (r::rs)) :
    x∈union rs ↔ x∈union (r::rs) ∧ r.second<x := by
  obtain ⟨hafter,-⟩ := List.pairwise_cons.mp h.apart
  rw [mem_union_cons]
  constructor
  · intro hx
    refine ⟨Or.inr hx,?_⟩
    obtain ⟨t,ht,hfirst,-⟩ := hx
    exact (hafter t ht).trans_le hfirst
  · rintro ⟨⟨-,hlt⟩ | hx,hgt⟩
    · exact absurd hlt hgt.not_gt
    · exact hx

theorem Separated.first_le (h : Separated (r::rs)) (hx : x∈union (r::rs)) : r.first≤x := by
  rcases mem_union_cons.mp hx with hr | hx
  · exact hr.1
  · exact ((h.nonempty r List.mem_cons_self).trans (h.mem_tail.mp hx).2).le

/-- Separated spans are a normal form of the points they hold. -/
theorem Separated.eq_of_union {ts : List (Span α)} (h : Separated rs) (h' : Separated ts)
    (hunion : ∀ x,x∈union rs ↔ x∈union ts) : rs=ts := by
  have hfirst : ∀ {r : Span α} {rs}, Separated (r::rs) → r.first∈union (r::rs) :=
    fun h => mem_union_cons.mpr (Or.inl ⟨le_refl _,h.nonempty _ List.mem_cons_self⟩)
  -- A span that starts with another is no shorter: its end would be a point of the other.
  have hsecond : ∀ {r t : Span α} {rs ts}, Separated (r::rs) → Separated (t::ts) →
      (∀ x,x∈union (r::rs) ↔ x∈union (t::ts)) → r.first=t.first →
        t.second≤r.second := by
    intro r t rs ts h h' hunion hsame
    by_contra hlt
    rw [not_le] at hlt
    have hin : r.second∈union (r::rs) := (hunion _).mpr (mem_union_cons.mpr
      (Or.inl ⟨hsame ▸ (h.nonempty r List.mem_cons_self).le,hlt⟩))
    rcases mem_union_cons.mp hin with hr | hrest
    · exact lt_irrefl _ hr.2
    · exact lt_irrefl _ (h.mem_tail.mp hrest).2
  induction rs generalizing ts with
  | nil =>
    cases ts with
    | nil => rfl
    | cons t ts => exact absurd ((hunion _).mpr (hfirst h')) mem_union_nil
  | cons r rs ih =>
    cases ts with
    | nil => exact absurd ((hunion _).mp (hfirst h)) mem_union_nil
    | cons t ts =>
      have hstart : r.first=t.first := le_antisymm
        (h.first_le ((hunion _).mpr (hfirst h'))) (h'.first_le ((hunion _).mp (hfirst h)))
      have hstop : r.second=t.second := le_antisymm
        (hsecond h' h (fun x => (hunion x).symm) hstart.symm) (hsecond h h' hunion hstart)
      have hspan : r=t := by
        cases r
        cases t
        exact (Span.mk.injEq ..).mpr ⟨hstart,hstop⟩
      rw [hspan,ih h.tail h'.tail fun x => by rw [h.mem_tail,h'.mem_tail,hunion,hstop]]

end Span

end EmuleQt.Math
