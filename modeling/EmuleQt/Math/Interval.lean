import Mathlib.Order.Interval.Finset.Nat

namespace EmuleQt.Math

/-- Both ends belong to it; nothing lies in one that ends before it starts. -/
structure Interval where
  start : Nat
  stop : Nat
  deriving DecidableEq

namespace Interval

def points (i : Interval) : Set Nat := Set.Icc i.start i.stop

variable {x : Nat} {is : List Interval}

@[simp] theorem mem_points {i : Interval} :
    x∈i.points ↔ i.start≤x ∧ x ≤ i.stop := Iff.rfl

/-- The points some interval of a list holds. -/
def union (is : List Interval) : Set Nat := {x | ∃ i ∈ is, x ∈ i.points}

theorem mem_union :
    x∈union is ↔ ∃ i∈is, i.start≤x ∧ x ≤ i.stop := Iff.rfl

@[simp] theorem mem_union_nil : x∉union [] := by
  rintro ⟨i,hi,-⟩
  cases hi

@[simp] theorem mem_union_cons {i : Interval} :
    x∈union (i::is) ↔ (i.start≤x ∧ x ≤ i.stop) ∨ x∈union is := by
  simp only [mem_union,List.mem_cons,exists_eq_or_imp]

@[simp] theorem mem_union_append {js : List Interval} :
    x∈union (is++js) ↔ x∈union is ∨ x∈union js := by
  simp only [mem_union,List.mem_append,or_and_right,exists_or]

theorem mem_union_perm {js : List Interval} (h : is.Perm js) :
    x∈union is ↔ x∈union js := by
  simp only [mem_union,h.mem_iff]

/-- Each interval ends before the next starts. -/
def Ascending (is : List Interval) : Prop := is.Pairwise fun a b => a.stop < b.start

/-- At least one point is left out between two neighbours. -/
def Separated (is : List Interval) : Prop := is.Pairwise fun a b => a.stop + 1 < b.start

/-- No interval is empty or reaches `size`. -/
def Inside (size : Nat) (is : List Interval) : Prop := ∀ i ∈ is, i.start ≤ i.stop ∧ i.stop < size

end Interval

end EmuleQt.Math
