import Mathlib.Data.Int.ConditionallyCompleteOrder
import Mathlib.Order.ConditionallyCompleteLattice.Basic
import Mathlib.Order.Monotone.Basic

namespace EmuleQt.Framework

/-- The point lies in the period that begins at the `k`-th cut. -/
def InPeriod {α : Type*} [LinearOrder α] (cut : ℤ → α) (k : ℤ) (x : α) : Prop :=
  cut k≤x ∧ x<cut (k+1)

namespace InPeriod

variable {α : Type*} [LinearOrder α] {cut : ℤ → α} {j k : ℤ} {x y : α}

theorem start (h : StrictMono cut) (k : ℤ) : InPeriod cut k (cut k) :=
  ⟨le_refl _,h (Int.lt_succ k)⟩

/-- A later point lies in no earlier period. -/
theorem index_le (h : StrictMono cut) (hx : InPeriod cut j x) (hy : InPeriod cut k y)
    (hxy : x≤y) : j≤k := by
  have hlt : cut j<cut (k+1) := lt_of_le_of_lt (hx.1.trans hxy) hy.2
  exact Int.lt_add_one_iff.mp (h.lt_iff_lt.mp hlt)

/-- No point lies in two periods. -/
theorem index_eq (h : StrictMono cut) (hj : InPeriod cut j x) (hk : InPeriod cut k x) : j=k :=
  le_antisymm (index_le h hj hk (le_refl x)) (index_le h hk hj (le_refl x))

end InPeriod

end EmuleQt.Framework
