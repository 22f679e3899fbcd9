import Mathlib.Data.Int.ConditionallyCompleteOrder
import Mathlib.Tactic.Positivity
import Mathlib.Tactic.Ring

namespace EmuleQt.Math

/-- A sequence that doubles until it is at a bound. -/
structure DoublesTo (bound : ℤ) (r : ℕ → ℤ) : Prop where
  bound_nonneg : 0≤bound
  pos : 1≤r 0
  step : ∀ n, min bound (2*r n)≤r (n+1)

namespace DoublesTo

variable {bound : ℤ} {r : ℕ → ℤ}

theorem two_pow_le (h : DoublesTo bound r) (n : ℕ) : min bound (2^n)≤r n := by
  induction n with
  | zero =>
    have hpos := h.pos
    omega
  | succ n ih =>
    have hstep := h.step n
    have hbound := h.bound_nonneg
    omega

/-- The bound is reached after as many steps as it has units. -/
theorem bound_le (h : DoublesTo bound r) {n : ℕ} (hn : bound≤n) : bound≤r n := by
  have hle := h.two_pow_le n
  have hpow : (n : ℤ)<2^n := by exact_mod_cast n.lt_two_pow_self
  omega

end DoublesTo

/-- The part of `n` that falls to number `i` of `parts`; the first ones get one more. -/
def share (parts i : Nat) (n : Int) : Int :=
  max 0 n / parts + if (i : Int) < max 0 n % parts then 1 else 0

variable {parts : Nat} {i : Nat} {m n : Int}

@[simp] theorem share_zero : share parts i 0=0 := by
  simp [share]

theorem share_nonneg : 0 ≤ share parts i n := by
  have hbase : 0 ≤ max 0 n/parts := Int.ediv_nonneg (le_max_left 0 n) (Int.natCast_nonneg parts)
  unfold share
  split_ifs <;> omega

theorem share_mono (hparts : 0<parts) : Monotone (share parts i) := by
  intro m n hmn
  have hmax : max 0 m ≤ max 0 n := max_le_max_left 0 hmn
  have hpos : (0 : Int)<parts := by exact_mod_cast hparts
  have hm := Int.mul_ediv_add_emod (max 0 m) parts
  have hn := Int.mul_ediv_add_emod (max 0 n) parts
  have hbase : max 0 m/parts ≤ max 0 n/parts := Int.ediv_le_ediv hpos hmax
  unfold share
  by_cases heq : max 0 m/parts=max 0 n/parts
  · rw [heq] at hm ⊢
    split_ifs <;> omega
  · split_ifs <;> omega

/-- The share of the smaller is the smaller share. -/
theorem share_min (hparts : 0<parts) :
    share parts i (min m n)=min (share parts i m) (share parts i n) :=
  (share_mono hparts).map_min

theorem sum_first (base extra : Int) (hextra : 0≤extra) (k : Nat) :
    ((List.range k).map fun i : Nat => base+if (i : Int)<extra then 1 else 0).sum =
      k*base+min (k : Int) extra := by
  induction k with
  | zero => simp [hextra]
  | succ k ih =>
    rw [List.range_succ,List.map_append,List.sum_append,ih]
    simp only [List.map_cons,List.map_nil,List.sum_cons,List.sum_nil]
    push_cast
    have hmul : ((k : Int)+1)*base=k*base+base := by ring
    rw [hmul]
    split_ifs <;> omega

/-- The shares are the whole. -/
theorem share_sum (hparts : 0<parts) (n : Int) :
    ((List.range parts).map fun i => share parts i n).sum=max 0 n := by
  have hpos : (0 : Int)<parts := by exact_mod_cast hparts
  have hlow := Int.emod_nonneg (max 0 n) (Int.ne_of_gt hpos)
  have hhigh := Int.emod_lt_of_pos (max 0 n) hpos
  have hsplit := Int.mul_ediv_add_emod (max 0 n) parts
  have hsum := sum_first (max 0 n/parts) (max 0 n%parts) hlow parts
  rw [min_eq_right (Int.le_of_lt hhigh),hsplit] at hsum
  exact hsum

/-- Of something, somebody gets something. -/
theorem exists_share_pos (hparts : 0<parts) (hn : 0<n) : ∃ i<parts, 0<share parts i n := by
  by_contra hnone
  have hsum := share_sum hparts n
  have hzero : ((List.range parts).map fun i => share parts i n).sum=0 := by
    apply List.sum_eq_zero
    intro x hx
    obtain ⟨i,hi,rfl⟩ := List.mem_map.mp hx
    have hle : ¬ 0<share parts i n := fun h => hnone ⟨i,List.mem_range.mp hi,h⟩
    exact Int.le_antisymm (Int.not_lt.mp hle) share_nonneg
  omega

/-- What is summed over all parts may be summed for each part first. -/
theorem sum_sum_comm {α β : Type*} (xs : List α) (ys : List β) (f : α → β → Int) :
    (xs.map fun x => (ys.map (f x)).sum).sum=(ys.map fun y => (xs.map (f · y)).sum).sum := by
  induction xs with
  | nil => simp
  | cons x xs ih => simp only [List.map_cons,List.sum_cons,ih,List.sum_map_add]

end EmuleQt.Math
