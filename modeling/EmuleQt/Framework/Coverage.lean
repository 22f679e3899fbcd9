import Mathlib.Data.Set.Basic
import Mathlib.Data.List.Basic

namespace EmuleQt.Framework

/-- What has been covered since the last completion, and how many completions there were. -/
structure Coverage (X : Type*) where
  covered : Set X
  times : Nat

namespace Coverage

variable {X : Type*} {done : Set X → Prop} {s : Set X} {c c' : Coverage X} {x : X} {n : Nat}

def empty : Coverage X := ⟨∅, 0⟩

open Classical in
noncomputable def add (done : Set X → Prop) (s : Set X) (c : Coverage X) : Coverage X :=
  if done (c.covered ∪ s) then ⟨∅, c.times + 1⟩ else ⟨c.covered ∪ s, c.times⟩

theorem add_of_done (h : done (c.covered ∪ s)) : c.add done s=⟨∅,c.times+1⟩ := if_pos h

theorem add_of_not_done (h : ¬ done (c.covered ∪ s)) : c.add done s=⟨c.covered ∪ s,c.times⟩ :=
  if_neg h

/-- A point that came up `n` times pays for the completions and for its being covered. -/
def Bounded (x : X) (n : Nat) (c : Coverage X) : Prop :=
  c.times ≤ n ∧ (x ∈ c.covered → c.times < n)

theorem bounded_empty : Bounded x 0 (empty : Coverage X) := ⟨Nat.le_refl 0,fun h => h.elim⟩

/-- Coverage that is lost costs nothing. -/
theorem Bounded.lose (h : Bounded x n c) (hcovered : c'.covered ⊆ c.covered)
    (htimes : c'.times≤c.times) : Bounded x n c' :=
  ⟨htimes.trans h.1,fun hx => htimes.trans_lt (h.2 (hcovered hx))⟩

theorem Bounded.add_mem (h : Bounded x n c) : Bounded x (n+1) (c.add done s) := by
  have hle := h.1
  unfold add
  split_ifs with hdone
  · exact ⟨Nat.succ_le_succ hle,fun hx => hx.elim⟩
  · exact ⟨Nat.le_succ_of_le hle,fun _ => Nat.lt_succ_of_le hle⟩

/-- A completion covers the point, so it has been paid for. -/
theorem Bounded.add_not_mem (h : Bounded x n c) (hx : x∉s)
    (hdone : done (c.covered ∪ s) → x∈c.covered ∪ s) : Bounded x n (c.add done s) := by
  unfold add
  split_ifs with hcomplete
  · refine ⟨h.2 ((hdone hcomplete).resolve_right hx),fun hx => hx.elim⟩
  · exact ⟨h.1,fun hmem => h.2 (hmem.resolve_right hx)⟩

end Coverage

end EmuleQt.Framework
