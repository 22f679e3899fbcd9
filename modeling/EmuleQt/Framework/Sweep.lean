import Mathlib.Algebra.BigOperators.Group.List.Basic
import Mathlib.Algebra.GroupWithZero.Nat

namespace EmuleQt.Framework

variable {α β σ : Type*}

/-- A pass over a list that drops or changes its elements and carries a state along. -/
def sweep (visit : α → σ → Option β × σ) : List α → σ → List β × σ
  | [], s => ([], s)
  | x :: xs, s =>
    let (kept, s) := visit x s
    let (rest, s) := sweep visit xs s
    (kept.toList ++ rest, s)

section Conserves

variable {visit : α → σ → Option β × σ} {weight : α → Nat} {kept : β → Nat} {total : σ → Nat}

/-- A total that each visit keeps in step with what it drops stays in step through the pass. -/
theorem sweep_conserves
    (hvisit : ∀ x s,weight x≤total s →
      total (visit x s).2+weight x=total s+((visit x s).1.toList.map kept).sum)
    {xs : List α} {s : σ} (h : (xs.map weight).sum≤total s) :
    total (sweep visit xs s).2+(xs.map weight).sum =
      total s+((sweep visit xs s).1.map kept).sum := by
  induction xs generalizing s with
  | nil => simp [sweep]
  | cons x xs ih =>
    rw [List.map_cons,List.sum_cons] at h
    have hx := hvisit x s (by omega)
    have hrest := @ih (visit x s).2 (by omega)
    rw [sweep,List.map_cons,List.sum_cons]
    dsimp only
    rw [List.map_append,List.sum_append]
    omega

end Conserves

/-- A pass that changes nothing it keeps leaves a part of the list. -/
theorem sweep_sublist {visit : α → σ → Option α × σ} {xs : List α} {s : σ}
    (hvisit : ∀ x∈xs,∀ s,(visit x s).1=none ∨ (visit x s).1=some x) :
    (sweep visit xs s).1.Sublist xs := by
  induction xs generalizing s with
  | nil => exact List.Sublist.refl []
  | cons x xs ih =>
    have hrest := @ih (visit x s).2 fun y hy => hvisit y (List.mem_cons_of_mem x hy)
    rw [sweep]
    rcases hvisit x List.mem_cons_self s with hx | hx <;> dsimp only <;> rw [hx]
    · exact hrest.cons x
    · exact hrest.cons_cons x

/-- What the pass keeps comes from a visit. -/
theorem mem_sweep {visit : α → σ → Option β × σ} {xs : List α} {s : σ} {y : β}
    (h : y∈(sweep visit xs s).1) : ∃ x∈xs, ∃ t, (visit x t).1=some y := by
  induction xs generalizing s with
  | nil => simp [sweep] at h
  | cons x xs ih =>
    rcases List.mem_append.mp h with hx | hxs
    · exact ⟨x,List.mem_cons_self,s,Option.mem_toList.mp hx⟩
    · obtain ⟨x',hx',hvisit⟩ := ih hxs
      exact ⟨x',List.mem_cons_of_mem x hx',hvisit⟩

end EmuleQt.Framework
