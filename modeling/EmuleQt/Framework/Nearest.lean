import Mathlib.Data.List.Nodup
import Mathlib.Data.List.Perm.Subperm

namespace EmuleQt.Framework

/-- Where a newcomer is among the first `k`, one of the `k` that were there is not. -/
theorem exists_dropped {α : Type*} {k : Nat} {m l : List α} {e : α} (hsub : m ⊆ l)
    (hnodup : m.Nodup) (hfull : k ≤ m.length) (he : e∈l.take k) (hnew : e∉m) :
    ∃ a∈m, a∈l.drop k := by
  by_contra hnone
  have htaken : e::m ⊆ l.take k := by
    intro a ha
    rcases List.mem_cons.mp ha with rfl | ha
    · exact he
    · have hl := hsub ha
      rw [← List.take_append_drop k l,List.mem_append] at hl
      exact hl.resolve_right fun hdrop => hnone ⟨a,ha,hdrop⟩
  have hle := ((List.nodup_cons.mpr ⟨hnew,hnodup⟩).subperm htaken).length_le
  rw [List.length_cons,List.length_take] at hle
  omega

variable {K V : Type*} [LT K]

/-- The `k` entries of least key, in ascending order. -/
structure Nearest (k : Nat) (xs m : List (K × V)) : Prop where
  sorted : m.Pairwise fun a b => a.1 < b.1
  size : m.length = min k xs.length
  rest : ∃ far, (m ++ far).Perm xs ∧ ∀ e ∈ m, ∀ f ∈ far, e.1 < f.1

variable {k : Nat} {xs ys m l : List (K × V)}

/-- Of sorted entries the first ones are less than those that follow. -/
theorem sorted_take_drop (h : l.Pairwise fun a b => a.1<b.1) (n : Nat) :
    ∀ e∈l.take n,∀ f∈l.drop n,e.1<f.1 := by
  have hsplit : (l.take n++l.drop n).Pairwise fun a b => a.1<b.1 := by
    rwa [List.take_append_drop]
  exact (List.pairwise_append.mp hsplit).2.2

namespace Nearest

theorem nil (k : Nat) : Nearest k ([] : List (K × V)) [] :=
  ⟨List.Pairwise.nil,by simp,[],by simp,by simp⟩

theorem perm (h : Nearest k xs m) (hp : xs.Perm ys) : Nearest k ys m := by
  obtain ⟨far,hfar,hlt⟩ := h.rest
  exact ⟨h.sorted,by rw [h.size,hp.length_eq],far,hfar.trans hp,hlt⟩

theorem subset (h : Nearest k xs m) : m ⊆ xs := by
  obtain ⟨far,hfar,-⟩ := h.rest
  intro e he
  exact hfar.subset (List.mem_append_left far he)

theorem append_keys (h : Nearest k xs m) (hkeys : ((xs++ys).map Prod.fst).Nodup) :
    ((m++ys).map Prod.fst).Nodup := by
  obtain ⟨far,hfar,-⟩ := h.rest
  have hall := ((hfar.append_right ys).map Prod.fst).nodup_iff.mpr hkeys
  exact hall.sublist (((List.sublist_append_left m far).append_right ys).map _)

/-- What was left out is further than all that was taken. -/
theorem lt_of_not_mem (h : Nearest k xs m) {e f : K × V} (he : e∈m) (hf : f∈xs)
    (hnot : f∉m) : e.1<f.1 := by
  obtain ⟨far,hfar,hlt⟩ := h.rest
  rcases List.mem_append.mp (hfar.symm.subset hf) with hmem | hmem
  · exact absurd hmem hnot
  · exact hlt e he f hmem

/-- Enough are taken, and all that comes is further away. -/
theorem skip (h : Nearest k xs m) (hfull : k ≤ m.length)
    (hfurther : ∀ e∈xs,∀ f∈ys,e.1<f.1) : Nearest k (xs++ys) m := by
  obtain ⟨far,hfar,hlt⟩ := h.rest
  refine ⟨h.sorted,?_,far++ys,?_,?_⟩
  · rw [List.length_append]
    have hsize := h.size
    omega
  · rw [← List.append_assoc]
    exact hfar.append_right ys
  · intro e he f hf
    rcases List.mem_append.mp hf with hf | hf
    · exact hlt e he f hf
    · exact hfurther e (h.subset he) f hf

variable [LE K] [Std.LawfulOrderLT K]

theorem sorted_keys (h : l.Pairwise fun a b => a.1<b.1) : (l.map Prod.fst).Nodup := by
  rw [List.Nodup,List.pairwise_map]
  refine h.imp ?_
  intro a b hlt heq
  rw [heq] at hlt
  exact Std.lt_irrefl hlt

variable [Std.IsLinearOrder K]

/-- More entries are sorted in, and the furthest go. -/
theorem refill (h : Nearest k xs m) (hsorted : l.Pairwise fun a b => a.1<b.1)
    (hp : l.Perm (m++ys)) : Nearest k (xs++ys) (l.take k) := by
  obtain ⟨far,hfar,hlt⟩ := h.rest
  have hlen := hp.length_eq
  have hsize := h.size
  have htotal := hfar.length_eq
  rw [List.length_append] at hlen htotal
  refine ⟨hsorted.sublist (List.take_sublist k l),?_,l.drop k++far,?_,?_⟩
  · rw [List.length_take,List.length_append]
    omega
  · rw [← List.append_assoc,List.take_append_drop]
    calc (l++far).Perm (m++ys++far) := hp.append_right far
      _ = m++(ys++far) := List.append_assoc m ys far
      List.Perm _ (m++(far++ys)) := List.perm_append_comm.append_left m
      _ = m++far++ys := (List.append_assoc m far ys).symm
      List.Perm _ (xs++ys) := hfar.append_right ys
  · intro e he f hf
    rcases List.mem_append.mp hf with hf | hf
    · exact sorted_take_drop hsorted k e he f hf
    · by_cases hm : e∈m
      · exact hlt e hm f hf
      · have hpos := List.length_pos_of_mem hf
        have hsub : m ⊆ l := fun a ha => hp.symm.subset (List.mem_append_left ys ha)
        obtain ⟨a,ha,hdrop⟩ :=
          exists_dropped hsub (sorted_keys h.sorted).of_map (by omega) he hm
        exact Std.lt_trans (sorted_take_drop hsorted k e he a hdrop) (hlt a ha f hf)

end Nearest

end EmuleQt.Framework
