import Mathlib.Algebra.BigOperators.Group.List.Basic
import Mathlib.Algebra.GroupWithZero.Nat

namespace EmuleQt.Framework

/-- Items packed in order: the groups that are closed and the one that is filled. -/
structure Packing (α : Type*) where
  closed : List (List α)
  current : List α

namespace Packing

variable {α : Type*} (size : α → Nat) (capacity : Nat)

def load (group : List α) : Nat := (group.map size).sum

/-- An item goes into a new group where the one that is filled has no room for it. -/
def add (p : Packing α) (x : α) : Packing α :=
  if load size p.current + size x > capacity ∧ p.current ≠ [] then
    ⟨p.closed ++ [p.current], [x]⟩
  else ⟨p.closed, p.current ++ [x]⟩

def groups (p : Packing α) : List (List α) :=
  if p.current = [] then p.closed else p.closed ++ [p.current]

/-- A group keeps within the capacity unless it is one item. -/
def Fits (group : List α) : Prop := group.length = 1 ∨ load size group ≤ capacity

structure Sound (p : Packing α) : Prop where
  filled : ∀ group ∈ p.closed, group ≠ []
  fits : ∀ group ∈ p.closed, Fits size capacity group
  currentFits : Fits size capacity p.current

variable {size capacity} {p : Packing α} {x : α}

@[simp] theorem load_nil : load size []=0 := rfl

@[simp] theorem load_singleton (x : α) : load size [x]=size x := by
  simp [load]

@[simp] theorem load_append (xs ys : List α) :
    load size (xs++ys)=load size xs+load size ys := by
  simp [load]

theorem Sound.add (h : Sound size capacity p) (x : α) :
    Sound size capacity (p.add size capacity x) := by
  unfold Packing.add
  split_ifs with hfull
  · refine ⟨?_,?_,.inl rfl⟩
    · intro group hgroup
      rcases List.mem_append.mp hgroup with hclosed | hlast
      · exact h.filled group hclosed
      · rw [List.mem_singleton.mp hlast]
        exact hfull.2
    · intro group hgroup
      rcases List.mem_append.mp hgroup with hclosed | hlast
      · exact h.fits group hclosed
      · rw [List.mem_singleton.mp hlast]
        exact h.currentFits
  · refine ⟨h.filled,h.fits,?_⟩
    by_cases hempty : p.current=[]
    · left
      simp [hempty]
    · right
      have hroom : ¬ load size p.current+size x>capacity := fun h => hfull ⟨h,hempty⟩
      rw [load_append,load_singleton]
      omega

theorem Sound.groups (h : Sound size capacity p) :
    ∀ group∈p.groups,group≠[] ∧ Fits size capacity group := by
  intro group hgroup
  unfold Packing.groups at hgroup
  split_ifs at hgroup with hempty
  · exact ⟨h.filled group hgroup,h.fits group hgroup⟩
  · rcases List.mem_append.mp hgroup with hclosed | hlast
    · exact ⟨h.filled group hclosed,h.fits group hclosed⟩
    · rw [List.mem_singleton.mp hlast]
      exact ⟨hempty,h.currentFits⟩

end Packing

end EmuleQt.Framework
