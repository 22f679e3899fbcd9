import Mathlib.Algebra.BigOperators.Group.List.Basic
import Mathlib.Algebra.GroupWithZero.Nat

namespace EmuleQt.Framework

variable {α : Type*} {p : α → Bool} {xs ys l : List α} {x : α}

/-- A list around its first element that passes, the place an iterator of a search stands at. -/
def splitFirst (p : α → Bool) : List α → Option (List α × α × List α)
  | [] => none
  | y::l =>
    if p y then some ([], y, l) else (splitFirst p l).map fun r => (y::r.1, r.2)

theorem splitFirst_some (h : splitFirst p l=some (xs, x, ys)) :
    l=xs++x::ys ∧ p x=true ∧ ∀ y∈xs,p y=false := by
  induction l generalizing xs with
  | nil => cases h
  | cons y l ih =>
    rw [splitFirst] at h
    split_ifs at h with hy
    · cases h
      exact ⟨rfl,hy,fun y hy => absurd hy List.not_mem_nil⟩
    · obtain ⟨⟨xs',x',ys'⟩,hr,heq⟩ := Option.map_eq_some_iff.mp h
      cases heq
      obtain ⟨rfl,hx,hbefore⟩ := ih hr
      refine ⟨rfl,hx,fun z hz => ?_⟩
      rcases List.mem_cons.mp hz with rfl | hz
      · exact Bool.eq_false_iff.mpr hy
      · exact hbefore z hz

end EmuleQt.Framework

namespace EmuleQt.Framework

variable {α κ : Type*} [DecidableEq κ] (key : α → κ)

/-- Finding by key in a list that stands for a map. -/
def lookupKey (k : κ) (xs : List α) : Option α := xs.find? fun x => decide (key x = k)

/-- The element of a key is changed in place, or made at the end. -/
def upsert (k : κ) (f : Option α → α) : List α → List α
  | [] => [f none]
  | x :: xs => if key x = k then f (some x) :: xs else x :: upsert k f xs

variable {key} {k k' : κ} {f : Option α → α} {x : α} {xs : List α}

theorem lookupKey_cons :
    lookupKey key k (x::xs)=if key x=k then some x else lookupKey key k xs := by
  unfold lookupKey
  split_ifs with h <;> simp [h]

theorem lookupKey_mem (h : lookupKey key k xs=some x) : x∈xs ∧ key x=k :=
  ⟨List.mem_of_find?_eq_some h,by simpa using List.find?_some h⟩

/-- Weights change by the one element the update touches. -/
theorem upsert_sum (weight : α → Nat) :
    ((upsert key k f xs).map weight).sum+(lookupKey key k xs).elim 0 weight =
      (xs.map weight).sum+weight (f (lookupKey key k xs)) := by
  induction xs with
  | nil => simp [upsert,lookupKey]
  | cons x xs ih =>
    rw [upsert,lookupKey_cons]
    split_ifs with h
    · simp only [List.map_cons,List.sum_cons,Option.elim_some]
      omega
    · simp only [List.map_cons,List.sum_cons]
      omega

theorem lookupKey_le (weight : α → Nat) :
    (lookupKey key k xs).elim 0 weight≤(xs.map weight).sum := by
  induction xs with
  | nil => exact Nat.le_refl 0
  | cons x xs ih =>
    rw [lookupKey_cons,List.map_cons,List.sum_cons]
    split_ifs
    · exact Nat.le_add_right _ _
    · exact Nat.le_trans ih (Nat.le_add_left _ _)

theorem mem_upsert (h : x∈upsert key k f xs) : x=f (lookupKey key k xs) ∨ x∈xs := by
  induction xs with
  | nil => exact Or.inl (List.mem_singleton.mp h)
  | cons y ys ih =>
    rw [upsert] at h
    rw [lookupKey_cons]
    split_ifs at h ⊢ with hkey
    · rcases List.mem_cons.mp h with rfl | hx
      · exact Or.inl rfl
      · exact Or.inr (List.mem_cons_of_mem y hx)
    · rcases List.mem_cons.mp h with rfl | hx
      · exact Or.inr List.mem_cons_self
      · exact (ih hx).imp_right (List.mem_cons_of_mem y)

theorem mem_map_upsert (hf : ∀ o,key (f o)=k) :
    k'∈(upsert key k f xs).map key ↔ k'=k ∨ k'∈xs.map key := by
  induction xs with
  | nil => simp [upsert,hf]
  | cons x xs ih =>
    rw [upsert]
    split_ifs with hx
    · simp only [List.map_cons,List.mem_cons,hf,hx]
      tauto
    · simp only [List.map_cons,List.mem_cons,ih]
      tauto

/-- One element a key. -/
theorem nodup_map_upsert (hf : ∀ o,key (f o)=k) (h : (xs.map key).Nodup) :
    ((upsert key k f xs).map key).Nodup := by
  induction xs with
  | nil => simp [upsert]
  | cons x xs ih =>
    obtain ⟨hx,hxs⟩ := List.nodup_cons.mp h
    rw [upsert]
    split_ifs with hkey
    · rw [List.map_cons,hf,← hkey]
      exact h
    · rw [List.map_cons]
      refine List.nodup_cons.mpr ⟨fun hmem => ?_,ih hxs⟩
      rcases (mem_map_upsert hf).mp hmem with heq | hold
      · exact hkey heq
      · exact hx hold

theorem upsert_ne_nil : upsert key k f xs≠[] := by
  cases xs with
  | nil => simp [upsert]
  | cons x xs =>
    rw [upsert]
    split_ifs <;> simp

/-- A key that is not there is made at the end. -/
theorem upsert_of_not_mem (h : k∉xs.map key) : upsert key k f xs=xs++[f none] := by
  induction xs with
  | nil => rfl
  | cons x xs ih =>
    obtain ⟨hx,hxs⟩ := not_or.mp (List.mem_cons.not.mp h)
    rw [upsert,if_neg (Ne.symm hx),ih hxs]
    rfl

theorem lookupKey_upsert_self (hf : key (f (lookupKey key k xs))=k) :
    lookupKey key k (upsert key k f xs)=some (f (lookupKey key k xs)) := by
  induction xs with
  | nil => simpa [upsert,lookupKey] using hf
  | cons x xs ih =>
    rw [lookupKey_cons] at hf ⊢
    rw [upsert]
    split_ifs at hf ⊢ with hkey
    · rw [lookupKey_cons,if_pos hf]
    · rw [lookupKey_cons,if_neg hkey,ih hf]

theorem lookupKey_upsert_ne (hf : key (f (lookupKey key k xs))=k) (hne : k'≠k) :
    lookupKey key k' (upsert key k f xs)=lookupKey key k' xs := by
  induction xs with
  | nil =>
    have hfk : key (f none)=k := hf
    rw [upsert,lookupKey_cons,if_neg (by rw [hfk]; exact hne.symm)]
  | cons x xs ih =>
    rw [lookupKey_cons] at hf
    rw [upsert]
    split_ifs at hf ⊢ with hkey
    · rw [lookupKey_cons,lookupKey_cons,if_neg (by rw [hf]; exact hne.symm),
        if_neg (by rw [hkey]; exact hne.symm)]
    · rw [lookupKey_cons,lookupKey_cons,ih hf]

theorem lookupKey_append {ys : List α} : lookupKey key k (xs++ys) =
    (lookupKey key k xs).or (lookupKey key k ys) := List.find?_append

theorem lookupKey_eq_none : lookupKey key k xs=none ↔ k∉xs.map key := by
  simp [lookupKey,List.find?_eq_none]

/-- The one element of a key is erased, and only it. -/
theorem lookupKey_eraseP (h : (xs.map key).Nodup) :
    lookupKey key k' (xs.eraseP fun x => decide (key x=k)) =
      if k'=k then none else lookupKey key k' xs := by
  induction xs with
  | nil => simp [lookupKey]
  | cons x xs ih =>
    obtain ⟨hx,hxs⟩ := List.nodup_cons.mp h
    by_cases hkey : key x=k
    · rw [List.eraseP_cons_of_pos (by simp [hkey]),lookupKey_cons]
      split_ifs with hk hsame
      · rw [lookupKey_eq_none,hk,← hkey]
        exact hx
      · exact absurd (hsame.symm.trans hkey) hk
      · rfl
    · rw [List.eraseP_cons_of_neg (by simp [hkey]),lookupKey_cons,ih hxs,lookupKey_cons]
      split_ifs with hsame hk
      · exact absurd (hsame.trans hk) hkey
      all_goals rfl

theorem perm_cons_eraseP (h : lookupKey key k xs=some x) :
    xs.Perm (x::xs.eraseP fun x => decide (key x=k)) := by
  induction xs with
  | nil => cases h
  | cons y ys ih =>
    rw [lookupKey_cons] at h
    split_ifs at h with hy
    · cases h
      rw [List.eraseP_cons_of_pos (by simp [hy])]
    · rw [List.eraseP_cons_of_neg (by simp [hy])]
      exact ((ih h).cons y).trans (List.Perm.swap x y _)

theorem eraseP_of_lookupKey_none (h : lookupKey key k xs=none) :
    xs.eraseP (fun x => decide (key x=k))=xs := by
  refine List.eraseP_of_forall_not fun x hx hk => ?_
  exact lookupKey_eq_none.mp h (List.mem_map.mpr ⟨x,hx,of_decide_eq_true hk⟩)

/-- The new element, and all but the one it stands for. -/
theorem upsert_perm : (upsert key k f xs).Perm
    (f (lookupKey key k xs)::xs.eraseP fun x => decide (key x=k)) := by
  induction xs with
  | nil => exact List.Perm.refl _
  | cons x xs ih =>
    rw [upsert,lookupKey_cons]
    split_ifs with hx
    · rw [List.eraseP_cons_of_pos (by simp [hx])]
    · rw [List.eraseP_cons_of_neg (by simp [hx])]
      exact (ih.cons x).trans (List.Perm.swap _ x _)

/-- All elements of a key are left out, and only they. -/
theorem lookupKey_filter_ne (k k' : κ) (xs : List α) :
    lookupKey key k' (xs.filter fun x => decide (key x≠k)) =
      if k'=k then none else lookupKey key k' xs := by
  split_ifs with hk
  · rw [lookupKey_eq_none]
    intro hin
    obtain ⟨x,hx,hkey⟩ := List.mem_map.mp hin
    exact of_decide_eq_true (List.mem_filter.mp hx).2 (hkey.trans hk)
  · unfold lookupKey
    rw [List.find?_filter]
    congr 1
    funext x
    by_cases hx : key x=k'
    · simp [hx,hk]
    · simp [hx]

/-- Weights of a list less its first element with a property. -/
theorem eraseP_sum {p : α → Bool} (weight : α → Nat) :
    ((xs.eraseP p).map weight).sum+(xs.find? p).elim 0 weight=(xs.map weight).sum := by
  induction xs with
  | nil => rfl
  | cons x xs ih =>
    rw [List.find?_cons]
    cases hx : p x with
    | true =>
      rw [List.eraseP_cons_of_pos hx,List.map_cons,List.sum_cons]
      exact Nat.add_comm _ _
    | false =>
      rw [List.eraseP_cons_of_neg (by simp [hx]),List.map_cons,List.map_cons,List.sum_cons,
        List.sum_cons,Nat.add_assoc,ih]

end EmuleQt.Framework
