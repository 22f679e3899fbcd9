import Mathlib.Data.Finset.Lattice.Fold

/-!
Sets that are kept element by element up to a limit, and by a summary in a semilattice past it.
-/

namespace EmuleQt.Framework

/-- A small set itself, or the summary of one. -/
inductive SpillSet (α σ : Type*)
  | exact (s : Finset α)
  | spilled (r : σ)

namespace SpillSet

section

variable {α σ : Type*} [SemilatticeSup σ] [OrderBot σ] (mark : α → σ) (limit : Nat)

/-- What a set is kept as. -/
def keep (s : Finset α) : SpillSet α σ :=
  if s.card ≤ limit then exact s else spilled (s.sup mark)

def summary : SpillSet α σ → σ
  | exact s => s.sup mark
  | spilled r => r

/-- No set past the limit is kept element by element. -/
def Within : SpillSet α σ → Prop
  | exact s => s.card ≤ limit
  | spilled _ => True

variable {mark limit} {s : Finset α}

theorem keep_of_le (h : s.card≤limit) : keep mark limit s=exact s := if_pos h

theorem keep_of_lt (h : limit<s.card) : keep mark limit s=spilled (s.sup mark) :=
  if_neg (not_le.mpr h)

theorem Within.keep_eq (h : (exact s : SpillSet α σ).Within limit) :
    keep mark limit s=exact s := keep_of_le h

theorem summary_keep (s : Finset α) : (keep mark limit s).summary mark=s.sup mark := by
  unfold keep
  split_ifs <;> rfl

theorem within_keep (s : Finset α) : (keep mark limit s).Within limit := by
  unfold keep
  split_ifs with h
  · exact h
  · trivial

end

variable {α σ : Type*} [DecidableEq α] [SemilatticeSup σ] [OrderBot σ] (mark : α → σ) (limit : Nat)

def join : SpillSet α σ → SpillSet α σ → SpillSet α σ
  | exact s, exact t => keep mark limit (s ∪ t)
  | a, b => spilled (a.summary mark ⊔ b.summary mark)

variable {mark limit} {a : SpillSet α σ}

theorem summary_join (a b : SpillSet α σ) :
    (a.join mark limit b).summary mark=a.summary mark ⊔ b.summary mark := by
  cases a with
  | exact s =>
    cases b with
    | exact t => exact (summary_keep _).trans Finset.sup_union
    | spilled r => rfl
  | spilled r => rfl

theorem within_join (a b : SpillSet α σ) : (a.join mark limit b).Within limit := by
  cases a with
  | exact s =>
    cases b with
    | exact t => exact within_keep _
    | spilled r => trivial
  | spilled r => trivial

theorem join_spilled (a : SpillSet α σ) (r : σ) :
    a.join mark limit (spilled r)=spilled (a.summary mark ⊔ r) := by
  cases a <;> rfl

theorem spilled_join (r : σ) (b : SpillSet α σ) :
    (spilled r).join mark limit b=spilled (r ⊔ b.summary mark) := rfl

theorem join_comm (a b : SpillSet α σ) : a.join mark limit b=b.join mark limit a := by
  cases a with
  | exact s =>
    cases b with
    | exact t => exact congrArg (keep mark limit) (Finset.union_comm s t)
    | spilled r => exact congrArg spilled (sup_comm _ _)
  | spilled r =>
    rw [spilled_join,join_spilled]
    exact congrArg spilled (sup_comm _ _)

theorem join_self (h : a.Within limit) : a.join mark limit a=a := by
  cases a with
  | exact s =>
    change keep mark limit (s ∪ s)=exact s
    rw [Finset.union_self]
    exact h.keep_eq
  | spilled r => exact congrArg spilled (sup_idem r)

/-- Joining what is kept of a set is joining the set. -/
theorem exact_join_keep (s t : Finset α) :
    (exact s).join mark limit (keep mark limit t)=keep mark limit (s ∪ t) := by
  by_cases h : t.card≤limit
  · rw [keep_of_le h]
    rfl
  · have ht : limit<t.card := not_le.mp h
    have hunion : limit<(s ∪ t).card :=
      ht.trans_le (Finset.card_le_card Finset.subset_union_right)
    rw [keep_of_lt ht,keep_of_lt hunion,join_spilled,Finset.sup_union]
    rfl

theorem keep_join_keep (s t : Finset α) :
    (keep mark limit s).join mark limit (keep mark limit t)=keep mark limit (s ∪ t) := by
  by_cases h : s.card≤limit
  · rw [keep_of_le h,exact_join_keep]
  · have hs : limit<s.card := not_le.mp h
    have hunion : limit<(s ∪ t).card :=
      hs.trans_le (Finset.card_le_card Finset.subset_union_left)
    rw [keep_of_lt hs,keep_of_lt hunion,spilled_join,summary_keep,Finset.sup_union]

theorem join_assoc (a b c : SpillSet α σ) :
    (a.join mark limit b).join mark limit c=a.join mark limit (b.join mark limit c) := by
  cases c with
  | spilled r => rw [join_spilled,join_spilled,join_spilled,summary_join,sup_assoc]
  | exact u =>
    cases b with
    | spilled r => rw [join_spilled,spilled_join,spilled_join,join_spilled,sup_assoc]
    | exact t =>
      cases a with
      | spilled r => rw [spilled_join,spilled_join,spilled_join,summary_join,sup_assoc]
      | exact s =>
        change (keep mark limit (s ∪ t)).join mark limit (exact u) =
          (exact s).join mark limit (keep mark limit (t ∪ u))
        rw [join_comm,exact_join_keep,exact_join_keep,Finset.union_comm,Finset.union_assoc]

theorem join_empty (h : a.Within limit) : a.join mark limit (exact ∅)=a := by
  cases a with
  | exact s =>
    change keep mark limit (s ∪ ∅)=exact s
    rw [Finset.union_empty]
    exact h.keep_eq
  | spilled r => exact congrArg spilled (sup_bot_eq r)

/-- The elements of a list joined one after the other. -/
theorem foldl_join (h : a.Within limit) (xs : List α) :
    xs.foldl (fun b x => b.join mark limit (exact {x})) a =
      a.join mark limit (keep mark limit xs.toFinset) := by
  induction xs generalizing a with
  | nil =>
    exact (join_empty h).symm
  | cons x xs ih =>
    rw [List.foldl_cons,ih (within_join _ _),join_assoc,exact_join_keep,List.toFinset_cons,
      Finset.insert_eq]

end SpillSet

end EmuleQt.Framework
