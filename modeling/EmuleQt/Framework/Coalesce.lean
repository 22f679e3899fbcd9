import Mathlib.Data.List.Basic

namespace EmuleQt.Framework

variable {ε κ : Type*} (key : ε → κ) (live : ε → Bool)

/-- Every entry that was given up is followed by one of its key that was not. -/
def Covered : List ε → Prop
  | [] => True
  | e :: es => (live e = false → ∃ x ∈ es, live x = true ∧ key x = key e) ∧ Covered es

variable {key live} {e o o' : ε} {xs ys : List ε}

theorem Covered.append_live (h : Covered key live xs) (he : live e=true) :
    Covered key live (xs++[e]) := by
  induction xs with
  | nil => exact ⟨by simp [he],trivial⟩
  | cons x xs ih =>
    refine ⟨fun hx => ?_,ih h.2⟩
    obtain ⟨y,hy,hl,hk⟩ := h.1 hx
    exact ⟨y,List.mem_append_left _ hy,hl,hk⟩

/-- An entry is given up for one of its key that comes in at the end. -/
theorem Covered.replace (h : Covered key live (xs++o::ys)) (hk : key o'=key o)
    (he : live e=true) (hke : key e=key o) :
    Covered key live (xs++o'::ys++[e]) := by
  induction xs with
  | nil => exact ⟨fun _ => ⟨e,by simp,he,hke.trans hk.symm⟩,h.2.append_live he⟩
  | cons x xs ih =>
    refine ⟨fun hx => ?_,ih h.2⟩
    obtain ⟨y,hy,hl,hky⟩ := h.1 hx
    rcases List.mem_append.mp hy with hy | hy
    · exact ⟨y,by simp [hy],hl,hky⟩
    rcases List.mem_cons.mp hy with rfl | hy
    · exact ⟨e,by simp,he,hke.trans hky⟩
    · exact ⟨y,by simp [hy],hl,hky⟩

theorem Covered.exists_later (h : Covered key live (xs++e::ys)) (he : live e=false) :
    ∃ y∈ys, live y=true ∧ key y=key e := by
  induction xs with
  | nil => exact h.1 he
  | cons x xs ih => exact ih h.2

/-- The newest entry of a key is never given up. -/
theorem Covered.getLast [DecidableEq κ] (h : Covered key live xs) (k : κ) :
    (xs.filter fun e => decide (key e=k)).getLast? =
      ((xs.filter live).filter fun e => decide (key e=k)).getLast? := by
  induction xs with
  | nil => rfl
  | cons x xs ih =>
    have hrest := ih h.2
    by_cases hk : key x=k
    · cases hx : live x with
      | true =>
        simp only [List.filter_cons,hk,hx,decide_true,if_true,List.getLast?_cons,hrest]
      | false =>
        obtain ⟨y,hy,hl,hky⟩ := h.1 hx
        have hmem : y∈xs.filter fun e => decide (key e=k) := by simp [hy,hky,hk]
        obtain ⟨z,hz⟩ : ∃ z, (xs.filter fun e => decide (key e=k)).getLast? = some z :=
          ⟨_,List.getLast?_eq_some_getLast (List.ne_nil_of_mem hmem)⟩
        rw [List.filter_cons_of_pos (by simp [hk]),List.filter_cons_of_neg (by simp [hx]),← hrest,
          List.getLast?_cons,hz,Option.getD_some]
    · have hne : ∀ zs : List ε, (x::zs).filter (fun e => decide (key e=k)) =
          zs.filter fun e => decide (key e=k) := fun zs => List.filter_cons_of_neg (by simp [hk])
      rw [hne,hrest,List.filter_cons]
      split
      · rw [hne]
      · rfl

end EmuleQt.Framework
