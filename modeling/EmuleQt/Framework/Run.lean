import Mathlib.Data.List.Basic
import Mathlib.Data.Nat.Basic

namespace EmuleQt.Framework

variable {σ τ ε : Type*}

/-- The state after a sequence of operations, oldest first. -/
def run (step : σ → ε → σ) (s : σ) (ops : List ε) : σ := ops.foldl step s

@[simp] theorem run_nil (step : σ → ε → σ) (s : σ) : run step s []=s := rfl

@[simp] theorem run_cons (step : σ → ε → σ) (s : σ) (e : ε) (ops : List ε) :
    run step s (e::ops)=run step (step s e) ops := rfl

theorem run_append (step : σ → ε → σ) (s : σ) (xs ys : List ε) :
    run step s (xs++ys)=run step (run step s xs) ys := by
  simp [run]

/-- Every operation meets `ok` in the state the run has reached when it comes. -/
def Along (step : σ → ε → σ) (ok : σ → ε → Prop) : σ → List ε → Prop
  | _, [] => True
  | s, e :: ops => ok s e ∧ Along step ok (step s e) ops

instance instDecidableAlong (step : σ → ε → σ) (ok : σ → ε → Prop)
    [∀ s e, Decidable (ok s e)] : (s : σ) → (ops : List ε) → Decidable (Along step ok s ops)
  | _, [] => .isTrue trivial
  | s, e::ops =>
    have := instDecidableAlong step ok (step s e) ops
    inferInstanceAs (Decidable (ok s e ∧ Along step ok (step s e) ops))

theorem along_append (step : σ → ε → σ) (ok : σ → ε → Prop) (s : σ) (xs ys : List ε) :
    Along step ok s (xs++ys) ↔ Along step ok s xs ∧ Along step ok (run step s xs) ys := by
  induction xs generalizing s with
  | nil => simp [Along]
  | cons x xs ih => simp only [List.cons_append,Along,ih,run_cons,and_assoc]

theorem along_of_forall {step : σ → ε → σ} {ok : ε → Prop} (s : σ) {ops : List ε}
    (h : ∀ e∈ops,ok e) : Along step (fun _ e => ok e) s ops := by
  induction ops generalizing s with
  | nil => trivial
  | cons e ops ih =>
    exact ⟨h e List.mem_cons_self,ih (step s e) fun e' he' => h e' (List.mem_cons_of_mem e he')⟩

theorem along_true (step : σ → ε → σ) (s : σ) (ops : List ε) :
    Along step (fun _ _ => True) s ops := along_of_forall s fun _ _ => trivial

/-- Two conditions on a run, one of which may not be asked for. -/
theorem along_and {step : σ → ε → σ} {p q : σ → ε → Prop} {c : Prop} {s : σ} {ops : List ε}
    (hp : Along step p s ops) (hq : c → Along step q s ops) :
    Along step (fun s e => p s e ∧ (c → q s e)) s ops := by
  induction ops generalizing s with
  | nil => trivial
  | cons e ops ih => exact ⟨⟨hp.1,fun hc => (hq hc).1⟩,ih hp.2 fun hc => (hq hc).2⟩

/-- What one operation preserves, a whole run preserves. -/
theorem run_invariant {step : σ → ε → σ} {ok : σ → ε → Prop} {inv : σ → Prop}
    (hstep : ∀ s e,inv s → ok s e → inv (step s e)) {s : σ} {ops : List ε}
    (hs : inv s) (hok : Along step ok s ops) : inv (run step s ops) := by
  induction ops generalizing s with
  | nil => exact hs
  | cons e ops ih => exact ih (hstep s e hs hok.1) hok.2

/-- A step-by-step simulation relates the ends of the two runs. -/
theorem run_simulation {step : σ → ε → σ} {abstractStep : τ → ε → τ} {ok : σ → ε → Prop}
    {rel : σ → τ → Prop}
    (hstep : ∀ s t e,rel s t → ok s e → rel (step s e) (abstractStep t e))
    {s : σ} {t : τ} {ops : List ε} (hs : rel s t) (hok : Along step ok s ops) :
    rel (run step s ops) (run abstractStep t ops) := by
  induction ops generalizing s t with
  | nil => exact hs
  | cons e ops ih => exact ih (hstep s t e hs hok.1) hok.2

end EmuleQt.Framework

namespace EmuleQt.Framework

variable {σ ε : Type*}

/-- The state after operations that may each go wrong, oldest first. -/
def runChecked (step : σ → ε → Option σ) : σ → List ε → Option σ
  | s, [] => some s
  | s, e::ops => (step s e).bind fun s' => runChecked step s' ops

variable {step : σ → ε → Option σ} {inv : σ → Prop} {s s' : σ} {ops more : List ε}

theorem runChecked_cons {e : ε} :
    runChecked step s (e::ops)=(step s e).bind fun s' => runChecked step s' ops := rfl

theorem runChecked_append : runChecked step s (ops++more) =
    (runChecked step s ops).bind fun s' => runChecked step s' more := by
  induction ops generalizing s with
  | nil => rfl
  | cons e ops ih =>
    rw [List.cons_append,runChecked_cons,runChecked_cons,Option.bind_assoc]
    congr
    funext s'
    exact ih

/-- What every step that succeeds preserves, a run that succeeds preserves. -/
theorem runChecked_invariant (hstep : ∀ s e s',inv s → step s e=some s' → inv s')
    (hs : inv s) (hrun : runChecked step s ops=some s') : inv s' := by
  induction ops generalizing s with
  | nil =>
    obtain rfl := Option.some.inj hrun
    exact hs
  | cons e ops ih =>
    obtain ⟨s₁,hone,hrest⟩ := Option.bind_eq_some_iff.mp hrun
    exact ih (hstep s e s₁ hs hone) hrest

/-- Steps that never go wrong where the invariant holds make runs that never do. -/
theorem runChecked_isSome (htotal : ∀ s e,inv s → ∃ s', step s e=some s' ∧ inv s')
    (hs : inv s) (ops : List ε) : ∃ s', runChecked step s ops=some s' ∧ inv s' := by
  induction ops generalizing s with
  | nil => exact ⟨s,rfl,hs⟩
  | cons e ops ih =>
    obtain ⟨s₁,hone,hs₁⟩ := htotal s e hs
    obtain ⟨s',hrest,hs'⟩ := ih hs₁
    refine ⟨s',?_,hs'⟩
    rw [runChecked_cons,hone]
    exact hrest

end EmuleQt.Framework

namespace EmuleQt.Framework

variable {σ ρ : Type*} {body : σ → σ ⊕ ρ} {s s' : σ} {r r' : ρ}

/-- A loop whose body goes on from a new state or returns, cut off after `n` passes. -/
def loop (body : σ → σ ⊕ ρ) : Nat → σ → Option ρ
  | 0, _ => none
  | n + 1, s =>
    match body s with
    | .inl s' => loop body n s'
    | .inr r => some r

/-- The loop entered in `s` ends and returns `r`. -/
inductive Returns (body : σ → σ ⊕ ρ) : σ → ρ → Prop
  | done {s : σ} {r : ρ} (h : body s = .inr r) : Returns body s r
  | again {s s' : σ} {r : ρ} (h : body s = .inl s') (hr : Returns body s' r) : Returns body s r

theorem loop_returns {n : Nat} (h : loop body n s=some r) : Returns body s r := by
  induction n generalizing s with
  | zero => simp [loop] at h
  | succ n ih =>
    cases hb : body s with
    | inl s' => exact .again hb (ih (by simpa [loop,hb] using h))
    | inr r' =>
      simp only [loop,hb,Option.some.injEq] at h
      exact .done (h ▸ hb)

theorem Returns.unique (h : Returns body s r) (h' : Returns body s r') : r=r' := by
  induction h with
  | done hb =>
    cases h' with
    | done hb' => simpa using hb.symm.trans hb'
    | again hb' _ => exact absurd (hb.symm.trans hb') (by simp)
  | again hb _ ih =>
    cases h' with
    | done hb' => exact absurd (hb.symm.trans hb') (by simp)
    | again hb' hr =>
      have he := hb.symm.trans hb'
      simp only [Sum.inl.injEq] at he
      exact ih (he ▸ hr)

theorem Returns.of_done (h : Returns body s r) (hb : body s = .inr r') : r=r' :=
  h.unique (.done hb)

theorem Returns.of_again (h : Returns body s r) (hb : body s = .inl s') : Returns body s' r := by
  cases h with
  | done hb' => exact absurd (hb.symm.trans hb') (by simp)
  | again hb' hr =>
    have he := hb.symm.trans hb'
    simp only [Sum.inl.injEq] at he
    exact he ▸ hr

/-- A bound on the passes left that every pass lowers is fuel enough. -/
theorem loop_of_measure {inv : σ → Prop} {measure : σ → Nat}
    (hstep : ∀ s s',inv s → body s = .inl s' → inv s' ∧ measure s' < measure s)
    {n : Nat} (hs : inv s) (hn : measure s<n) : ∃ r, loop body n s=some r := by
  induction n generalizing s with
  | zero => omega
  | succ n ih =>
    cases hb : body s with
    | inl s' =>
      have h := hstep s s' hs hb
      simpa [loop,hb] using ih h.1 (by omega)
    | inr r => exact ⟨r,by simp [loop,hb]⟩

/-- What every pass preserves holds of the state in which the loop returns. -/
theorem Returns.last {inv : σ → Prop} (hstep : ∀ s s',inv s → body s = .inl s' → inv s')
    (h : Returns body s r) (hs : inv s) : ∃ s', inv s' ∧ body s' = .inr r := by
  induction h with
  | done hb => exact ⟨_,hs,hb⟩
  | again hb _ ih => exact ih (hstep _ _ hs hb)

end EmuleQt.Framework
