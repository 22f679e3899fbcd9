import Mathlib.Algebra.GroupWithZero.Nat
import Mathlib.Data.List.Basic

namespace EmuleQt.Framework

/-! # Run lengths -/

/-- The lengths of the alternating runs of a list that follows `run` copies of `value`. -/
def runLengths : Bool → Nat → List Bool → List Nat
  | _, run, [] => [run]
  | value, run, b::bs =>
    if b=value then runLengths value (run+1) bs else run::runLengths (!value) 1 bs

/-- The list with the alternating runs, `value` first. -/
def expandRuns : Bool → List Nat → List Bool
  | _, [] => []
  | value, n::ns => List.replicate n value++expandRuns (!value) ns

theorem expandRuns_runLengths (value : Bool) (run : Nat) (bits : List Bool) :
    expandRuns value (runLengths value run bits)=List.replicate run value++bits := by
  induction bits generalizing value run with
  | nil => rfl
  | cons b bs ih =>
    rw [runLengths]
    split_ifs with hb
    · rw [ih,hb,List.replicate_succ',List.append_assoc]
      rfl
    · have hflip : (!value)=b := by
        cases value <;> cases b <;> simp_all
      rw [expandRuns,ih,hflip]
      rfl

theorem sum_runLengths (value : Bool) (run : Nat) (bits : List Bool) :
    (runLengths value run bits).sum=run+bits.length := by
  induction bits generalizing value run with
  | nil => simp [runLengths]
  | cons b bs ih =>
    rw [runLengths]
    split_ifs
    · rw [ih,List.length_cons]
      omega
    · rw [List.sum_cons,ih,List.length_cons]
      omega

/-! # Maximal runs -/

variable {α : Type*} (p : α → Bool)

/-- The maximal runs `[first, last)` of the elements with the property, from the place `i` on;
`open?` is where the run that reaches `i` began. -/
def maximalRuns : List α → Nat → Option Nat → List (Nat × Nat)
  | [], _, none => []
  | [], i, some first => [(first, i)]
  | x::xs, i, none => maximalRuns xs (i+1) (if p x then some i else none)
  | x::xs, i, some first =>
    if p x then maximalRuns xs (i+1) (some first)
    else (first, i)::maximalRuns xs (i+1) none

variable {p} {xs : List α} {i j : Nat} {open? : Option Nat} {r : Nat × Nat}

theorem maximalRuns_bounds (hopen : ∀ first∈open?,first < i)
    (h : r∈maximalRuns p xs i open?) :
    r.1<r.2 ∧ (∀ first∈open?,first≤r.1) ∧ (open? = none → i≤r.1) := by
  induction xs generalizing i open? with
  | nil =>
    cases open? with
    | none => cases h
    | some first =>
      obtain rfl := List.mem_singleton.mp h
      exact ⟨hopen first rfl,fun f hf => Nat.le_of_eq (Option.some.inj hf).symm,fun hnone => by cases hnone⟩
  | cons x xs ih =>
    cases open? with
    | none =>
      rw [maximalRuns] at h
      split_ifs at h with hx
      · obtain ⟨hlt,hfirst,-⟩ := ih (fun f hf => by cases hf; omega) h
        exact ⟨hlt,fun f hf => (Option.not_mem_none f hf).elim,fun _ => hfirst i rfl⟩
      · obtain ⟨hlt,-,hfrom⟩ := ih (fun f hf => (Option.not_mem_none f hf).elim) h
        exact ⟨hlt,fun f hf => (Option.not_mem_none f hf).elim,fun _ => by
          have := hfrom rfl
          omega⟩
    | some first =>
      have hfirst := hopen first rfl
      rw [maximalRuns] at h
      split_ifs at h with hx
      · obtain ⟨hlt,hle,-⟩ := ih (fun f hf => by cases hf; omega) h
        exact ⟨hlt,hle,fun hnone => by cases hnone⟩
      · rcases List.mem_cons.mp h with rfl | hrest
        · exact ⟨hfirst,fun f hf => Nat.le_of_eq (Option.some.inj hf).symm,fun hnone => by cases hnone⟩
        · obtain ⟨hlt,-,hfrom⟩ := ih (fun f hf => (Option.not_mem_none f hf).elim) hrest
          refine ⟨hlt,fun f hf => ?_,fun hnone => by cases hnone⟩
          obtain rfl := Option.some.inj hf
          have := hfrom rfl
          omega

/-- The runs stand in order, with a gap between each two. -/
theorem maximalRuns_pairwise (hopen : ∀ first∈open?,first < i) :
    (maximalRuns p xs i open?).Pairwise fun a b => a.2<b.1 := by
  induction xs generalizing i open? with
  | nil => cases open? <;> simp [maximalRuns]
  | cons x xs ih =>
    cases open? with
    | none =>
      refine ih fun f hf => ?_
      split_ifs at hf
      · cases hf
        omega
      · cases hf
    | some first =>
      have hfirst := hopen first rfl
      rw [maximalRuns]
      split_ifs
      · exact ih fun f hf => by
          cases hf
          omega
      · refine List.pairwise_cons.mpr ⟨fun r hr => ?_,ih fun f hf => by cases hf⟩
        obtain ⟨-,-,hfrom⟩ := maximalRuns_bounds (fun f hf => by cases hf) hr
        exact hfrom rfl

/-- The places from `i` on of a list with one element more. -/
theorem place_cons (x : α) : (i≤j ∧ ∃ y∈(x::xs)[j-i]?, p y=true) ↔
    (j=i ∧ p x=true) ∨ i+1≤j ∧ ∃ y∈xs[j-(i+1)]?, p y=true := by
  rcases Nat.lt_trichotomy j i with hlt | rfl | hgt
  · constructor
    · rintro ⟨hle,-⟩
      omega
    · rintro (⟨heq,-⟩ | ⟨hle,-⟩) <;> omega
  · rw [Nat.sub_self,List.getElem?_cons_zero]
    constructor
    · rintro ⟨-,y,hy,hpy⟩
      obtain rfl := Option.some.inj hy
      exact .inl ⟨rfl,hpy⟩
    · rintro (⟨-,hpx⟩ | ⟨hle,-⟩)
      · exact ⟨Nat.le_refl j,x,rfl,hpx⟩
      · omega
  · have hstep : j-i=j-(i+1)+1 := by omega
    rw [hstep,List.getElem?_cons_succ]
    constructor
    · rintro ⟨-,hy⟩
      exact .inr ⟨hgt,hy⟩
    · rintro (⟨heq,-⟩ | ⟨-,hy⟩)
      · omega
      · exact ⟨by omega,hy⟩

/-- The runs cover the places of the elements with the property, and no others. -/
theorem mem_maximalRuns (hopen : ∀ first∈open?,first < i) :
    (∃ r∈maximalRuns p xs i open?, r.1≤j ∧ j<r.2) ↔
      (∃ first∈open?, first≤j ∧ j < i) ∨ i≤j ∧ ∃ x∈xs[j-i]?, p x=true := by
  induction xs generalizing i open? with
  | nil => cases open? <;> simp [maximalRuns]
  | cons x xs ih =>
    rw [place_cons]
    cases open? with
    | none =>
      rw [maximalRuns,ih (by
        intro f hf
        split_ifs at hf
        · cases hf
          omega
        · cases hf)]
      by_cases hx : p x=true
      · rw [if_pos hx]
        constructor
        · rintro (⟨f,hf,hle,hlt⟩ | hrest)
          · obtain rfl := Option.some.inj hf
            exact .inr (.inl ⟨by omega,hx⟩)
          · exact .inr (.inr hrest)
        · rintro (⟨f,hf,-⟩ | ⟨rfl,-⟩ | hrest)
          · cases hf
          · exact .inl ⟨j,rfl,Nat.le_refl j,Nat.lt_succ_self j⟩
          · exact .inr hrest
      · rw [if_neg hx]
        constructor
        · rintro (⟨f,hf,-⟩ | hrest)
          · cases hf
          · exact .inr (.inr hrest)
        · rintro (⟨f,hf,-⟩ | ⟨-,hpx⟩ | hrest)
          · cases hf
          · exact absurd hpx hx
          · exact .inr hrest
    | some first =>
      have hfirst := hopen first rfl
      rw [maximalRuns]
      by_cases hx : p x=true
      · rw [if_pos hx,ih (fun f hf => by cases hf; omega)]
        constructor
        · rintro (⟨f,hf,hle,hlt⟩ | hrest)
          · obtain rfl := Option.some.inj hf
            rcases Nat.lt_or_ge j i with hj | hj
            · exact .inl ⟨first,rfl,hle,hj⟩
            · exact .inr (.inl ⟨by omega,hx⟩)
          · exact .inr (.inr hrest)
        · rintro (⟨f,hf,hle,hlt⟩ | ⟨rfl,-⟩ | hrest)
          · exact .inl ⟨f,hf,hle,by omega⟩
          · exact .inl ⟨first,rfl,by omega,Nat.lt_succ_self j⟩
          · exact .inr hrest
      · rw [if_neg hx,List.exists_mem_cons_iff,ih (fun f hf => by cases hf)]
        constructor
        · rintro (⟨hle,hlt⟩ | ⟨f,hf,-⟩ | hrest)
          · exact .inl ⟨first,rfl,hle,hlt⟩
          · cases hf
          · exact .inr (.inr hrest)
        · rintro (⟨f,hf,hle,hlt⟩ | ⟨-,hpx⟩ | hrest)
          · obtain rfl := Option.some.inj hf
            exact .inl ⟨hle,hlt⟩
          · exact absurd hpx hx
          · exact .inr (.inr hrest)

end EmuleQt.Framework
