import EmuleQt.Framework.Seats

namespace EmuleQt.Framework

open Board

/-- The seats as pointers: where each live job stands and who is behind it, the live jobs in
order, and the holder of each resource. -/
structure SeatTable (κ : Type*) where
  spot : Nat → Option (Option κ × Option Nat)
  jobs : List Nat
  holder : κ → Option Nat

namespace SeatTable

variable {κ : Type*} {t : SeatTable κ} {k : κ} {h f i : Nat}

def seat (t : SeatTable κ) (k : κ) : Option Seat :=
  (t.holder k).map fun h => ⟨h,(t.spot h).bind Prod.snd⟩

structure Wf (t : SeatTable κ) : Prop where
  listed : ∀ i, i∈t.jobs ↔ t.spot i≠none
  nodup : t.jobs.Nodup
  spot_at : ∀ i so fo, t.spot i=some (so, fo) → ∃ k, so=some k ∧ At t.seat k i
  at_spot : ∀ k i, At t.seat k i → ∃ fo, t.spot i=some (some k, fo)
  last : ∀ k h f, t.seat k=some ⟨h,some f⟩ → t.spot f=some (some k, none)
  next_ne : ∀ k h f, t.seat k=some ⟨h,some f⟩ → f≠h

theorem Wf.at_one (ht : t.Wf) {k' : κ} (h1 : At t.seat k i) (h2 : At t.seat k' i) : k=k' := by
  obtain ⟨fo,h1⟩ := ht.at_spot k i h1
  obtain ⟨fo',h2⟩ := ht.at_spot k' i h2
  rw [h1] at h2
  cases h2
  rfl

theorem wf_empty : (⟨fun _ => none,[],fun _ => none⟩ : SeatTable κ).Wf := by
  have hat : ∀ k i,¬ At (⟨fun _ => none,[],fun _ => none⟩ : SeatTable κ).seat k i :=
    fun _ _ => not_at rfl
  constructor
  · simp
  · exact List.nodup_nil
  · simp
  · exact fun k i h => absurd h (hat k i)
  · simp [seat]
  · simp [seat]

theorem seat_holder {s : Seat} (hs : t.seat k=some s) : t.holder k=some s.holder := by
  obtain ⟨h,hh,rfl⟩ := Option.map_eq_some_iff.mp hs
  exact hh

theorem Wf.holder_spot (ht : t.Wf) {s : Seat} (hs : t.seat k=some s) :
    t.spot s.holder=some (some k, s.next) := by
  obtain ⟨fo,hfo⟩ := ht.at_spot k s.holder (at_holder hs)
  obtain ⟨h,hh,rfl⟩ := Option.map_eq_some_iff.mp hs
  rw [hfo]
  rfl

theorem not_at_of_spot (ht : t.Wf) (hi : t.spot i=none) : ¬ At t.seat k i := by
  intro hat
  obtain ⟨fo,hfo⟩ := ht.at_spot k i hat
  rw [hi] at hfo
  cases hfo

variable [DecidableEq κ]

def lease (t : SeatTable κ) (k : κ) (i : Nat) : SeatTable κ where
  spot := Function.update t.spot i (some (some k, none))
  jobs := t.jobs ++ [i]
  holder := Function.update t.holder k (some i)

def join (t : SeatTable κ) (k : κ) (h i : Nat) : SeatTable κ where
  spot := Function.update (Function.update t.spot i (some (some k, none))) h (some (some k, some i))
  jobs := t.jobs ++ [i]
  holder := t.holder

def leave (t : SeatTable κ) (k : κ) (h f : Nat) : SeatTable κ where
  spot := Function.update (Function.update t.spot h (some (some k, none))) f none
  jobs := t.jobs.erase f
  holder := t.holder

def advance (t : SeatTable κ) (k : κ) (h f : Nat) : SeatTable κ where
  spot := Function.update t.spot h none
  jobs := t.jobs.erase h
  holder := Function.update t.holder k (some f)

def close (t : SeatTable κ) (k : κ) (h : Nat) : Option Nat → SeatTable κ
  | none => ⟨Function.update t.spot h none, t.jobs.erase h, Function.update t.holder k none⟩
  | some f =>
    ⟨Function.update (Function.update t.spot f none) h none, (t.jobs.erase f).erase h,
      Function.update t.holder k none⟩

omit [DecidableEq κ] in
/-- A seat elsewhere does not see what happens to the jobs that are not there. -/
theorem seat_congr {t' : SeatTable κ} {k' : κ} (hh : t'.holder k'=t.holder k')
    (hs : ∀ i,t.holder k'=some i → t'.spot i=t.spot i) : t'.seat k'=t.seat k' := by
  unfold seat
  rw [hh]
  cases hk : t.holder k' with
  | none => rfl
  | some i => rw [Option.map_some,Option.map_some,hs i hk]

omit [DecidableEq κ] in
theorem at_of_holder (hk : t.holder k=some i) : At t.seat k i :=
  ⟨_,by rw [seat,hk]; rfl,.inl rfl⟩

theorem lease_seat (ht : t.Wf) (hi : t.spot i=none) :
    (t.lease k i).seat=Function.update t.seat k (some ⟨i,none⟩) := by
  funext k'
  by_cases hk : k'=k
  · subst hk
    simp [seat,lease]
  · rw [Function.update_of_ne hk]
    refine seat_congr (Function.update_of_ne hk _ _) fun j hj => Function.update_of_ne ?_ _ _
    rintro rfl
    exact not_at_of_spot ht hi (at_of_holder hj)

theorem join_seat (ht : t.Wf) (hi : t.spot i=none) (hk : t.seat k=some ⟨h,none⟩) :
    (t.join k h i).seat=Function.update t.seat k (some ⟨h,some i⟩) := by
  have hh : t.holder k=some h := seat_holder hk
  funext k'
  by_cases he : k'=k
  · subst he
    simp [seat,join,hh]
  · rw [Function.update_of_ne he]
    refine seat_congr rfl fun j hj => ?_
    have hjh : j≠h := by
      rintro rfl
      exact he (ht.at_one (at_of_holder hj) (at_holder hk))
    have hji : j≠i := by
      rintro rfl
      exact not_at_of_spot ht hi (at_of_holder hj)
    show Function.update (Function.update _ _ _) _ _ j=_
    rw [Function.update_of_ne hjh,Function.update_of_ne hji]

theorem leave_seat (ht : t.Wf) (hk : t.seat k=some ⟨h,some f⟩) :
    (t.leave k h f).seat=Function.update t.seat k (some ⟨h,none⟩) := by
  have hh : t.holder k=some h := seat_holder hk
  have hne := ht.next_ne k h f hk
  funext k'
  by_cases he : k'=k
  · subst he
    simp [seat,leave,hh,Function.update_of_ne hne.symm]
  · rw [Function.update_of_ne he]
    refine seat_congr rfl fun j hj => ?_
    have hjh : j≠h := by
      rintro rfl
      exact he (ht.at_one (at_of_holder hj) (at_holder hk))
    have hjf : j≠f := by
      rintro rfl
      exact he (ht.at_one (at_of_holder hj) (at_next hk))
    show Function.update (Function.update _ _ _) _ _ j=_
    rw [Function.update_of_ne hjf,Function.update_of_ne hjh]

theorem advance_seat (ht : t.Wf) (hk : t.seat k=some ⟨h,some f⟩) :
    (t.advance k h f).seat=Function.update t.seat k (some ⟨f,none⟩) := by
  have hne := ht.next_ne k h f hk
  funext k'
  by_cases he : k'=k
  · subst he
    simp [seat,advance,Function.update_of_ne hne,ht.last k' h f hk]
  · rw [Function.update_of_ne he]
    refine seat_congr (Function.update_of_ne he _ _) fun j hj => Function.update_of_ne ?_ _ _
    rintro rfl
    exact he (ht.at_one (at_of_holder hj) (at_holder hk))

theorem close_seat (ht : t.Wf) {next : Option Nat} (hk : t.seat k=some ⟨h,next⟩) :
    (t.close k h next).seat=Function.update t.seat k none := by
  funext k'
  by_cases he : k'=k
  · subst he
    cases next <;> simp [seat,close]
  · rw [Function.update_of_ne he]
    have hjh : ∀ j,t.holder k'=some j → j≠h := by
      rintro j hj rfl
      exact he (ht.at_one (at_of_holder hj) (at_holder hk))
    cases next with
    | none => exact seat_congr (Function.update_of_ne he _ _) fun j hj =>
        Function.update_of_ne (hjh j hj) _ _
    | some f =>
      refine seat_congr (Function.update_of_ne he _ _) fun j hj => ?_
      have hjf : j≠f := by
        rintro rfl
        exact he (ht.at_one (at_of_holder hj) (at_next hk))
      show Function.update (Function.update _ _ _) _ _ j=_
      rw [Function.update_of_ne (hjh j hj),Function.update_of_ne hjf]

theorem lease_wf (ht : t.Wf) (hi : t.spot i=none) (hk : t.seat k=none) :
    (t.lease k i).Wf := by
  have hs := lease_seat (k := k) ht hi
  have hat : ∀ j,¬ At t.seat k j := fun j => not_at hk
  obtain ⟨h1,h2,h3,h4,h5,h6⟩ := ht
  constructor
  · simp only [lease,Function.update_apply,List.mem_append,List.mem_singleton] at *
    grind
  · simp only [lease] at *
    grind
  · simp only [hs,at_update]
    simp only [lease,Function.update_apply] at *
    grind
  · simp only [hs,at_update]
    simp only [lease,Function.update_apply] at *
    grind
  · simp only [hs]
    simp only [lease,Function.update_apply] at *
    grind
  · simp only [hs]
    grind

theorem join_wf (ht : t.Wf) (hi : t.spot i=none)
    (hk : t.seat k=some ⟨h,none⟩) : (t.join k h i).Wf := by
  have hs := join_seat ht hi hk
  have hat := fun j => at_seat (i := j) hk
  have hspot := ht.holder_spot hk
  obtain ⟨h1,h2,h3,h4,h5,h6⟩ := ht
  constructor
  · simp only [join,Function.update_apply,List.mem_append,List.mem_singleton] at *
    grind
  · simp only [join] at *
    grind
  all_goals
    simp only [hs,at_update]
    simp only [join,Function.update_apply] at *
    grind

theorem leave_wf (ht : t.Wf) (hk : t.seat k=some ⟨h,some f⟩) : (t.leave k h f).Wf := by
  have hs := leave_seat ht hk
  have hat := fun j => at_seat (i := j) hk
  have hspot := ht.holder_spot hk
  obtain ⟨h1,h2,h3,h4,h5,h6⟩ := ht
  constructor
  · simp only [leave,Function.update_apply] at *
    grind
  · simp only [leave] at *
    grind
  all_goals
    simp only [hs,at_update]
    simp only [leave,Function.update_apply] at *
    grind

theorem advance_wf (ht : t.Wf) (hk : t.seat k=some ⟨h,some f⟩) : (t.advance k h f).Wf := by
  have hs := advance_seat ht hk
  have hat := fun j => at_seat (i := j) hk
  have hspot := ht.holder_spot hk
  obtain ⟨h1,h2,h3,h4,h5,h6⟩ := ht
  constructor
  · simp only [advance,Function.update_apply] at *
    grind
  · simp only [advance] at *
    grind
  all_goals
    simp only [hs,at_update]
    simp only [advance,Function.update_apply] at *
    grind

theorem close_wf (ht : t.Wf) {next : Option Nat} (hk : t.seat k=some ⟨h,next⟩) :
    (t.close k h next).Wf := by
  have hs := close_seat ht hk
  have hat := fun j => at_seat (i := j) hk
  have hspot := ht.holder_spot hk
  cases next with
  | none =>
    obtain ⟨h1,h2,h3,h4,h5,h6⟩ := ht
    constructor
    · simp only [close,Function.update_apply] at *
      grind
    · simp only [close] at *
      grind
    all_goals
      simp only [hs,at_update]
      simp only [close,Function.update_apply] at *
      grind
  | some f =>
    obtain ⟨h1,h2,h3,h4,h5,h6⟩ := ht
    constructor
    · simp only [close,Function.update_apply] at *
      grind
    · simp only [close] at *
      grind
    all_goals
      simp only [hs,at_update]
      simp only [close,Function.update_apply] at *
      grind

end SeatTable

end EmuleQt.Framework
