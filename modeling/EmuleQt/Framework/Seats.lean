import Mathlib.Data.List.Nodup
import Mathlib.Logic.Relation

namespace EmuleQt.Framework

/-- Who uses a resource: the job that holds it and the one queued behind it. -/
structure Seat where
  holder : Nat
  next : Option Nat
  deriving DecidableEq

/-- The end of a job: given back unasked or not, and the units of a resource it is charged. -/
structure Report (κ : Type*) where
  job : Nat
  requeue : Bool
  charge : Option (κ × Nat × Nat)

structure Link (κ : Type*) where
  host : Nat
  follower : Nat
  seat : κ
  deriving DecidableEq

/-- Jobs are numbered as they come; `heard` counts the units a resource has produced,
`charged` those some report covers and `held` those produced while somebody held it. -/
@[ext]
structure Board (κ : Type*) where
  seat : κ → Option Seat
  requests : Nat
  reports : List (Report κ)
  links : List (Link κ)
  takeovers : List (Link κ)
  leases : κ → Nat
  releases : κ → Nat
  heard : κ → Nat
  charged : κ → Nat
  held : κ → Nat

variable {κ : Type*} {b b' : Board κ} {seat : κ → Option Seat} {k k' : κ} {h f i : Nat}

namespace Board

def At (seat : κ → Option Seat) (k : κ) (i : Nat) : Prop :=
  ∃ s, seat k = some s ∧ (s.holder = i ∨ s.next = some i)

def jobs (b : Board κ) : List Nat := b.reports.map Report.job

/-- The report of a job that ends while it holds `k`. -/
def final (b : Board κ) (k : κ) (i : Nat) (requeue : Bool) : Report κ :=
  ⟨i, requeue, some (k, b.charged k, b.heard k)⟩

/-- The report covers unit `x` of `k`. -/
def Charges (r : Report κ) (k : κ) (x : Nat) : Prop :=
  ∃ lo hi, r.charge = some (k, lo, hi) ∧ lo ≤ x ∧ x < hi

/-- A follower that was given back was given back before its host was done. -/
def GivenBack (reports : List (Report κ)) (l : Link κ) : Prop :=
  ∃ pre r post, reports=pre++r::post ∧ r.job=l.follower ∧ r.requeue=true ∧
    l.host∉pre.map Report.job

/-- Every job is in one place: reported, or on one seat. -/
structure Seated (b : Board κ) : Prop where
  jobs_nodup : b.jobs.Nodup
  jobs_lt : ∀ i∈b.jobs, i<b.requests
  at_lt : ∀ k i, At b.seat k i → i<b.requests
  not_both : ∀ k i, At b.seat k i → i∉b.jobs
  somewhere : ∀ i<b.requests, i∈b.jobs ∨ ∃ k, At b.seat k i
  at_one : ∀ k k' i, At b.seat k i → At b.seat k' i → k=k'
  next_ne : ∀ k s, b.seat k=some s → s.next≠some s.holder
  balance : ∀ k, b.leases k=b.releases k+(if (b.seat k).isSome then 1 else 0)

/-- The reports cover every charged unit once, and no unit is lost when a seat is vacated. -/
structure Charged (b : Board κ) : Prop where
  charged_le : ∀ k, b.charged k ≤ b.heard k
  held_le : ∀ k, b.held k ≤ b.heard k
  held_charged : ∀ k, b.seat k = none → b.held k ≤ b.charged k
  charges_lt : ∀ r ∈ b.reports, ∀ k x, Charges r k x → x < b.charged k
  charged_by : ∀ k, ∀ x < b.charged k, ∃ r ∈ b.reports, Charges r k x
  charges_one : ∀ r ∈ b.reports, ∀ r' ∈ b.reports, ∀ k x, Charges r k x → Charges r' k x → r = r'

/-- Who queued behind a holder still waits there, took over from it, or was given back. -/
structure Linked (b : Board κ) : Prop where
  linked : ∀ l ∈ b.links, b.seat l.seat = some ⟨l.host, some l.follower⟩ ∨ l ∈ b.takeovers ∨
    GivenBack b.reports l
  queued : ∀ k h f, b.seat k = some ⟨h, some f⟩ → ⟨h, f, k⟩ ∈ b.links
  takeover_linked : ∀ l ∈ b.takeovers, l ∈ b.links
  takeover_after : ∀ l ∈ b.takeovers, ∃ r ∈ b.reports, r.job = l.host ∧
    ∃ lo hi, r.charge = some (l.seat, lo, hi)
  takeover_stays : ∀ l ∈ b.takeovers, At b.seat l.seat l.follower ∨ l.follower ∈ b.jobs

theorem at_holder {s : Seat} (hk : seat k=some s) : At seat k s.holder := ⟨s,hk,.inl rfl⟩

theorem at_next (hk : seat k=some ⟨h,some f⟩) : At seat k f := ⟨_,hk,.inr rfl⟩

theorem not_at (hk : seat k=none) : ¬ At seat k i := by
  rintro ⟨s,hs,-⟩
  rw [hk] at hs
  cases hs

theorem at_seat {s : Seat} (hk : seat k=some s) :
    At seat k i ↔ s.holder=i ∨ s.next=some i := by
  constructor
  · rintro ⟨s',hs',hi⟩
    rw [hk] at hs'
    cases hs'
    exact hi
  · exact fun hi => ⟨s,hk,hi⟩

theorem charges_final (j : Nat) (requeue : Bool) (k k' : κ) (x : Nat) :
    Charges (b.final k j requeue) k' x ↔ k'=k ∧ b.charged k≤x ∧ x<b.heard k := by
  simp only [Charges,final,Option.some.injEq,Prod.mk.injEq]
  constructor
  · rintro ⟨lo,hi,⟨rfl,rfl,rfl⟩,hx⟩
    exact ⟨rfl,hx⟩
  · rintro ⟨rfl,hx⟩
    exact ⟨_,_,⟨rfl,rfl,rfl⟩,hx⟩

theorem not_charges (j : Nat) (requeue : Bool) (k : κ) (x : Nat) :
    ¬ Charges (⟨j,requeue,none⟩ : Report κ) k x := by
  rintro ⟨lo,hi,h,-⟩
  cases h

theorem GivenBack.append {reports more : List (Report κ)} {l : Link κ}
    (h : GivenBack reports l) : GivenBack (reports++more) l := by
  obtain ⟨pre,r,post,rfl,hr⟩ := h
  exact ⟨pre,r,post++more,by simp,hr⟩

theorem givenBack_last {reports : List (Report κ)} (hh : h∉reports.map Report.job) :
    GivenBack (reports++[⟨f,true,none⟩]) ⟨h,f,k⟩ :=
  ⟨reports,_,[],rfl,rfl,rfl,hh⟩

theorem link_at (hk : seat k=some ⟨h,some f⟩) (l : Link κ)
    (hl : seat l.seat=some ⟨l.host,some l.follower⟩) (hlk : l.seat=k) : l=⟨h,f,k⟩ := by
  cases hlk
  have he := hl.symm.trans hk
  cases he
  rfl

structure Sound (b : Board κ) : Prop where
  seated : Seated b
  charged : Charged b
  linked : Linked b

/-- Nothing has happened yet. -/
def start : Board κ :=
  ⟨fun _ => none, 0, [], [], [], fun _ => 0, fun _ => 0, fun _ => 0, fun _ => 0, fun _ => 0⟩

theorem start_sound : Sound (start : Board κ) := by
  have hat : ∀ k i,¬ At (start : Board κ).seat k i := fun _ _ => not_at rfl
  constructor
  · constructor <;> simp [start,jobs] at * <;> grind
  · constructor <;> simp [start]
  · constructor <;> simp [start]

variable [DecidableEq κ]

inductive Move : Board κ → Board κ → Prop
  | refuse (b : Board κ) (requeue : Bool) :
    Move b { b with
      requests := b.requests + 1
      reports := b.reports ++ [⟨b.requests, requeue, none⟩] }
  | lease (b : Board κ) (k : κ) (hk : b.seat k = none) :
    Move b { b with
      requests := b.requests + 1
      seat := Function.update b.seat k (some ⟨b.requests, none⟩)
      leases := Function.update b.leases k (b.leases k + 1) }
  | join (b : Board κ) (k : κ) (h : Nat) (hk : b.seat k = some ⟨h, none⟩) :
    Move b { b with
      requests := b.requests + 1
      seat := Function.update b.seat k (some ⟨h, some b.requests⟩)
      links := b.links ++ [⟨h, b.requests, k⟩] }
  | hear (b : Board κ) (k : κ) (n : Nat) :
    Move b { b with
      heard := Function.update b.heard k (b.heard k + n)
      held := if (b.seat k).isSome then Function.update b.held k (b.heard k + n) else b.held }
  | leave (b : Board κ) (k : κ) (h f : Nat) (hk : b.seat k = some ⟨h, some f⟩) :
    Move b { b with
      seat := Function.update b.seat k (some ⟨h, none⟩)
      reports := b.reports ++ [⟨f, true, none⟩] }
  | advance (b : Board κ) (k : κ) (h f : Nat) (requeue : Bool)
      (hk : b.seat k = some ⟨h, some f⟩) :
    Move b { b with
      seat := Function.update b.seat k (some ⟨f, none⟩)
      reports := b.reports ++ [b.final k h requeue]
      takeovers := b.takeovers ++ [⟨h, f, k⟩]
      charged := Function.update b.charged k (b.heard k) }
  | close (b : Board κ) (k : κ) (h : Nat) (next : Option Nat) (requeue : Bool)
      (hk : b.seat k = some ⟨h, next⟩) :
    Move b { b with
      seat := Function.update b.seat k none
      reports := b.reports ++ (next.toList.map fun f => ⟨f, true, none⟩) ++ [b.final k h requeue]
      releases := Function.update b.releases k (b.releases k + 1)
      charged := Function.update b.charged k (b.heard k) }

def Moves : Board κ → Board κ → Prop := Relation.ReflTransGen Move

theorem at_update {o : Option Seat} : At (Function.update seat k o) k' i ↔
    (k'=k ∧ ∃ s, o=some s ∧ (s.holder=i ∨ s.next=some i)) ∨ (k'≠k ∧ At seat k' i) := by
  unfold At
  by_cases hk : k'=k
  · subst hk
    simp
  · simp [hk]

theorem Move.seated (h : Move b b') (hs : Seated b) : Seated b' := by
  obtain ⟨h1,h2,h3,h4,h5,h6,h7,h8⟩ := hs
  cases h with
  | refuse requeue =>
    constructor <;> simp only [jobs,List.map_append,List.map_cons,List.map_nil] at * <;> grind
  | lease k hk =>
    have hno := fun i => not_at (i := i) hk
    constructor <;> simp only [jobs,at_update] at * <;> grind
  | join k h hk =>
    have hat := fun i => at_seat (i := i) hk
    have hlt := h3 k h (at_holder hk)
    constructor <;> simp only [jobs,at_update] at * <;> grind
  | hear k n => exact ⟨h1,h2,h3,h4,h5,h6,h7,h8⟩
  | leave k h f hk =>
    have hat := fun i => at_seat (i := i) hk
    constructor <;>
      simp only [jobs,at_update,List.map_append,List.map_cons,List.map_nil] at * <;> grind
  | advance k h f requeue hk =>
    have hat := fun i => at_seat (i := i) hk
    constructor <;>
      simp only [jobs,at_update,final,List.map_append,List.map_cons,
        List.map_nil] at * <;> grind
  | close k h next requeue hk =>
    have hat := fun i => at_seat (i := i) hk
    have hlt := h3 k h (at_holder hk)
    have hnot := h4 k h (at_holder hk)
    have hone := fun k' => h6 k k' h (at_holder hk)
    cases next <;> constructor <;>
      simp only [jobs,at_update,final,List.map_append,List.map_cons,List.append_nil,
        List.map_nil,Option.toList,reduceCtorEq,or_false] at * <;> grind

theorem Move.charged (h : Move b b') (hs : Charged b) : Charged b' := by
  obtain ⟨h1,h2,h3,h4,h5,h6⟩ := hs
  cases h with
  | refuse requeue =>
    have hno := not_charges (κ := κ) b.requests requeue
    constructor <;> simp only [List.mem_append,List.mem_singleton] at * <;> grind
  | lease k hk => constructor <;> simp only [Function.update_apply] at * <;> grind
  | join k h hk => constructor <;> simp only [Function.update_apply] at * <;> grind
  | hear k n => constructor <;> simp only [Function.update_apply] at * <;> grind
  | leave k h f hk =>
    have hno := not_charges (κ := κ) f true
    constructor <;>
      simp only [Function.update_apply,List.mem_append,List.mem_singleton] at * <;> grind
  | advance k h f requeue hk =>
    have hc := charges_final (b := b) h requeue k
    constructor <;>
      simp only [Function.update_apply,List.mem_append,List.mem_singleton] at * <;> grind
  | close k h next requeue hk =>
    have hc := charges_final (b := b) h requeue k
    have hno := fun j => not_charges (κ := κ) j true
    constructor <;>
      simp only [Function.update_apply,List.mem_append,List.mem_singleton,List.mem_map,
        Option.mem_toList] at * <;> grind

theorem Move.linked (h : Move b b') (hb : Seated b) (hs : Linked b) : Linked b' := by
  obtain ⟨h1,h2,h3,h4,h5⟩ := hs
  have hkeep : ∀ reports more l,GivenBack reports l → GivenBack (reports++more) l :=
    fun (_ more : List (Report κ)) l hl => GivenBack.append hl
  cases h with
  | refuse requeue =>
    constructor <;>
      simp only [jobs,List.map_append,List.map_cons,List.mem_append,List.mem_singleton] at * <;>
      grind
  | lease k hk =>
    have hno := fun i => not_at (i := i) hk
    constructor <;> simp only [jobs,at_update,Function.update_apply] at * <;> grind
  | join k h hk =>
    have hat := fun i => at_seat (i := i) hk
    constructor <;>
      simp only [jobs,at_update,Function.update_apply,List.mem_append,List.mem_singleton] at *
      <;> grind
  | hear k n => exact ⟨h1,h2,h3,h4,h5⟩
  | leave k h f hk =>
    have hlast := givenBack_last (k := k) (f := f) (hb.not_both k h (at_holder hk))
    have hl := link_at hk
    have hat := fun i => at_seat (i := i) hk
    constructor <;>
      simp only [jobs,at_update,Function.update_apply,List.map_append,List.map_cons,
        List.mem_append,List.mem_singleton] at * <;> grind
  | advance k h f requeue hk =>
    have hf : (b.final k h requeue).job=h ∧
        (b.final k h requeue).charge=some (k, b.charged k, b.heard k) := ⟨rfl,rfl⟩
    have hl := link_at hk
    have hat := fun i => at_seat (i := i) hk
    constructor <;>
      simp only [jobs,at_update,Function.update_apply,List.map_append,List.map_cons,
        List.mem_append,List.mem_singleton] at * <;> grind
  | close k h next requeue hk =>
    have hf : (b.final k h requeue).job=h := rfl
    have hlast := fun f => givenBack_last (k := k) (f := f) (hb.not_both k h (at_holder hk))
    have hl := fun f (hn : next=some f) => link_at (hk.trans (by rw [hn]))
    have hat := fun i => at_seat (i := i) hk
    cases next <;> constructor <;>
      simp only [jobs,at_update,Function.update_apply,List.mem_append,List.mem_singleton,
        Option.toList,List.map_append,List.map_cons,List.map_nil,List.append_nil,
        Option.some.injEq,forall_eq',reduceCtorEq,or_false] at * <;>
      grind

theorem Moves.sound (h : Moves b b') (hs : Sound b) : Sound b' := by
  induction h with
  | refl => exact hs
  | tail _ hm ih => exact ⟨hm.seated ih.seated,hm.charged ih.charged,hm.linked ih.seated ih.linked⟩

end Board

end EmuleQt.Framework
