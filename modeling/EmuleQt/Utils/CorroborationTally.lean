import Std.Data.ExtTreeMap
import Mathlib.Data.Set.Card

set_option linter.unusedSectionVars false

namespace EmuleQt.Utils

open Std

inductive CorroborationMode
  | Reelect | Sticky
  deriving DecidableEq

structure CorroborationOutcome where
  adoptedChanged : Bool
  bestCount : Nat

/-- The voters behind a candidate with the ticks they were last seen at. -/
structure TallyEntry (Voter : Type) [Ord Voter] where
  voters : ExtTreeMap Voter Int
  warned : Bool

namespace TallyEntry

variable {Voter : Type} [Ord Voter] [TransOrd Voter]

/-- Entries left without a voter go, with their flag. -/
def keep (e : TallyEntry Voter) : Option (TallyEntry Voter) :=
  if e.voters.isEmpty then none else some e

theorem keep_voters (e : TallyEntry Voter) (v : Voter) :
    (e.keep.bind fun e => e.voters[v]?)=e.voters[v]? := by
  rw [keep]
  split_ifs with hempty
  · rw [ExtTreeMap.isEmpty_iff.mp hempty,ExtTreeMap.getElem?_empty]
    rfl
  · rfl

theorem keep_backed {e e' : TallyEntry Voter} (h : e.keep=some e') : e'.voters ≠ ∅ := by
  rw [keep] at h
  split_ifs at h with hempty
  obtain rfl := Option.some.inj h
  exact fun hnone => hempty (ExtTreeMap.isEmpty_iff.mpr hnone)

end TallyEntry

structure CorroborationTally (Candidate Voter : Type) [Ord Candidate] [Ord Voter] where
  entries : ExtTreeMap Candidate (TallyEntry Voter)
  adopted : Option Candidate
  mode : CorroborationMode

namespace CorroborationTally

variable {Candidate Voter : Type} [Ord Candidate] [TransOrd Candidate] [LawfulEqOrd Candidate]
  [DecidableEq Candidate] [Ord Voter] [TransOrd Voter] [LawfulEqOrd Voter] [DecidableEq Voter]

def new (mode : CorroborationMode) : CorroborationTally Candidate Voter := ⟨∅, none, mode⟩

def record (candidate : Candidate) (voter : Voter) (nowMs : Int)
    (t : CorroborationTally Candidate Voter) : CorroborationTally Candidate Voter :=
  let entries := t.entries.filterMap fun c e =>
    if c = candidate then some e
    else TallyEntry.keep { e with voters := e.voters.erase voter }
  let entry := (entries[candidate]?).getD ⟨∅, false⟩
  let entry := { entry with voters := entry.voters.insert voter nowMs }
  { t with entries := entries.insert candidate entry }

/-- The candidate in the lead and its count; on a tie the first in the order of candidates. -/
def leader (entries : ExtTreeMap Candidate (TallyEntry Voter)) : Option Candidate × Nat :=
  entries.foldl
    (fun best c e => if e.voters.size > best.2 then (some c, e.voters.size) else best) (none, 0)

/-- The votes that are not too old. -/
def expire (nowMs windowMs : Int) (entries : ExtTreeMap Candidate (TallyEntry Voter)) :
    ExtTreeMap Candidate (TallyEntry Voter) :=
  entries.filterMap fun _ e => TallyEntry.keep
    { e with voters := e.voters.filter fun _ seen => !decide (nowMs - seen > windowMs) }

/-- The pass over the entries expires votes and picks the leader; then the election. -/
def recompute (nowMs : Int) (threshold : Nat) (windowMs : Int)
    (t : CorroborationTally Candidate Voter) :
    CorroborationOutcome × CorroborationTally Candidate Voter :=
  let entries := expire nowMs windowMs t.entries
  let best := leader entries
  let next :=
    if best.1.isSome ∧ best.2 ≥ threshold then best.1
    else if t.mode = .Sticky then t.adopted
    else none
  (⟨decide (next ≠ t.adopted), best.2⟩, { t with entries := entries, adopted := next })

def voterCount (candidate : Candidate) (t : CorroborationTally Candidate Voter) : Nat :=
  (t.entries[candidate]?).elim 0 fun e : TallyEntry Voter => e.voters.size

def eraseCandidatesIf (pred : Candidate → Nat → Bool) (t : CorroborationTally Candidate Voter) :
    Nat × CorroborationTally Candidate Voter :=
  let entries := t.entries.filter fun c (e : TallyEntry Voter) => !pred c e.voters.size
  (t.entries.size - entries.size, { t with entries := entries })

/-- When the voter was last seen voting for the candidate, if it is on record for it. -/
def voteOf (t : CorroborationTally Candidate Voter) (c : Candidate) (v : Voter) : Option Int :=
  (t.entries[c]?).bind fun e => e.voters[v]?

/-- No candidate is kept without a voter. -/
def Backed (t : CorroborationTally Candidate Voter) : Prop :=
  ∀ (c : Candidate) (e : TallyEntry Voter), t.entries[c]? = some e → e.voters ≠ ∅

section Steps

variable {t : CorroborationTally Candidate Voter} {c c' : Candidate} {v v' : Voter}

theorem voteOf_record (nowMs : Int) : (t.record c v nowMs).voteOf c' v' =
    if v'=v then (if c'=c then some nowMs else none) else t.voteOf c' v' := by
  have hkeep : ∀ e : TallyEntry Voter,
      (TallyEntry.keep { e with voters := e.voters.erase v }).bind (fun e => e.voters[v']?) =
        if v'=v then none else e.voters[v']? := by
    intro e
    rw [TallyEntry.keep_voters,ExtTreeMap.getElem?_erase]
    by_cases hv : v=v'
    · simp [hv]
    · simp [hv,Ne.symm hv]
  simp only [voteOf,record,ExtTreeMap.getElem?_insert,LawfulEqOrd.compare_eq_iff_eq]
  by_cases hc : c=c'
  · subst hc
    simp only [ExtTreeMap.getElem?_filterMap',if_true,Option.bind_some,
      ExtTreeMap.getElem?_insert,LawfulEqOrd.compare_eq_iff_eq]
    by_cases hv : v=v'
    · simp [hv]
    · rw [if_neg hv,if_neg (Ne.symm hv)]
      cases t.entries[c]? with
      | none => simp
      | some e => simp
  · rw [if_neg hc,ExtTreeMap.getElem?_filterMap']
    cases t.entries[c']? with
    | none => simp [Ne.symm hc]
    | some e =>
      simp only [Option.bind_some,if_neg (Ne.symm hc)]
      rw [hkeep]

theorem voteOf_recompute (nowMs windowMs : Int) (threshold : Nat) :
    (t.recompute nowMs threshold windowMs).2.voteOf c v =
      (t.voteOf c v).filter fun seen => decide (nowMs-seen≤windowMs) := by
  simp only [voteOf,recompute,expire,ExtTreeMap.getElem?_filterMap']
  cases t.entries[c]? with
  | none => rfl
  | some e =>
    simp only [Option.bind_some]
    rw [TallyEntry.keep_voters,ExtTreeMap.getElem?_filter']
    simp only [gt_iff_lt,← Int.not_le,decide_not,Bool.not_not]

theorem voteOf_eraseCandidatesIf (pred : Candidate → Nat → Bool) :
    (t.eraseCandidatesIf pred).2.voteOf c v =
      if pred c (t.voterCount c) then none else t.voteOf c v := by
  simp only [voteOf,eraseCandidatesIf,voterCount,ExtTreeMap.getElem?_filter']
  rcases Option.eq_none_or_eq_some (t.entries[c]?) with hnone | ⟨e,he⟩
  · simp [hnone]
  · cases hpred : pred c e.voters.size with
    | true => simp [he,Option.filter,hpred]
    | false => simp [he,Option.filter,hpred]

theorem record_backed (nowMs : Int) : (t.record c v nowMs).Backed := by
  intro c' e he
  simp only [record,ExtTreeMap.getElem?_insert,LawfulEqOrd.compare_eq_iff_eq] at he
  by_cases hc : c=c'
  · rw [if_pos hc] at he
    obtain rfl := Option.some.inj he
    exact ExtTreeMap.insert_ne_empty
  · rw [if_neg hc,ExtTreeMap.getElem?_filterMap'] at he
    obtain ⟨e',he',hkeep⟩ := Option.bind_eq_some_iff.mp he
    rw [if_neg (Ne.symm hc)] at hkeep
    exact TallyEntry.keep_backed hkeep

theorem recompute_backed (nowMs windowMs : Int) (threshold : Nat) :
    (t.recompute nowMs threshold windowMs).2.Backed := by
  intro c e he
  simp only [recompute,expire,ExtTreeMap.getElem?_filterMap'] at he
  obtain ⟨e',he',hkeep⟩ := Option.bind_eq_some_iff.mp he
  exact TallyEntry.keep_backed hkeep

theorem eraseCandidatesIf_backed (h : t.Backed) (pred : Candidate → Nat → Bool) :
    (t.eraseCandidatesIf pred).2.Backed := by
  intro c e he
  simp only [eraseCandidatesIf,ExtTreeMap.getElem?_filter'] at he
  exact h c e (Option.filter_eq_some_iff.mp he).1

/-- The voters on record for a candidate. -/
def backers (t : CorroborationTally Candidate Voter) (c : Candidate) : Set Voter :=
  {v | (t.voteOf c v).isSome}

theorem ncard_keys (m : ExtTreeMap Voter Int) : {v : Voter | (m[v]?).isSome}.ncard=m.size := by
  have hkeys : {v : Voter | (m[v]?).isSome} = (m.keys.toFinset : Set Voter) := by
    simp
  have hnodup : m.keys.Nodup := ExtTreeMap.nodup_keys
  rw [hkeys,Set.ncard_coe_finset,List.toFinset_card_of_nodup hnodup,ExtTreeMap.length_keys]

theorem voterCount_eq : t.voterCount c=(t.backers c).ncard := by
  rw [voterCount,backers]
  simp only [voteOf]
  rcases Option.eq_none_or_eq_some (t.entries[c]?) with hnone | ⟨e,he⟩
  · simp [hnone]
  · simp only [he,Option.elim_some,Option.bind_some]
    exact (ncard_keys e.voters).symm

end Steps

section Leader

variable {t t' : CorroborationTally Candidate Voter}

/-- One step of the election. -/
def lead (best : Option Candidate × Nat) (p : Candidate × TallyEntry Voter) :
    Option Candidate × Nat :=
  if p.2.voters.size > best.2 then (some p.1, p.2.voters.size) else best

theorem foldl_lead (l : List (Candidate × TallyEntry Voter)) (best : Option Candidate × Nat) :
    (l.foldl lead best=best ∨ ∃ p∈l, l.foldl lead best=(some p.1, p.2.voters.size) ∧
        best.2<p.2.voters.size) ∧
      best.2≤(l.foldl lead best).2 ∧ ∀ p∈l,p.2.voters.size≤(l.foldl lead best).2 := by
  induction l generalizing best with
  | nil => exact ⟨Or.inl rfl,Nat.le_refl _,fun p hp => absurd hp List.not_mem_nil⟩
  | cons p l ih =>
    obtain ⟨hfrom,hbest,hall⟩ := ih (lead best p)
    rw [List.foldl_cons]
    by_cases hmore : p.2.voters.size>best.2
    · have hlead : lead best p=(some p.1, p.2.voters.size) := if_pos hmore
      rw [hlead] at hfrom hbest hall ⊢
      refine ⟨Or.inr ?_,Nat.le_trans (Nat.le_of_lt hmore) hbest,fun q hq => ?_⟩
      · rcases hfrom with hsame | ⟨q,hq,heq,hlt⟩
        · exact ⟨p,List.mem_cons_self,hsame,hmore⟩
        · exact ⟨q,List.mem_cons_of_mem p hq,heq,Nat.lt_trans hmore hlt⟩
      · rcases List.mem_cons.mp hq with rfl | hq
        · exact hbest
        · exact hall q hq
    · have hlead : lead best p=best := if_neg hmore
      rw [hlead] at hfrom hbest hall ⊢
      refine ⟨?_,hbest,fun q hq => ?_⟩
      · rcases hfrom with hsame | ⟨q,hq,heq,hlt⟩
        · exact Or.inl hsame
        · exact Or.inr ⟨q,List.mem_cons_of_mem p hq,heq,hlt⟩
      · rcases List.mem_cons.mp hq with rfl | hq
        · exact Nat.le_trans (Nat.le_of_not_lt hmore) hbest
        · exact hall q hq

theorem leader_eq_foldl (entries : ExtTreeMap Candidate (TallyEntry Voter)) :
    leader entries=entries.toList.foldl lead (none, 0) := ExtTreeMap.foldl_eq_foldl_toList

theorem leader_spec (t : CorroborationTally Candidate Voter) :
    (∀ c,t.voterCount c≤(leader t.entries).2) ∧
      ((leader t.entries).1=none → (leader t.entries).2=0) ∧
      ∀ c,(leader t.entries).1=some c → t.voterCount c=(leader t.entries).2 := by
  obtain ⟨hfrom,-,hall⟩ := foldl_lead t.entries.toList (none, 0)
  rw [← leader_eq_foldl] at hfrom hall
  refine ⟨fun c => ?_,fun hnone => ?_,fun c hc => ?_⟩
  · rw [voterCount]
    rcases Option.eq_none_or_eq_some (t.entries[c]?) with hnone | ⟨e,he⟩
    · rw [hnone]
      exact Nat.zero_le _
    · rw [he]
      exact hall (c, e) (ExtTreeMap.mem_toList_iff_getElem?_eq_some.mpr he)
  · rcases hfrom with hsame | ⟨p,-,heq,-⟩
    · rw [hsame]
    · rw [heq] at hnone
      exact nomatch hnone
  · rcases hfrom with hsame | ⟨p,hp,heq,-⟩
    · rw [hsame] at hc
      exact nomatch hc
    · rw [heq] at hc ⊢
      obtain rfl := Option.some.inj hc
      have he : t.entries[p.1]? = some p.2 := ExtTreeMap.mem_toList_iff_getElem?_eq_some.mp hp
      rw [voterCount,he,Option.elim_some]

theorem entry_voters_eq (ht : t.Backed) (ht' : t'.Backed)
    (hvotes : ∀ c v,t.voteOf c v=t'.voteOf c v) (c : Candidate) :
    (t.entries[c]?).map (fun e => e.voters)=(t'.entries[c]?).map fun e => e.voters := by
  have hvoter : ∀ {m : ExtTreeMap Voter Int}, m ≠ ∅ →
      ∃ (v : Voter) (seen : Int), m[v]? = some seen := by
    intro m hne
    by_contra hnone
    refine hne (ExtTreeMap.eq_empty_iff_forall_not_mem.mpr fun v hv => hnone ?_)
    obtain ⟨seen,hseen⟩ := Option.isSome_iff_exists.mp (ExtTreeMap.mem_iff_isSome_getElem?.mp hv)
    exact ⟨v,seen,hseen⟩
  have hc := hvotes c
  simp only [voteOf] at hc
  rcases Option.eq_none_or_eq_some (t.entries[c]?) with he | ⟨e,he⟩ <;>
    rcases Option.eq_none_or_eq_some (t'.entries[c]?) with he' | ⟨e',he'⟩
  · rw [he,he']
  · obtain ⟨v,seen,hseen⟩ := hvoter (ht' c e' he')
    have hv := hc v
    simp [he,he',hseen] at hv
  · obtain ⟨v,seen,hseen⟩ := hvoter (ht c e he)
    have hv := hc v
    simp [he,he',hseen] at hv
  · have hsame : e.voters=e'.voters := by
      ext1 v
      simpa [he,he'] using hc v
    simp [he,he',hsame]

theorem leader_congr (ht : t.Backed) (ht' : t'.Backed)
    (hvotes : ∀ c v,t.voteOf c v=t'.voteOf c v) : leader t.entries=leader t'.entries := by
  have hmap : t.entries.map (fun _ e => e.voters)=t'.entries.map (fun _ e => e.voters) := by
    ext1 c
    simpa using entry_voters_eq ht ht' hvotes c
  have hlead : ∀ entries : ExtTreeMap Candidate (TallyEntry Voter), leader entries =
      (entries.map fun _ e => e.voters).toList.foldl
        (fun best p => if p.2.size>best.2 then (some p.1, p.2.size) else best) (none, 0) := by
    intro entries
    rw [leader_eq_foldl,ExtTreeMap.toList_map,List.foldl_map]
    rfl
  rw [hlead,hlead,hmap]

end Leader

end CorroborationTally

end EmuleQt.Utils

set_option linter.unusedSectionVars false

namespace EmuleQt.Utils

open Std

/-- What each voter last said, and when, as far as it still counts. -/
abbrev Votes (Candidate Voter : Type) := Voter → Option (Candidate × Int)

inductive TallyOp (Candidate Voter : Type) where
  | record (candidate : Candidate) (voter : Voter) (nowMs : Int)
  | recompute (nowMs : Int) (threshold : Nat) (windowMs : Int)
  | eraseCandidatesIf (pred : Candidate → Nat → Bool)

/-- The operation drops no vote that is still inside the window. -/
def TallyOp.Spares {Candidate Voter : Type} (nowMs windowMs : Int) :
    TallyOp Candidate Voter → Prop
  | .record .. => True
  | .recompute now _ window => now ≤ nowMs ∧ windowMs ≤ window
  | .eraseCandidatesIf _ => False

namespace Votes

variable {Candidate Voter : Type} [DecidableEq Voter]

def backers (votes : Votes Candidate Voter) (c : Candidate) : Set Voter :=
  {v | ∃ seen, votes v=some (c, seen)}

/-- What an operation does to the votes: the last one of a voter stands, until it is too old when
looked at or its candidate is dropped. -/
noncomputable def apply (votes : Votes Candidate Voter) :
    TallyOp Candidate Voter → Votes Candidate Voter
  | .record candidate voter nowMs => fun v => if v = voter then some (candidate, nowMs) else votes v
  | .recompute nowMs _ windowMs =>
    fun v => (votes v).filter fun vote => decide (nowMs - vote.2 ≤ windowMs)
  | .eraseCandidatesIf pred =>
    fun v => (votes v).filter fun vote => !pred vote.1 (votes.backers vote.1).ncard

noncomputable def after (ops : List (TallyOp Candidate Voter)) : Votes Candidate Voter :=
  ops.foldl apply fun _ => none

def say (last : Votes Candidate Voter) : TallyOp Candidate Voter → Votes Candidate Voter
  | .record candidate voter nowMs => fun v => if v = voter then some (candidate, nowMs) else last v
  | _ => last

/-- What a voter said last, whatever came of it. -/
def said (ops : List (TallyOp Candidate Voter)) : Votes Candidate Voter :=
  ops.foldl say fun _ => none

theorem said_append (ops : List (TallyOp Candidate Voter)) (op : TallyOp Candidate Voter) :
    said (ops++[op])=(said ops).say op := by
  rw [said,said,List.foldl_append]
  rfl

theorem after_append (ops : List (TallyOp Candidate Voter)) (op : TallyOp Candidate Voter) :
    after (ops++[op])=(after ops).apply op := by
  rw [after,after,List.foldl_append]
  rfl

theorem said_of_after {ops : List (TallyOp Candidate Voter)} {v : Voter} {vote : Candidate × Int}
    (h : after ops v=some vote) : said ops v=some vote := by
  induction ops using List.reverseRecOn generalizing vote with
  | nil => exact nomatch h
  | append_singleton ops op ih =>
    rw [after_append] at h
    rw [said_append]
    cases op with
    | record candidate voter nowMs =>
      by_cases hv : v=voter
      · simpa [apply,say,hv] using h
      · simp only [apply,if_neg hv] at h
        simpa [say,hv] using ih h
    | recompute nowMs threshold windowMs => exact ih (Option.filter_eq_some_iff.mp h).1
    | eraseCandidatesIf pred => exact ih (Option.filter_eq_some_iff.mp h).1

/-- As long as nothing was erased and no window was smaller, the votes that count are all the last
ones inside the window. -/
theorem after_iff_said {ops : List (TallyOp Candidate Voter)} {nowMs windowMs : Int}
    (hspares : ∀ op∈ops,op.Spares nowMs windowMs) {v : Voter} {vote : Candidate × Int}
    (hfresh : nowMs-vote.2≤windowMs) : after ops v=some vote ↔ said ops v=some vote := by
  refine ⟨said_of_after,fun h => ?_⟩
  induction ops using List.reverseRecOn with
  | nil => exact nomatch h
  | append_singleton ops op ih =>
    have hrest : ∀ op∈ops,op.Spares nowMs windowMs :=
      fun op hop => hspares op (List.mem_append_left _ hop)
    have hop := hspares op (List.mem_append_right _ (List.mem_singleton.mpr rfl))
    rw [said_append] at h
    rw [after_append]
    cases op with
    | record candidate voter nowMs' =>
      by_cases hv : v=voter
      · simpa [apply,say,hv] using h
      · simp only [say,if_neg hv] at h
        simpa [apply,hv] using ih hrest h
    | recompute now threshold window =>
      obtain ⟨hnow,hwindow⟩ := hop
      refine Option.filter_eq_some_iff.mpr ⟨ih hrest h,decide_eq_true ?_⟩
      omega
    | eraseCandidatesIf pred => exact absurd hop id

end Votes

namespace CorroborationTally

variable {Candidate Voter : Type} [Ord Candidate] [TransOrd Candidate] [LawfulEqOrd Candidate]
  [DecidableEq Candidate] [Ord Voter] [TransOrd Voter] [LawfulEqOrd Voter] [DecidableEq Voter]

def apply (t : CorroborationTally Candidate Voter) :
    TallyOp Candidate Voter → CorroborationTally Candidate Voter
  | .record candidate voter nowMs => t.record candidate voter nowMs
  | .recompute nowMs threshold windowMs => (t.recompute nowMs threshold windowMs).2
  | .eraseCandidatesIf pred => (t.eraseCandidatesIf pred).2

def run (mode : CorroborationMode) (ops : List (TallyOp Candidate Voter)) :
    CorroborationTally Candidate Voter :=
  ops.foldl apply (new mode)

/-- The maps of the tally hold exactly the votes that count. -/
structure Represents (t : CorroborationTally Candidate Voter) (votes : Votes Candidate Voter) :
    Prop where
  vote : ∀ c v seen, t.voteOf c v = some seen ↔ votes v = some (c, seen)
  backed : t.Backed

section Runs

variable {t t' : CorroborationTally Candidate Voter} {votes : Votes Candidate Voter}
  {mode : CorroborationMode} {ops : List (TallyOp Candidate Voter)}

theorem Represents.backers (h : t.Represents votes) (c : Candidate) :
    t.backers c=votes.backers c := by
  rw [CorroborationTally.backers,Votes.backers]
  simp only [Set.mem_ofPred_eq,Option.isSome_iff_exists,h.vote]

theorem Represents.apply (h : t.Represents votes) (op : TallyOp Candidate Voter) :
    (t.apply op).Represents (votes.apply op) := by
  cases op with
  | record candidate voter nowMs =>
    refine ⟨fun c v seen => ?_,record_backed nowMs⟩
    rw [CorroborationTally.apply,voteOf_record,Votes.apply]
    by_cases hv : v=voter
    · by_cases hc : c=candidate
      · simp [hv,hc]
      · simp [hv,hc,Ne.symm hc]
    · simp only [if_neg hv]
      exact h.vote c v seen
  | recompute nowMs threshold windowMs =>
    refine ⟨fun c v seen => ?_,recompute_backed nowMs windowMs threshold⟩
    rw [CorroborationTally.apply,voteOf_recompute,Votes.apply,Option.filter_eq_some_iff,
      Option.filter_eq_some_iff,h.vote]
  | eraseCandidatesIf pred =>
    refine ⟨fun c v seen => ?_,eraseCandidatesIf_backed h.backed pred⟩
    rw [CorroborationTally.apply,voteOf_eraseCandidatesIf,Votes.apply,
      Option.filter_eq_some_iff,voterCount_eq,h.backers]
    split_ifs with hpred
    · simp [hpred]
    · simp [hpred,h.vote]

theorem run_append (op : TallyOp Candidate Voter) :
    run mode (ops++[op])=(run mode ops).apply op := by
  rw [run,run,List.foldl_append]
  rfl

theorem run_represents (mode : CorroborationMode) (ops : List (TallyOp Candidate Voter)) :
    (run mode ops).Represents (Votes.after ops) := by
  induction ops using List.reverseRecOn with
  | nil =>
    refine ⟨fun c v seen => ?_,fun c e he => ?_⟩
    · simp [run,new,voteOf,Votes.after]
    · simp [run,new] at he
  | append_singleton ops op ih =>
    rw [run_append,Votes.after_append]
    exact ih.apply op

theorem run_mode : (run mode ops).mode=mode := by
  induction ops using List.reverseRecOn with
  | nil => rfl
  | append_singleton ops op ih =>
    rw [run_append]
    cases op with
    | record => exact ih
    | recompute => exact ih
    | eraseCandidatesIf => exact ih

/-- The voters whose vote for a candidate is on record and not older than the window. -/
def freshBackers (t : CorroborationTally Candidate Voter) (nowMs windowMs : Int) (c : Candidate) :
    Set Voter :=
  {v | ∃ seen, t.voteOf c v=some seen ∧ nowMs-seen≤windowMs}

/-- Enough fresh votes, and nobody has more. -/
structure Wins (t : CorroborationTally Candidate Voter) (nowMs : Int) (threshold : Nat)
    (windowMs : Int) (c : Candidate) : Prop where
  enough : threshold ≤ (t.freshBackers nowMs windowMs c).ncard
  most : ∀ c', (t.freshBackers nowMs windowMs c').ncard ≤ (t.freshBackers nowMs windowMs c).ncard

theorem voterCount_recompute (nowMs windowMs : Int) (threshold : Nat) (c : Candidate) :
    (t.recompute nowMs threshold windowMs).2.voterCount c =
      (t.freshBackers nowMs windowMs c).ncard := by
  rw [voterCount_eq,backers,freshBackers]
  congr 1
  ext v
  rw [Set.mem_ofPred_eq,voteOf_recompute,Option.isSome_iff_exists]
  simp only [Option.filter_eq_some_iff,decide_eq_true_eq,Set.mem_ofPred_eq]

theorem recompute_adopted (nowMs windowMs : Int) (threshold : Nat) :
    let t' := (t.recompute nowMs threshold windowMs).2
    (∃ c, t'.adopted=some c ∧ t.Wins nowMs threshold windowMs c) ∨
      (((∀ c,(t.freshBackers nowMs windowMs c).ncard<threshold) ∨
          ∀ c,(t.freshBackers nowMs windowMs c).ncard=0) ∧
        t'.adopted=if t.mode = .Sticky then t.adopted else none) := by
  intro t'
  obtain ⟨hmost,hnobody,hleader⟩ := leader_spec t'
  have hcount : ∀ c,t'.voterCount c=(t.freshBackers nowMs windowMs c).ncard :=
    voterCount_recompute nowMs windowMs threshold
  have hadopted : t'.adopted =
      if (leader t'.entries).1.isSome ∧ (leader t'.entries).2≥threshold then
        (leader t'.entries).1
      else if t.mode = .Sticky then t.adopted else none := rfl
  simp only [hcount] at hmost hleader
  by_cases helect : (leader t'.entries).1.isSome ∧ (leader t'.entries).2≥threshold
  · obtain ⟨c,hc⟩ := Option.isSome_iff_exists.mp helect.1
    refine Or.inl ⟨c,by rw [hadopted,if_pos helect,hc],?_,fun c' => ?_⟩
    · rw [hleader c hc]
      exact helect.2
    · rw [hleader c hc]
      exact hmost c'
  · refine Or.inr ⟨?_,by rw [hadopted,if_neg helect]⟩
    rcases Option.eq_none_or_eq_some (leader t'.entries).1 with hnone | ⟨c,hc⟩
    · refine Or.inr fun c => ?_
      have hzero := hmost c
      rw [hnobody hnone] at hzero
      omega
    · refine Or.inl fun c' => ?_
      have hle := hmost c'
      have hlt : ¬(leader t'.entries).2≥threshold := fun hge => helect ⟨by rw [hc]; rfl,hge⟩
      omega

theorem recompute_congr {nowMs windowMs : Int} (hmode : t.mode=t'.mode)
    (hadopted : t.mode = .Sticky → t.adopted=t'.adopted)
    (hfresh : ∀ c v seen,nowMs-seen≤windowMs →
      (t.voteOf c v=some seen ↔ t'.voteOf c v=some seen)) (threshold : Nat) :
    (t.recompute nowMs threshold windowMs).2.adopted =
        (t'.recompute nowMs threshold windowMs).2.adopted ∧
      (t.recompute nowMs threshold windowMs).1.bestCount =
        (t'.recompute nowMs threshold windowMs).1.bestCount := by
  have hvotes : ∀ c v,(t.recompute nowMs threshold windowMs).2.voteOf c v =
      (t'.recompute nowMs threshold windowMs).2.voteOf c v := by
    intro c v
    rw [voteOf_recompute,voteOf_recompute]
    refine Option.ext fun seen => ?_
    simp only [Option.filter_eq_some_iff,decide_eq_true_eq]
    exact and_congr_left fun hin => hfresh c v seen hin
  have hleader := leader_congr (recompute_backed nowMs windowMs threshold)
    (recompute_backed nowMs windowMs threshold) hvotes
  simp only [recompute] at hleader ⊢
  rw [hleader,← hmode]
  refine ⟨?_,rfl⟩
  split_ifs with helect hsticky
  · rfl
  · exact hadopted hsticky
  · rfl

theorem after_records {records : List (TallyOp Candidate Voter)}
    (hrecords : ∀ op∈records,∃ c v seen, op = .record c v seen) (v : Voter) :
    Votes.after (ops++records) v=(Votes.said records v).or (Votes.after ops v) := by
  induction records using List.reverseRecOn with
  | nil =>
    rw [List.append_nil]
    rfl
  | append_singleton records op ih =>
    have hrest := ih fun op hop => hrecords op (List.mem_append_left _ hop)
    obtain ⟨c,voter,seen,rfl⟩ :=
      hrecords op (List.mem_append_right _ (List.mem_singleton.mpr rfl))
    rw [← List.append_assoc,Votes.after_append,Votes.said_append,Votes.apply,Votes.say]
    by_cases hv : v=voter
    · simp [hv]
    · simpa [hv] using hrest

theorem adopted_records {records : List (TallyOp Candidate Voter)}
    (hrecords : ∀ op∈records,∃ c v seen, op = .record c v seen) :
    (run mode (ops++records)).adopted=(run mode ops).adopted := by
  induction records using List.reverseRecOn with
  | nil => rw [List.append_nil]
  | append_singleton records op ih =>
    have hrest := ih fun op hop => hrecords op (List.mem_append_left _ hop)
    obtain ⟨c,voter,seen,rfl⟩ :=
      hrecords op (List.mem_append_right _ (List.mem_singleton.mpr rfl))
    rw [← List.append_assoc,run_append]
    exact hrest

end Runs

/-- What a history of calls on a tally guarantees. -/
structure ElectsFairly (mode : CorroborationMode) (ops : List (TallyOp Candidate Voter)) : Prop where
  oneCandidate : ∀ v c c' seen seen', (run mode ops).voteOf c v=some seen →
    (run mode ops).voteOf c' v=some seen' → c=c'
  lastNamed : ∀ v c seen, (run mode ops).voteOf c v=some seen →
    Votes.said ops v=some (c, seen)
  reelect : mode = .Reelect → ∀ nowMs threshold windowMs, 1≤threshold →
    (((run mode ops).recompute nowMs threshold windowMs).2.adopted.isSome ↔
        ∃ c, threshold≤((run mode ops).freshBackers nowMs windowMs c).ncard) ∧
      ∀ c, ((run mode ops).recompute nowMs threshold windowMs).2.adopted=some c →
        (run mode ops).Wins nowMs threshold windowMs c
  sticky : mode = .Sticky → ∀ op, ((run mode ops).apply op).adopted ≠ (run mode ops).adopted →
    ∃ nowMs threshold windowMs c, op = .recompute nowMs threshold windowMs ∧
      ((run mode ops).apply op).adopted=some c ∧ (run mode ops).Wins nowMs threshold windowMs c
  /-- The votes of the records count by the last one of each voter. -/
  anyOrder : ∀ records records' : List (TallyOp Candidate Voter),
    (∀ op ∈ records, ∃ c v seen, op = .record c v seen) →
    (∀ op ∈ records', ∃ c v seen, op = .record c v seen) →
    Votes.said records=Votes.said records' → ∀ nowMs threshold windowMs,
      ((run mode (ops++records)).recompute nowMs threshold windowMs).2.adopted =
          ((run mode (ops++records')).recompute nowMs threshold windowMs).2.adopted ∧
        ((run mode (ops++records)).recompute nowMs threshold windowMs).1.bestCount =
          ((run mode (ops++records')).recompute nowMs threshold windowMs).1.bestCount
  /-- Where no earlier call dropped a vote that is still fresh, whole histories do. -/
  latest : ∀ nowMs windowMs, (∀ op ∈ ops, op.Spares nowMs windowMs) →
    (∀ c, (run mode ops).freshBackers nowMs windowMs c =
      {v | ∃ seen, Votes.said ops v=some (c, seen) ∧ nowMs-seen≤windowMs}) ∧
    ∀ ops', (∀ op ∈ ops', op.Spares nowMs windowMs) → Votes.said ops=Votes.said ops' →
      (mode = .Sticky → (run mode ops).adopted=(run mode ops').adopted) → ∀ threshold,
      ((run mode ops).recompute nowMs threshold windowMs).2.adopted =
          ((run mode ops').recompute nowMs threshold windowMs).2.adopted ∧
        ((run mode ops).recompute nowMs threshold windowMs).1.bestCount =
          ((run mode ops').recompute nowMs threshold windowMs).1.bestCount

section Fair

variable {mode : CorroborationMode} {ops : List (TallyOp Candidate Voter)}

theorem reelect_adopted (hmode : mode = .Reelect) (nowMs windowMs : Int) (threshold : Nat)
    (hthreshold : 1≤threshold) :
    (((run mode ops).recompute nowMs threshold windowMs).2.adopted.isSome ↔
        ∃ c, threshold≤((run mode ops).freshBackers nowMs windowMs c).ncard) ∧
      ∀ c,((run mode ops).recompute nowMs threshold windowMs).2.adopted=some c →
        (run mode ops).Wins nowMs threshold windowMs c := by
  rcases (run mode ops).recompute_adopted nowMs windowMs threshold with
    ⟨c,hc,hwins⟩ | ⟨hnobody,hnone⟩
  · rw [hc]
    refine ⟨iff_of_true rfl ⟨c,hwins.enough⟩,fun c' hc' => ?_⟩
    obtain rfl := Option.some.inj hc'
    exact hwins
  · rw [run_mode,hmode,if_neg (by simp)] at hnone
    rw [hmode,hnone]
    refine ⟨iff_of_false (by simp) fun ⟨c,hc⟩ => ?_,fun c hc => nomatch hc⟩
    rw [← hmode] at hc
    rcases hnobody with hless | hzero
    · have hlt := hless c
      omega
    · have heq := hzero c
      omega

theorem sticky_adopted (hmode : mode = .Sticky) (op : TallyOp Candidate Voter)
    (hchanged : ((run mode ops).apply op).adopted≠(run mode ops).adopted) :
    ∃ nowMs threshold windowMs c, op = .recompute nowMs threshold windowMs ∧
      ((run mode ops).apply op).adopted=some c ∧
      (run mode ops).Wins nowMs threshold windowMs c := by
  cases op with
  | record candidate voter nowMs => exact absurd rfl hchanged
  | eraseCandidatesIf pred => exact absurd rfl hchanged
  | recompute nowMs threshold windowMs =>
    rcases (run mode ops).recompute_adopted nowMs windowMs threshold with
      ⟨c,hc,hwins⟩ | ⟨-,hkept⟩
    · exact ⟨nowMs,threshold,windowMs,c,rfl,hc,hwins⟩
    · rw [run_mode,if_pos hmode] at hkept
      exact absurd hkept hchanged

theorem fresh_iff_said {nowMs windowMs : Int} (hspares : ∀ op∈ops,op.Spares nowMs windowMs)
    (c : Candidate) (v : Voter) (seen : Int) (hin : nowMs-seen≤windowMs) :
    (run mode ops).voteOf c v=some seen ↔ Votes.said ops v=some (c, seen) := by
  rw [(run_represents mode ops).vote]
  exact Votes.after_iff_said hspares hin

theorem tally_electsFairly (mode : CorroborationMode) (ops : List (TallyOp Candidate Voter)) :
    ElectsFairly mode ops := by
  have hvotes := run_represents mode ops
  refine ⟨?_,?_,fun hmode nowMs threshold windowMs => reelect_adopted hmode nowMs windowMs threshold,
    fun hmode op => sticky_adopted hmode op,?_,?_⟩
  · intro v c c' seen seen' h h'
    have heq := ((hvotes.vote c v seen).mp h).symm.trans ((hvotes.vote c' v seen').mp h')
    exact congrArg Prod.fst (Option.some.inj heq)
  · intro v c seen h
    exact Votes.said_of_after ((hvotes.vote c v seen).mp h)
  · intro records records' hrecords hrecords' hsaid nowMs threshold windowMs
    refine recompute_congr (by rw [run_mode,run_mode]) (fun _ => ?_) (fun c v seen _ => ?_) threshold
    · rw [adopted_records hrecords,adopted_records hrecords']
    · rw [(run_represents mode _).vote,(run_represents mode _).vote,after_records hrecords,
        after_records hrecords',hsaid]
  · intro nowMs windowMs hspares
    refine ⟨fun c => ?_,fun ops' hspares' hsaid hadopted threshold => ?_⟩
    · ext v
      simp only [freshBackers,Set.mem_ofPred_eq]
      exact exists_congr fun seen => and_congr_left fun hin => fresh_iff_said hspares c v seen hin
    · refine recompute_congr (by rw [run_mode,run_mode]) (fun hmode => ?_)
        (fun c v seen hin => ?_) threshold
      · exact hadopted (run_mode.symm.trans hmode)
      · rw [fresh_iff_said hspares c v seen hin,fresh_iff_said hspares' c v seen hin,hsaid]

end Fair

/-- Two voters name 7, and one of them changes its mind. -/
def changedMind : List (TallyOp Nat Nat) :=
  [.record 7 1 0,.record 7 2 5,.recompute 5 2 300,.record 9 1 10]

theorem tally_electsFairly_changedMind : ElectsFairly .Reelect changedMind :=
  tally_electsFairly .Reelect changedMind

end CorroborationTally

end EmuleQt.Utils
