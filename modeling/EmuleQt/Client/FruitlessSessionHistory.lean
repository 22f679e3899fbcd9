import EmuleQt.Crypto.Digest
import EmuleQt.Framework.Keyed
import EmuleQt.Framework.Run
import Mathlib.Data.Finset.Card

namespace EmuleQt.Client

open Crypto Framework

inductive Verdict
  | Noted
  | Paused
  | Quarantined
  deriving DecidableEq

/-- The record of a peer; zero times are none. -/
structure PeerEntry where
  lastUsed : Nat
  lastFruitless : Nat
  windowStart : Nat
  windowEvents : Nat
  pauses : Nat
  heldUntil : Nat
  quarantined : Bool
  deriving DecidableEq

/-- The calls about one peer. A productive session comes without a time. -/
inductive PeerEvent
  | fruitless (now : Nat)
  | declined (now : Nat)
  | productive
  deriving DecidableEq

def PeerEvent.time : PeerEvent → Option Nat
  | .fruitless now => some now
  | .declined now => some now
  | .productive => none

structure PeerCall where
  peer : Digest 16
  event : PeerEvent

abbrev FruitlessSessionLedger := List (Digest 16 × PeerEntry)

namespace FruitlessSessionLedger

def kWindowMs : Nat := 5 * 60 * 1000
def kPauseMs : Nat := 3 * 60 * 1000
def kPausesToQuarantine : Nat := 2
def kEventsToQuarantine : Nat := 10
def kQuarantineMs : Nat := 4 * 60 * 60 * 1000
def kEntryTtlMs : Nat := 4 * 60 * 60 * 1000
def kMaxEntries : Nat := 4096

def fresh : PeerEntry := ⟨0, 0, 0, 0, 0, 0, false⟩

def openEntry (now : Nat) (o : Option PeerEntry) : PeerEntry :=
  let e := o.getD fresh
  { (if e.quarantined = true ∧ e.heldUntil ≤ now then fresh else e) with lastUsed := now }

def openWindow (now : Nat) (e : PeerEntry) : PeerEntry :=
  if e.windowStart=0 ∨ kWindowMs≤now-e.windowStart then
    { e with windowStart := now, windowEvents := 0 }
  else e

def countEvent (now : Nat) (e : PeerEntry) : PeerEntry × Bool :=
  let e := openWindow now e
  let e := { e with windowEvents := e.windowEvents + 1 }
  (e, decide (kEventsToQuarantine ≤ e.windowEvents ∧ e.quarantined = false))

def quarantine (now : Nat) (e : PeerEntry) : PeerEntry × Verdict :=
  ({ e with quarantined := true, heldUntil := now + kQuarantineMs, lastFruitless := 0 },
    .Quarantined)

def heldVerdict (e : PeerEntry) : Verdict := if e.quarantined then .Quarantined else .Paused

def fruitlessEntry (now : Nat) (e : PeerEntry) : PeerEntry × Verdict :=
  let counted := countEvent now e
  let e := counted.1
  if counted.2 then quarantine now e
  else if now<e.heldUntil then (e, heldVerdict e)
  else if e.lastFruitless≠0 ∧ now-e.lastFruitless≤kWindowMs then
    let e := { e with lastFruitless := 0, pauses := e.pauses+1 }
    if kPausesToQuarantine≤e.pauses then quarantine now e
    else ({ e with heldUntil := now+kPauseMs }, .Paused)
  else ({ e with lastFruitless := now }, .Noted)

def declinedEntry (now : Nat) (e : PeerEntry) : PeerEntry × Verdict :=
  let counted := countEvent now e
  let e := counted.1
  if counted.2 then quarantine now e
  else if now<e.heldUntil then (e, heldVerdict e)
  else (e, .Noted)

def productiveEntry (e : PeerEntry) : PeerEntry :=
  { e with
    lastFruitless := 0
    windowStart := 0
    windowEvents := 0
    pauses := if e.quarantined then e.pauses else 0 }

def find (peer : Digest 16) (m : FruitlessSessionLedger) : Option PeerEntry :=
  (lookupKey Prod.fst peer m).map Prod.snd

/-- The entry that was used the longest time ago. -/
def oldest : FruitlessSessionLedger → Option (Digest 16 × PeerEntry)
  | [] => none
  | x :: xs =>
    some (xs.foldl (fun best y => if y.2.lastUsed < best.2.lastUsed then y else best) x)

def makeRoom (now : Nat) (m : FruitlessSessionLedger) : FruitlessSessionLedger :=
  if m.length < kMaxEntries then m
  else
    let kept := m.filter fun x =>
      !decide (kEntryTtlMs ≤ now - x.2.lastUsed ∧ x.2.heldUntil ≤ now)
    if kept.length < kMaxEntries then kept
    else
      match oldest kept with
      | none => kept
      | some x => kept.eraseP fun y => decide (y.1 = x.1)

/-- An event with a time: the entry is found or made, and changed. -/
def noteTimed (f : Nat → PeerEntry → PeerEntry × Verdict) (m : FruitlessSessionLedger)
    (peer : Digest 16) (now : Nat) : FruitlessSessionLedger × Verdict :=
  let m := if (m.find peer).isNone then m.makeRoom now else m
  let r := f now (openEntry now (m.find peer))
  (upsert Prod.fst peer (fun _ => (peer, r.1)) m, r.2)

def noteFruitlessSession (m : FruitlessSessionLedger) (peer : Digest 16) (now : Nat) :
    FruitlessSessionLedger × Verdict := noteTimed fruitlessEntry m peer now

def noteDeclinedAccept (m : FruitlessSessionLedger) (peer : Digest 16) (now : Nat) :
    FruitlessSessionLedger × Verdict := noteTimed declinedEntry m peer now

def noteProductiveSession (m : FruitlessSessionLedger) (peer : Digest 16) :
    FruitlessSessionLedger :=
  match m.find peer with
  | none => m
  | some e => upsert Prod.fst peer (fun _ => (peer, productiveEntry e)) m

def heldBackFor (m : FruitlessSessionLedger) (peer : Digest 16) (now : Nat) : Nat :=
  match m.find peer with
  | none => 0
  | some e => if now < e.heldUntil then e.heldUntil - now else 0

def isQuarantined (m : FruitlessSessionLedger) (peer : Digest 16) (now : Nat) : Bool :=
  match m.find peer with
  | none => false
  | some e => e.quarantined && decide (now < e.heldUntil)

def note (m : FruitlessSessionLedger) (c : PeerCall) :
    FruitlessSessionLedger × Option Verdict :=
  match c.event with
  | .fruitless now => ((m.noteFruitlessSession c.peer now).1, (m.noteFruitlessSession c.peer now).2)
  | .declined now => ((m.noteDeclinedAccept c.peer now).1, (m.noteDeclinedAccept c.peer now).2)
  | .productive => (m.noteProductiveSession c.peer, none)

/-- The ledger after a call. -/
def after (m : FruitlessSessionLedger) (c : PeerCall) : FruitlessSessionLedger := (m.note c).1

/-! # One peer at a time -/

/-- What an event does to the record of its peer, and the verdict. -/
def answer (o : Option PeerEntry) : PeerEvent → Option PeerEntry × Option Verdict
  | .fruitless now =>
    (some (fruitlessEntry now (openEntry now o)).1, some (fruitlessEntry now (openEntry now o)).2)
  | .declined now =>
    (some (declinedEntry now (openEntry now o)).1, some (declinedEntry now (openEntry now o)).2)
  | .productive => (o.map productiveEntry, none)

/-- Each peer has one entry, and there is room for all the peers. -/
structure Roomy (peers : Finset (Digest 16)) (m : FruitlessSessionLedger) : Prop where
  keys : (m.map Prod.fst).Nodup
  peers : ∀ x∈m, x.1∈peers

variable {m : FruitlessSessionLedger} {peers : Finset (Digest 16)} {p peer : Digest 16} {now : Nat}

theorem Roomy.length_le (h : Roomy peers m) : m.length≤peers.card := by
  have hsub : (m.map Prod.fst).toFinset ⊆ peers := by
    intro k hk
    obtain ⟨x,hx,rfl⟩ := List.mem_map.mp (List.mem_toFinset.mp hk)
    exact h.peers x hx
  have hcard := Finset.card_le_card hsub
  rwa [List.toFinset_card_of_nodup h.keys,List.length_map] at hcard

theorem find_upsert (peer p : Digest 16) (e : PeerEntry) (m : FruitlessSessionLedger) :
    find p (upsert Prod.fst peer (fun _ => (peer, e)) m) =
      if p=peer then some e else m.find p := by
  unfold find
  split_ifs with hp
  · rw [hp,lookupKey_upsert_self rfl]
    rfl
  · rw [lookupKey_upsert_ne rfl hp]

theorem Roomy.upsert (h : Roomy peers m) (hpeer : peer∈peers) (e : PeerEntry) :
    Roomy peers (upsert Prod.fst peer (fun _ => (peer, e)) m) := by
  refine ⟨nodup_map_upsert (fun _ => rfl) h.keys,?_⟩
  intro x hx
  rcases mem_upsert hx with rfl | hold
  · exact hpeer
  · exact h.peers x hold

theorem Roomy.noteTimed (h : Roomy peers m) (hroom : peers.card<kMaxEntries)
    (f : Nat → PeerEntry → PeerEntry × Verdict) (peer : Digest 16) (now : Nat) :
    noteTimed f m peer now =
      (EmuleQt.Framework.upsert Prod.fst peer
        (fun _ => (peer, (f now (openEntry now (m.find peer))).1)) m,
        (f now (openEntry now (m.find peer))).2) := by
  have hkeep : m.makeRoom now=m := if_pos (Nat.lt_of_le_of_lt h.length_le hroom)
  unfold FruitlessSessionLedger.noteTimed
  rw [hkeep,ite_self]

theorem find_noteProductive (peer p : Digest 16) (m : FruitlessSessionLedger) :
    (m.noteProductiveSession peer).find p =
      if p=peer then (m.find p).map productiveEntry else m.find p := by
  unfold noteProductiveSession
  cases hfound : m.find peer with
  | none =>
    split_ifs with hp
    · rw [hp,hfound]
      rfl
    · rfl
  | some e =>
    rw [find_upsert]
    split_ifs with hp
    · rw [hp,hfound]
      rfl
    · rfl

theorem Roomy.note (h : Roomy peers m) (hroom : peers.card<kMaxEntries) (c : PeerCall) :
    (m.note c).2=(answer (m.find c.peer) c.event).2 ∧
      ∀ p,(m.after c).find p =
        if p=c.peer then (answer (m.find p) c.event).1 else m.find p := by
  unfold after FruitlessSessionLedger.note
  cases c.event with
  | fruitless now =>
    dsimp only [noteFruitlessSession,answer]
    rw [h.noteTimed hroom]
    refine ⟨rfl,fun p => ?_⟩
    rw [find_upsert]
    split_ifs with hp
    · rw [hp]
    · rfl
  | declined now =>
    dsimp only [noteDeclinedAccept,answer]
    rw [h.noteTimed hroom]
    refine ⟨rfl,fun p => ?_⟩
    rw [find_upsert]
    split_ifs with hp
    · rw [hp]
    · rfl
  | productive => exact ⟨rfl,fun p => find_noteProductive c.peer p m⟩

theorem Roomy.after (h : Roomy peers m) (hroom : peers.card<kMaxEntries) {c : PeerCall}
    (hc : c.peer∈peers) : Roomy peers (m.after c) := by
  unfold FruitlessSessionLedger.after FruitlessSessionLedger.note
  cases c.event with
  | fruitless now =>
    dsimp only [noteFruitlessSession]
    rw [h.noteTimed hroom]
    exact h.upsert hc _
  | declined now =>
    dsimp only [noteDeclinedAccept]
    rw [h.noteTimed hroom]
    exact h.upsert hc _
  | productive =>
    dsimp only [noteProductiveSession]
    split
    · exact h
    · exact h.upsert hc _

end FruitlessSessionLedger

open Crypto Framework

namespace FruitlessSessionLedger

/-- An event of a peer, whether it was held back then, and the verdict. -/
structure Record where
  event : PeerEvent
  held : Bool
  verdict : Option Verdict

/-! # The history of a peer, the newest record first -/

/-- The fruitless session on record that nothing has followed from yet. -/
def unconsumed : List Record → Option Nat
  | [] => none
  | r::rs =>
    match r.event with
    | .fruitless now => if r.verdict=some .Noted then some now else none
    | .declined _ => unconsumed rs
    | .productive => none

/-- Where the window of an event begins, and which of its events it is. -/
def windowAfter (w : Option (Nat × Nat)) (now : Nat) : Nat × Nat :=
  match w with
  | none => (now, 1)
  | some (start, n) => if now-start<kWindowMs then (start, n+1) else (now, 1)

/-- The window of the last event, and how many events it has. -/
def window : List Record → Option (Nat × Nat)
  | [] => none
  | r :: rs =>
    match r.event with
    | .fruitless now => some (windowAfter (window rs) now)
    | .declined now => some (windowAfter (window rs) now)
    | .productive => none

/-- The pauses that began since the last productive session. -/
def pausesBegun : List Record → Nat
  | [] => 0
  | r::rs =>
    match r.event with
    | .fruitless _ =>
      if r.verdict=some .Paused ∧ r.held=false then pausesBegun rs+1 else pausesBegun rs
    | .declined _ => pausesBegun rs
    | .productive => 0

/-- Which event of its window an event now is. -/
def nthEvent (rs : List Record) (now : Nat) : Nat := (windowAfter (window rs) now).2

/-- A fruitless session now follows another within the window. -/
def Follows (rs : List Record) (now : Nat) : Prop :=
  ∃ s ∈ unconsumed rs, now - s ≤ kWindowMs

/-! # What the record of a peer holds -/

def heldOf (o : Option PeerEntry) (now : Nat) : Nat := (o.getD fresh).heldUntil-now

variable {o : Option PeerEntry} {e : PeerEntry} {rs : List Record} {now T : Nat}
  {m : FruitlessSessionLedger} {p : Digest 16}

theorem heldBackFor_eq (m : FruitlessSessionLedger) (p : Digest 16) (now : Nat) :
    m.heldBackFor p now=heldOf (m.find p) now := by
  unfold heldBackFor heldOf
  cases m.find p with
  | none => exact (Nat.zero_sub now).symm
  | some e =>
    dsimp only [Option.getD_some]
    split_ifs <;> omega

theorem isQuarantined_eq (m : FruitlessSessionLedger) (p : Digest 16) (now : Nat) :
    m.isQuarantined p now=(((m.find p).getD fresh).quarantined && decide (0<heldOf (m.find p) now)) := by
  unfold isQuarantined heldOf
  cases m.find p with
  | none => rfl
  | some e =>
    dsimp only [Option.getD_some]
    congr 1
    rw [decide_eq_decide]
    omega

/-- The record of a peer that was not quarantined says what its history says. -/
structure Matches (rs : List Record) (T : Nat) (e : PeerEntry) : Prop where
  free : e.quarantined = false
  last : e.lastFruitless = (unconsumed rs).getD 0
  window : (e.windowStart, e.windowEvents) = (window rs).getD (0, 0)
  pauses : e.pauses = pausesBegun rs
  few : e.windowEvents < kEventsToQuarantine
  paused : e.pauses < kPausesToQuarantine
  noted : ∀ s ∈ unconsumed rs, 0 < s ∧ s ≤ T ∧ e.heldUntil ≤ s
  started : ∀ w ∈ FruitlessSessionLedger.window rs, 0 < w.1

theorem fresh_matches (T : Nat) : Matches [] T fresh := by
  constructor
  all_goals first | rfl | decide | simp [unconsumed]

theorem openEntry_of_free (h : (o.getD fresh).quarantined=false) :
    openEntry now o = { o.getD fresh with lastUsed := now } := by
  have hfree : ¬ ((o.getD fresh).quarantined=true ∧ (o.getD fresh).heldUntil≤now) := by
    rw [h]
    simp
  unfold openEntry
  dsimp only
  rw [if_neg hfree]

theorem nthEvent_pos (rs : List Record) (now : Nat) : 0<nthEvent rs now := by
  unfold nthEvent windowAfter
  split
  · exact Nat.one_pos
  · split_ifs
    · exact Nat.succ_pos _
    · exact Nat.one_pos

theorem Matches.openWindow (h : Matches rs T e) :
    openWindow now { e with lastUsed := now } =
      { e with
        lastUsed := now
        windowStart := (windowAfter (FruitlessSessionLedger.window rs) now).1
        windowEvents := nthEvent rs now-1 } := by
  have hwindow := h.window
  have hstarted := h.started
  unfold FruitlessSessionLedger.openWindow nthEvent windowAfter
  cases hw : FruitlessSessionLedger.window rs with
  | none =>
    rw [hw] at hwindow
    obtain ⟨hstart,-⟩ := Prod.ext_iff.mp hwindow
    exact if_pos (.inl hstart)
  | some w =>
    rw [hw] at hwindow
    obtain ⟨hstart,hevents⟩ := Prod.ext_iff.mp hwindow
    have hpos := hstarted w hw
    dsimp only [Option.getD_some] at hstart hevents ⊢
    by_cases hin : now-w.1<kWindowMs
    · rw [if_neg (by omega),if_pos hin,← hstart]
      rw [Nat.add_sub_cancel,← hevents]
    · rw [if_pos (by omega),if_neg hin]
      rfl

theorem Matches.countEvent (h : Matches rs T e) :
    countEvent now { e with lastUsed := now } =
      ({ e with
          lastUsed := now
          windowStart := (windowAfter (FruitlessSessionLedger.window rs) now).1
          windowEvents := nthEvent rs now }, decide (kEventsToQuarantine≤nthEvent rs now)) := by
  have hpos := nthEvent_pos rs now
  unfold FruitlessSessionLedger.countEvent
  rw [h.openWindow]
  dsimp only
  rw [Nat.sub_add_cancel hpos]
  simp [h.free]

theorem Matches.window_started (h : Matches rs T e) (hnow : 0<now) :
    0<(windowAfter (FruitlessSessionLedger.window rs) now).1 := by
  have hstarted := h.started
  unfold windowAfter
  split
  · exact hnow
  · rename_i start n hw
    split_ifs
    · exact hstarted (start, n) hw
    · exact hnow

theorem Matches.follows_iff (h : Matches rs T e) (now : Nat) :
    (e.lastFruitless≠0 ∧ now-e.lastFruitless≤kWindowMs) ↔ Follows rs now := by
  rw [h.last]
  unfold Follows
  cases hs : unconsumed rs with
  | none => simp
  | some s =>
    have hpos := (h.noted s hs).1
    simp only [Option.getD_some,Option.mem_some_iff,exists_eq_left']
    exact and_iff_right (Nat.ne_of_gt hpos)

/-- The record with the event counted. -/
def counted (rs : List Record) (now : Nat) (e : PeerEntry) : PeerEntry :=
  { e with
    lastUsed := now
    windowStart := (windowAfter (window rs) now).1
    windowEvents := nthEvent rs now }

/-- A quarantine that begins now. -/
def QuarantinedAt (now : Nat) (r : PeerEntry × Verdict) : Prop :=
  r.2 = .Quarantined ∧ r.1.quarantined=true ∧ r.1.heldUntil=now+kQuarantineMs

theorem quarantine_at (now : Nat) (e : PeerEntry) : QuarantinedAt now (quarantine now e) :=
  ⟨rfl,rfl,rfl⟩

theorem Matches.fruitless_cases (h : Matches rs T e) (now : Nat) :
    let r := fruitlessEntry now { e with lastUsed := now }
    (kEventsToQuarantine≤nthEvent rs now ∧ QuarantinedAt now r) ∨
    (nthEvent rs now<kEventsToQuarantine ∧ now<e.heldUntil ∧ r=(counted rs now e, .Paused)) ∨
    (nthEvent rs now<kEventsToQuarantine ∧ e.heldUntil≤now ∧ Follows rs now ∧
      pausesBegun rs≠0 ∧ QuarantinedAt now r) ∨
    (nthEvent rs now<kEventsToQuarantine ∧ e.heldUntil≤now ∧ Follows rs now ∧
      pausesBegun rs=0 ∧ r=({ counted rs now e with
        lastFruitless := 0, pauses := 1, heldUntil := now+kPauseMs }, .Paused)) ∨
    (nthEvent rs now<kEventsToQuarantine ∧ e.heldUntil≤now ∧ ¬ Follows rs now ∧
      r=({ counted rs now e with lastFruitless := now }, .Noted)) := by
  have hpauses := h.pauses
  have hfollows := h.follows_iff now
  have hfree : heldVerdict (counted rs now e) = .Paused := by
    unfold heldVerdict counted
    rw [h.free]
    rfl
  unfold fruitlessEntry
  rw [h.countEvent]
  by_cases htenth : kEventsToQuarantine≤nthEvent rs now
  · rw [if_pos (decide_eq_true htenth)]
    exact .inl ⟨htenth,quarantine_at now _⟩
  have hfew := Nat.lt_of_not_le htenth
  rw [if_neg (by simpa using hfew)]
  by_cases hheld : now<e.heldUntil
  · rw [if_pos hheld]
    exact .inr (.inl ⟨hfew,hheld,Prod.ext rfl hfree⟩)
  have hover := Nat.le_of_not_lt hheld
  rw [if_neg hheld]
  by_cases hpair : Follows rs now
  · rw [if_pos (hfollows.mpr hpair)]
    by_cases hsecond : kPausesToQuarantine≤e.pauses+1
    · rw [if_pos hsecond]
      refine .inr (.inr (.inl ⟨hfew,hover,hpair,?_,quarantine_at now _⟩))
      unfold kPausesToQuarantine at hsecond
      omega
    · rw [if_neg hsecond]
      have hnone : e.pauses=0 := by
        unfold kPausesToQuarantine at hsecond
        omega
      refine .inr (.inr (.inr (.inl ⟨hfew,hover,hpair,hpauses ▸ hnone,?_⟩)))
      rw [hnone]
      rfl
  · rw [if_neg (mt hfollows.mp hpair)]
    exact .inr (.inr (.inr (.inr ⟨hfew,hover,hpair,rfl⟩)))

theorem Matches.declined_cases (h : Matches rs T e) (now : Nat) :
    let r := declinedEntry now { e with lastUsed := now }
    (kEventsToQuarantine≤nthEvent rs now ∧ QuarantinedAt now r) ∨
    (nthEvent rs now<kEventsToQuarantine ∧
      r=(counted rs now e, if now<e.heldUntil then .Paused else .Noted)) := by
  have hfree : heldVerdict (counted rs now e) = .Paused := by
    unfold heldVerdict counted
    rw [h.free]
    rfl
  unfold declinedEntry
  rw [h.countEvent]
  by_cases htenth : kEventsToQuarantine≤nthEvent rs now
  · rw [if_pos (decide_eq_true htenth)]
    exact .inl ⟨htenth,quarantine_at now _⟩
  have hfew := Nat.lt_of_not_le htenth
  rw [if_neg (by simpa using hfew)]
  refine .inr ⟨hfew,?_⟩
  split_ifs with hheld
  · exact Prod.ext rfl hfree
  · rfl

theorem Matches.fruitless (h : Matches rs T e) (hT : T≤now) (hnow : 0<now)
    (hverdict : (fruitlessEntry now { e with lastUsed := now }).2 ≠ .Quarantined) :
    Matches (⟨.fruitless now,decide (0<e.heldUntil-now),
      some (fruitlessEntry now { e with lastUsed := now }).2⟩::rs) now
        (fruitlessEntry now { e with lastUsed := now }).1 := by
  have hstarted := h.window_started hnow
  have hfree := h.free
  have hpauses := h.pauses
  have hpaused := h.paused
  rcases h.fruitless_cases now with ⟨-,hq,-⟩ | ⟨hfew,hheld,hr⟩ | ⟨-,-,-,-,hq,-⟩ |
    ⟨hfew,hover,-,hnone,hr⟩ | ⟨hfew,hover,-,hr⟩
  · exact absurd hq hverdict
  · -- While the peer is held no session is on record.
    have hclear : unconsumed rs=none := by
      cases hs : unconsumed rs with
      | none => rfl
      | some s =>
        have hs' := h.noted s hs
        omega
    have hlast := h.last
    rw [hclear] at hlast
    rw [hr,decide_eq_true (show 0<e.heldUntil-now by omega)]
    exact {
      free := hfree
      last := hlast
      window := rfl
      pauses := hpauses
      few := hfew
      paused := hpaused
      noted := fun s hs => by cases hs
      started := fun w hw => Option.some.inj hw ▸ hstarted }
  · exact absurd hq hverdict
  · rw [hr,decide_eq_false (show ¬ 0<e.heldUntil-now by omega)]
    have hone : pausesBegun (⟨.fruitless now,false,some .Paused⟩::rs)=pausesBegun rs+1 :=
      rfl
    exact {
      free := hfree
      last := rfl
      window := rfl
      pauses := by rw [hone,hnone]
      few := hfew
      paused := (by decide : 1<kPausesToQuarantine)
      noted := fun s hs => by cases hs
      started := fun w hw => Option.some.inj hw ▸ hstarted }
  · rw [hr,decide_eq_false (show ¬ 0<e.heldUntil-now by omega)]
    exact {
      free := hfree
      last := rfl
      window := rfl
      pauses := hpauses
      few := hfew
      paused := hpaused
      noted := fun s hs => Option.some.inj hs ▸ ⟨hnow,Nat.le_refl now,hover⟩
      started := fun w hw => Option.some.inj hw ▸ hstarted }

theorem Matches.declined (h : Matches rs T e) (hT : T≤now) (hnow : 0<now) (held : Bool)
    (hverdict : (declinedEntry now { e with lastUsed := now }).2 ≠ .Quarantined) :
    Matches (⟨.declined now,held,some (declinedEntry now { e with lastUsed := now }).2⟩::rs) now
      (declinedEntry now { e with lastUsed := now }).1 := by
  have hstarted := h.window_started hnow
  rcases h.declined_cases now with ⟨-,hq,-⟩ | ⟨hfew,hr⟩
  · exact absurd hq hverdict
  · rw [hr]
    exact {
      free := h.free
      last := h.last
      window := rfl
      pauses := h.pauses
      few := hfew
      paused := h.paused
      noted := fun s hs => by
        obtain ⟨hpos,hle,hheld⟩ := h.noted s hs
        exact ⟨hpos,hle.trans hT,hheld⟩
      started := fun w hw => Option.some.inj hw ▸ hstarted }

theorem Matches.productive (h : Matches rs T e) (held : Bool) (verdict : Option Verdict) :
    Matches (⟨.productive,held,verdict⟩::rs) T (productiveEntry e) where
  free := h.free
  last := rfl
  window := rfl
  pauses := by
    unfold productiveEntry
    rw [h.free]
    rfl
  few := (by decide : 0<kEventsToQuarantine)
  paused := by
    unfold productiveEntry
    rw [h.free]
    exact (by decide : 0<kPausesToQuarantine)
  noted := fun s hs => by cases hs
  started := fun w hw => by cases hw

end FruitlessSessionLedger

end EmuleQt.Client
