import EmuleQt.Client.FruitlessSessionHistory

namespace EmuleQt.Client

open Crypto Framework

namespace FruitlessSessionLedger

variable {o o' : Option PeerEntry} {e : PeerEntry} {now T stop x : Nat} {p : Digest 16}
  {m : FruitlessSessionLedger} {peers : Finset (Digest 16)}

/-! # What every event does to a hold -/

theorem countEvent_keeps (now : Nat) (e : PeerEntry) :
    (countEvent now e).1.quarantined=e.quarantined ∧
      (countEvent now e).1.heldUntil=e.heldUntil := by
  unfold countEvent openWindow
  split_ifs <;> exact ⟨rfl,rfl⟩

theorem countEvent_free (h : (countEvent now e).2=true) : e.quarantined=false := by
  have hcalls := (of_decide_eq_true h).2
  have hkeeps := (countEvent_keeps now e).1
  exact hkeeps.symm.trans hcalls

theorem timed_of_quarantined (now : Nat) (hq : e.quarantined=true) (hheld : now<e.heldUntil) :
    ((fruitlessEntry now e).1.quarantined=true ∧
      (fruitlessEntry now e).1.heldUntil=e.heldUntil) ∧
    ((declinedEntry now e).1.quarantined=true ∧
      (declinedEntry now e).1.heldUntil=e.heldUntil) := by
  obtain ⟨hsame,huntil⟩ := countEvent_keeps now e
  have hcalls : ¬ (countEvent now e).2=true := by
    intro h
    rw [countEvent_free h] at hq
    cases hq
  have hstill : now<(countEvent now e).1.heldUntil := huntil ▸ hheld
  unfold fruitlessEntry declinedEntry
  rw [if_neg hcalls,if_pos hstill,if_neg hcalls,if_pos hstill]
  exact ⟨⟨hsame.trans hq,huntil⟩,⟨hsame.trans hq,huntil⟩⟩

theorem timed_quarantines (now : Nat) (hq : e.quarantined=false) :
    ((fruitlessEntry now e).2 = .Quarantined → QuarantinedAt now (fruitlessEntry now e)) ∧
    ((declinedEntry now e).2 = .Quarantined → QuarantinedAt now (declinedEntry now e)) := by
  have hpaused : heldVerdict (countEvent now e).1 = .Paused := by
    unfold heldVerdict
    rw [(countEvent_keeps now e).1,hq]
    rfl
  unfold fruitlessEntry declinedEntry
  dsimp only
  rw [hpaused]
  constructor
  · split_ifs
    · exact fun _ => quarantine_at now _
    · intro h
      cases h
    · exact fun _ => quarantine_at now _
    · intro h
      cases h
    · intro h
      cases h
  · split_ifs
    · exact fun _ => quarantine_at now _
    · intro h
      cases h
    · intro h
      cases h

theorem timed_heldUntil {now : Nat} (hbound : e.heldUntil≤now+kQuarantineMs) :
    (e.heldUntil≤(fruitlessEntry now e).1.heldUntil ∧
      (fruitlessEntry now e).1.heldUntil≤now+kQuarantineMs) ∧
    (e.heldUntil≤(declinedEntry now e).1.heldUntil ∧
      (declinedEntry now e).1.heldUntil≤now+kQuarantineMs) := by
  have huntil := (countEvent_keeps now e).2
  have hpause : kPauseMs≤kQuarantineMs := by decide
  unfold fruitlessEntry declinedEntry quarantine
  dsimp only
  constructor <;> split_ifs <;> dsimp only <;> omega

/-! # The record of one peer -/

/-- A quarantine under way until `stop`. -/
def Serving (stop : Nat) (o : Option PeerEntry) : Prop :=
  (o.getD fresh).quarantined = true ∧ (o.getD fresh).heldUntil = stop

theorem openEntry_of_serving (h : Serving stop o) (hnow : now<stop) :
    openEntry now o = { o.getD fresh with lastUsed := now } := by
  have hserved : ¬ ((o.getD fresh).quarantined=true ∧ (o.getD fresh).heldUntil≤now) := by
    rw [h.2]
    omega
  unfold openEntry
  dsimp only
  rw [if_neg hserved]

variable {ev : PeerEvent} {rs : List Record} {calls : List PeerCall}

theorem answer_serving (h : Serving stop o) (hev : ∀ t∈ev.time,t<stop) :
    Serving stop (answer o ev).1 := by
  obtain ⟨hq,huntil⟩ := h
  cases ev with
  | fruitless now =>
    have hnow := hev now rfl
    dsimp only [answer]
    rw [openEntry_of_serving ⟨hq,huntil⟩ hnow]
    obtain ⟨⟨hq',huntil'⟩,-⟩ := timed_of_quarantined now
      (e := { o.getD fresh with lastUsed := now }) hq (huntil ▸ hnow)
    exact ⟨hq',huntil'.trans huntil⟩
  | declined now =>
    have hnow := hev now rfl
    dsimp only [answer]
    rw [openEntry_of_serving ⟨hq,huntil⟩ hnow]
    obtain ⟨-,hq',huntil'⟩ := timed_of_quarantined now
      (e := { o.getD fresh with lastUsed := now }) hq (huntil ▸ hnow)
    exact ⟨hq',huntil'.trans huntil⟩
  | productive =>
    cases o with
    | none => cases hq
    | some e => exact ⟨hq,huntil⟩

theorem openEntry_heldUntil (o : Option PeerEntry) (now : Nat) :
    ((openEntry now o).heldUntil=(o.getD fresh).heldUntil ∨
      (openEntry now o).heldUntil=0 ∧ (o.getD fresh).heldUntil≤now) := by
  unfold openEntry
  dsimp only
  split_ifs with hserved
  · exact .inr ⟨rfl,hserved.2⟩
  · exact .inl rfl

theorem answer_heldOf (h : (o.getD fresh).heldUntil≤T+kQuarantineMs)
    (hev : ∀ t∈ev.time,T≤t) :
    ((answer o ev).1.getD fresh).heldUntil≤ev.time.getD T+kQuarantineMs ∧
      ∀ x,(∀ t∈ev.time,t≤x) → heldOf o x≤heldOf (answer o ev).1 x := by
  cases ev with
  | fruitless now =>
    have hT := hev now rfl
    have hopen := openEntry_heldUntil o now
    obtain ⟨⟨hlow,hhigh⟩,-⟩ := @timed_heldUntil (openEntry now o) now (by omega)
    refine ⟨hhigh,fun x hx => ?_⟩
    have hnow := hx now rfl
    change (o.getD fresh).heldUntil-x≤(fruitlessEntry now (openEntry now o)).1.heldUntil-x
    omega
  | declined now =>
    have hT := hev now rfl
    have hopen := openEntry_heldUntil o now
    obtain ⟨-,hlow,hhigh⟩ := @timed_heldUntil (openEntry now o) now (by omega)
    refine ⟨hhigh,fun x hx => ?_⟩
    have hnow := hx now rfl
    change (o.getD fresh).heldUntil-x≤(declinedEntry now (openEntry now o)).1.heldUntil-x
    omega
  | productive =>
    cases o with
    | none => exact ⟨h,fun x _ => Nat.le_refl _⟩
    | some e => exact ⟨h,fun x _ => Nat.le_refl _⟩

theorem answer_quarantines (hnow : ev.time=some now)
    (hverdict : (answer o ev).2=some .Quarantined)
    (hfree : ¬ ((o.getD fresh).quarantined=true ∧ now<(o.getD fresh).heldUntil)) :
    Serving (now+kQuarantineMs) (answer o ev).1 := by
  have hopen : (openEntry now o).quarantined=false := by
    unfold openEntry
    dsimp only
    split_ifs with hserved
    · rfl
    · cases hq : (o.getD fresh).quarantined with
      | false => rfl
      | true => exact (hfree ⟨hq,Nat.lt_of_not_le fun hle => hserved ⟨hq,hle⟩⟩).elim
  obtain ⟨hfruitless,hdeclined⟩ := timed_quarantines now hopen
  cases ev with
  | fruitless t =>
    obtain rfl := Option.some.inj hnow
    obtain ⟨-,hq,huntil⟩ := hfruitless (Option.some.inj hverdict)
    exact ⟨hq,huntil⟩
  | declined t =>
    obtain rfl := Option.some.inj hnow
    obtain ⟨-,hq,huntil⟩ := hdeclined (Option.some.inj hverdict)
    exact ⟨hq,huntil⟩
  | productive => cases hnow

/-- Two records tell the same from `T` on: they are equal, or one is of a quarantine that is
served by then, and there is no other. -/
def Alike (T : Nat) (o o' : Option PeerEntry) : Prop :=
  o = o' ∨ ((o.getD fresh).quarantined = true ∧ (o.getD fresh).heldUntil ≤ T ∧ o' = none)

theorem Alike.openEntry (h : Alike T o o') (hnow : T≤now) : openEntry now o=openEntry now o' := by
  rcases h with rfl | ⟨hq,huntil,rfl⟩
  · rfl
  · unfold openEntry
    dsimp only
    rw [if_pos ⟨hq,huntil.trans hnow⟩]
    rfl

theorem Alike.answer (h : Alike T o o') (hev : ∀ t∈ev.time,T≤t) :
    Alike T (answer o ev).1 (answer o' ev).1 ∧ (answer o ev).2=(answer o' ev).2 := by
  cases ev with
  | fruitless now =>
    dsimp only [answer]
    rw [h.openEntry (hev now rfl)]
    exact ⟨.inl rfl,rfl⟩
  | declined now =>
    dsimp only [answer]
    rw [h.openEntry (hev now rfl)]
    exact ⟨.inl rfl,rfl⟩
  | productive =>
    refine ⟨?_,rfl⟩
    rcases h with rfl | ⟨hq,huntil,rfl⟩
    · exact .inl rfl
    · cases o with
      | none => cases hq
      | some e => exact .inr ⟨hq,huntil,rfl⟩

theorem Alike.heldOf (h : Alike T o o') (hx : T≤x) : heldOf o x=heldOf o' x := by
  rcases h with rfl | ⟨-,huntil,rfl⟩
  · rfl
  · unfold heldOf
    have hnone : ((none : Option PeerEntry).getD fresh).heldUntil=0 := rfl
    omega

/-! # Runs over all the peers -/

/-- The ledger, the last time seen, and what has been observed, the newest first. -/
structure Watch where
  ledger : FruitlessSessionLedger
  now : Nat
  history : List (Digest 16 × Record)

def Watch.start : Watch := ⟨[], 1, []⟩

def watch (w : Watch) (c : PeerCall) : Watch :=
  { ledger := w.ledger.after c
    now := c.event.time.getD w.now
    history := (c.peer, ⟨c.event,
      decide (0 < w.ledger.heldBackFor c.peer (c.event.time.getD w.now)), (w.ledger.note c).2⟩) ::
        w.history }

def Watch.of (p : Digest 16) (w : Watch) : List Record :=
  (w.history.filter fun r => decide (r.1 = p)).map Prod.snd

/-- Calls about the peers of a set, at times that do not go back. -/
def Orderly (peers : Finset (Digest 16)) (w : Watch) (c : PeerCall) : Prop :=
  c.peer∈peers ∧ ∀ t∈c.event.time, w.now≤t

instance instDecidableOrderly (peers : Finset (Digest 16)) (w : Watch) (c : PeerCall) :
    Decidable (Orderly peers w c) :=
  match h : c.event.time with
  | none => decidable_of_iff (c.peer∈peers) (by simp [Orderly,h])
  | some t => decidable_of_iff (c.peer∈peers ∧ w.now≤t) (by simp [Orderly,h])

structure Sound (peers : Finset (Digest 16)) (w : Watch) : Prop where
  roomy : Roomy peers w.ledger
  positive : 0 < w.now
  bounded : ∀ p, ((w.ledger.find p).getD fresh).heldUntil ≤ w.now + kQuarantineMs
  matched : ∀ p, (∀ r ∈ w.of p, r.verdict ≠ some .Quarantined) →
    Matches (w.of p) w.now ((w.ledger.find p).getD fresh)

theorem start_sound (peers : Finset (Digest 16)) : Sound peers .start where
  roomy := ⟨List.nodup_nil,fun x hx => by cases hx⟩
  positive := Nat.one_pos
  bounded := fun p => Nat.zero_le _
  matched := fun p _ => fresh_matches 1

variable {w : Watch} {c : PeerCall}

theorem Orderly.now_le (h : Orderly peers w c) : w.now≤(watch w c).now := by
  unfold watch
  cases htime : c.event.time with
  | none => exact Nat.le_refl _
  | some t => exact h.2 t htime

theorem watch_now (h : c.event.time=some now) : (watch w c).now=now := by
  unfold watch
  rw [h]
  rfl

theorem of_watch : (watch w c).of p=if c.peer=p then
    ⟨c.event,decide (0<w.ledger.heldBackFor c.peer (c.event.time.getD w.now)),
      (w.ledger.note c).2⟩::w.of p
    else w.of p := by
  unfold Watch.of watch
  rw [List.filter_cons]
  by_cases hp : c.peer=p
  · rw [if_pos (by simpa using hp),if_pos hp]
    rfl
  · rw [if_neg (by simpa using hp),if_neg hp]

theorem Matches.later (h : Matches rs T e) (hT : T≤now) : Matches rs now e :=
  { h with
    noted := fun s hs => by
      obtain ⟨hpos,hle,hheld⟩ := h.noted s hs
      exact ⟨hpos,hle.trans hT,hheld⟩ }

theorem Matches.answer (h : Matches rs T (o.getD fresh)) (hpos : 0<T) (hev : ∀ t∈ev.time,T≤t)
    (hverdict : (answer o ev).2≠some .Quarantined) :
    Matches (⟨ev,decide (0<heldOf o (ev.time.getD T)),(answer o ev).2⟩::rs) (ev.time.getD T)
      ((answer o ev).1.getD fresh) := by
  cases ev with
  | fruitless now =>
    have hT := hev now rfl
    dsimp only [answer] at hverdict ⊢
    rw [openEntry_of_free h.free] at hverdict ⊢
    exact h.fruitless hT (hpos.trans_le hT) fun heq => hverdict (congrArg some heq)
  | declined now =>
    have hT := hev now rfl
    dsimp only [answer] at hverdict ⊢
    rw [openEntry_of_free h.free] at hverdict ⊢
    exact h.declined hT (hpos.trans_le hT) _ fun heq => hverdict (congrArg some heq)
  | productive =>
    have hentry : ((o.map productiveEntry).getD fresh)=productiveEntry (o.getD fresh) := by
      cases o <;> rfl
    dsimp only [answer]
    rw [hentry]
    exact h.productive _ _

theorem Sound.watch (h : Sound peers w) (hroom : peers.card<kMaxEntries)
    (hc : Orderly peers w c) : Sound peers (watch w c) := by
  obtain ⟨hverdict,hfind⟩ := h.roomy.note hroom c
  have hnow := hc.now_le
  refine ⟨h.roomy.after hroom hc.1,h.positive.trans_le hnow,fun p => ?_,fun p hfree => ?_⟩
  · change (((w.ledger.after c).find p).getD fresh).heldUntil≤_
    rw [hfind]
    split_ifs with hp
    · exact (answer_heldOf (h.bounded p) hc.2).1
    · exact (h.bounded p).trans (Nat.add_le_add_right hnow _)
  · rw [of_watch] at hfree ⊢
    change Matches _ _ (((w.ledger.after c).find p).getD fresh)
    rw [hfind]
    by_cases hp : c.peer=p
    · subst hp
      rw [if_pos rfl] at hfree ⊢
      obtain ⟨hlast,hearlier⟩ := List.forall_mem_cons.mp hfree
      have hmatched := h.matched c.peer hearlier
      rw [hverdict] at hlast ⊢
      rw [if_pos rfl,heldBackFor_eq]
      exact hmatched.answer h.positive hc.2 hlast
    · rw [if_neg hp] at hfree ⊢
      rw [if_neg (Ne.symm hp)]
      exact (h.matched p hfree).later hnow

theorem run_sound (hroom : peers.card<kMaxEntries) (h : Sound peers w)
    (hcalls : Along watch (Orderly peers) w calls) :
    Sound peers (run watch w calls) :=
  run_invariant (fun _ _ hw hc => Sound.watch hw hroom hc) h hcalls

/-! # One peer of a run -/

def own (p : Digest 16) (calls : List PeerCall) : List PeerCall :=
  calls.filter fun c => decide (c.peer = p)

def answerTo (o : Option PeerEntry) (c : PeerCall) : Option PeerEntry := (answer o c.event).1

theorem find_run (hroom : peers.card<kMaxEntries) (h : Sound peers w)
    (hcalls : Along watch (Orderly peers) w calls) (p : Digest 16) :
    (run watch w calls).ledger.find p =
      run answerTo (w.ledger.find p) (own p calls) := by
  induction calls generalizing w with
  | nil => rfl
  | cons c calls ih =>
    obtain ⟨hc,hrest⟩ := hcalls
    have hfind := (h.roomy.note hroom c).2 p
    rw [run_cons,ih (h.watch hroom hc) hrest]
    change run answerTo ((w.ledger.after c).find p) _ = _
    rw [hfind]
    unfold own
    by_cases hp : c.peer=p
    · rw [if_pos hp.symm,List.filter_cons_of_pos (by simpa using hp),run_cons]
      rfl
    · rw [if_neg (Ne.symm hp),List.filter_cons_of_neg (by simpa using hp)]

theorem Alike.run (h : Alike T o o') (hcalls : ∀ c∈calls,∀ t∈c.event.time,T≤t) :
    Alike T (run answerTo o calls) (run answerTo o' calls) := by
  have hstep : ∀ (a b : Option PeerEntry) (c : PeerCall), Alike T a b →
      (∀ t∈c.event.time,T≤t) → Alike T (answerTo a c) (answerTo b c) :=
    fun a b c hab hc => (hab.answer hc).1
  exact run_simulation hstep h (along_of_forall o hcalls)

/-! # The verdicts on a peer that is not held back -/

/-- How long a verdict holds a peer back. -/
def Verdict.hold : Verdict → Nat
  | .Noted => 0
  | .Paused => kPauseMs
  | .Quarantined => kQuarantineMs

theorem Matches.nthEvent_le (h : Matches rs T e) (now : Nat) :
    nthEvent rs now≤kEventsToQuarantine := by
  have hwindow := h.window
  have hfew := h.few
  have hone : 1≤kEventsToQuarantine := by decide
  unfold nthEvent windowAfter
  cases hw : FruitlessSessionLedger.window rs with
  | none => exact hone
  | some win =>
    rw [hw] at hwindow
    have hevents := (Prod.ext_iff.mp hwindow).2
    dsimp only [Option.getD_some] at hevents ⊢
    split_ifs
    · omega
    · exact hone

theorem QuarantinedAt.held {r : PeerEntry × Verdict} (h : QuarantinedAt now r) :
    heldOf (some r.1) now=kQuarantineMs := by
  change r.1.heldUntil-now=kQuarantineMs
  rw [h.2.2]
  omega

theorem fruitless_verdict (h : Matches rs T (o.getD fresh)) (hheld : heldOf o now=0) :
    ((answer o (.fruitless now)).2=some .Quarantined ↔
      nthEvent rs now=kEventsToQuarantine ∨ (Follows rs now ∧ pausesBegun rs=1)) ∧
    ((answer o (.fruitless now)).2=some .Paused ↔
      nthEvent rs now≠kEventsToQuarantine ∧ Follows rs now ∧ pausesBegun rs=0) ∧
    ∀ v,(answer o (.fruitless now)).2=some v →
      heldOf (answer o (.fruitless now)).1 now=Verdict.hold v := by
  have hle := h.nthEvent_le now
  have hpauses : pausesBegun rs<2 := h.pauses ▸ h.paused
  have hover : (o.getD fresh).heldUntil≤now := Nat.le_of_sub_eq_zero hheld
  dsimp only [answer]
  rw [openEntry_of_free h.free]
  simp only [Option.some.injEq,forall_eq']
  rcases h.fruitless_cases now with ⟨hn,hq⟩ | ⟨-,hin,-⟩ | ⟨hn,-,hpair,hp,hq⟩ |
    ⟨hn,-,hpair,hp,hr⟩ | ⟨hn,-,hpair,hr⟩
  · rw [hq.held,hq.1]
    have hten : nthEvent rs now=kEventsToQuarantine := by omega
    simp [hten,Verdict.hold]
  · omega
  · rw [hq.held,hq.1]
    have hone : pausesBegun rs=1 := by omega
    simp [hpair,hone,Verdict.hold]
  · rw [hr]
    have hten : nthEvent rs now≠kEventsToQuarantine := by omega
    refine ⟨by simp [hten,hp],by simp [hten,hpair,hp],?_⟩
    change now+kPauseMs-now=kPauseMs
    omega
  · rw [hr]
    have hten : nthEvent rs now≠kEventsToQuarantine := by omega
    refine ⟨by simp [hten,hpair],by simp [hpair],?_⟩
    exact hheld

theorem declined_verdict (h : Matches rs T (o.getD fresh)) (hheld : heldOf o now=0) :
    ((answer o (.declined now)).2=some .Quarantined ↔
      nthEvent rs now=kEventsToQuarantine) ∧
    (answer o (.declined now)).2≠some .Paused ∧
    ∀ v,(answer o (.declined now)).2=some v →
      heldOf (answer o (.declined now)).1 now=Verdict.hold v := by
  have hle := h.nthEvent_le now
  have hover : (o.getD fresh).heldUntil≤now := Nat.le_of_sub_eq_zero hheld
  dsimp only [answer]
  rw [openEntry_of_free h.free]
  simp only [Option.some.injEq,ne_eq,forall_eq']
  rcases h.declined_cases now with ⟨hn,hq⟩ | ⟨hn,hr⟩
  · rw [hq.held,hq.1]
    have hten : nthEvent rs now=kEventsToQuarantine := by omega
    simp [hten,Verdict.hold]
  · rw [hr,if_neg (by omega)]
    have hten : nthEvent rs now≠kEventsToQuarantine := by omega
    exact ⟨by simp [hten],by simp,hheld⟩

/-! # Quarantines over a run -/

theorem isQuarantined_of_serving {stop : Nat} (h : Serving stop (m.find p)) (x : Nat) :
    m.heldBackFor p x=stop-x ∧ (m.isQuarantined p x=true ↔ x<stop) := by
  rw [heldBackFor_eq,isQuarantined_eq,h.1]
  unfold heldOf
  rw [h.2,Bool.true_and,decide_eq_true_eq]
  omega

theorem run_serving (hroom : peers.card<kMaxEntries) {stop : Nat} (h : Sound peers w)
    (hserving : Serving stop (w.ledger.find p))
    (hcalls : Along watch (Orderly peers) w calls)
    (hnow : (run watch w calls).now<stop) :
    Serving stop ((run watch w calls).ledger.find p) := by
  have hstep : ∀ w c,(Sound peers w ∧ (w.now<stop → Serving stop (w.ledger.find p))) →
      Orderly peers w c →
      Sound peers (watch w c) ∧
        ((watch w c).now<stop →
          Serving stop ((watch w c).ledger.find p)) := by
    rintro w c ⟨hw,hs⟩ hc
    refine ⟨hw.watch hroom hc,fun hlt => ?_⟩
    have hserve := hs (hc.now_le.trans_lt hlt)
    change Serving stop ((w.ledger.after c).find p)
    rw [(hw.roomy.note hroom c).2]
    split_ifs with hp
    · apply answer_serving hserve
      intro t ht
      rwa [watch_now ht] at hlt
    · exact hserve
  exact (run_invariant hstep ⟨h,fun _ => hserving⟩ hcalls).2 hnow

theorem along_earlier {w' : Watch} (hnow : w'.now≤w.now)
    (h : Along watch (Orderly peers) w calls) :
    Along watch (Orderly peers) w' calls := by
  induction calls generalizing w w' with
  | nil => trivial
  | cons c calls ih =>
    obtain ⟨⟨hpeer,htime⟩,hrest⟩ := h
    refine ⟨⟨hpeer,fun t ht => hnow.trans (htime t ht)⟩,ih ?_ hrest⟩
    unfold watch
    cases c.event.time with
    | none => exact hnow
    | some t => exact Nat.le_refl t

theorem note_alike {m' : FruitlessSessionLedger} (hroom : peers.card<kMaxEntries)
    (hm : Roomy peers m) (hm' : Roomy peers m') (h : Alike T (m.find p) (m'.find p)) :
    (∀ x,T≤x → m.heldBackFor p x=m'.heldBackFor p x) ∧
      ∀ c,c.peer=p → (∀ t∈c.event.time,T≤t) → (m.note c).2=(m'.note c).2 := by
  refine ⟨fun x hx => ?_,?_⟩
  · rw [heldBackFor_eq,heldBackFor_eq]
    exact h.heldOf hx
  · rintro c rfl htime
    rw [(hm.note hroom c).1,(hm'.note hroom c).1]
    exact (h.answer htime).2

theorem quarantine_runs {t : Nat} {during : List PeerCall} (hroom : peers.card<kMaxEntries)
    (h : Sound peers w) (htime : c.event.time=some t) (hc : Orderly peers w c)
    (hverdict : (w.ledger.note c).2=some .Quarantined)
    (hbegins : w.ledger.isQuarantined c.peer t=false)
    (hduring : Along watch (Orderly peers) (watch w c) during)
    (hnow : (run watch (watch w c) during).now<t+kQuarantineMs) :
    (∀ x,(run watch (watch w c) during).ledger.heldBackFor c.peer x=t+kQuarantineMs-x ∧
      ((run watch (watch w c) during).ledger.isQuarantined c.peer x=true ↔
        x<t+kQuarantineMs)) ∧
    ∀ rest,Along watch (Orderly peers) (run watch (watch w c) during) rest →
      (∀ c'∈rest,∀ t'∈c'.event.time,t+kQuarantineMs≤t') →
      (∀ x,t+kQuarantineMs≤x →
        (run watch (run watch (watch w c) during) rest).ledger.heldBackFor c.peer x =
          (run watch .start rest).ledger.heldBackFor c.peer x) ∧
      ∀ c',c'.peer=c.peer → (∀ t'∈c'.event.time,t+kQuarantineMs≤t') →
        ((run watch (run watch (watch w c) during) rest).ledger.note c').2 =
          ((run watch .start rest).ledger.note c').2 := by
  have hentered := h.watch hroom hc
  have hserving : Serving (t+kQuarantineMs) ((watch w c).ledger.find c.peer) := by
    obtain ⟨hsame,hfind⟩ := h.roomy.note hroom c
    change Serving _ ((w.ledger.after c).find c.peer)
    rw [hfind,if_pos rfl]
    apply answer_quarantines htime (hsame.symm.trans hverdict)
    rintro ⟨hq,hheld⟩
    rw [isQuarantined_eq,hq] at hbegins
    unfold heldOf at hbegins
    simp only [Bool.true_and,decide_eq_false_iff_not] at hbegins
    omega
  have hlasts := run_serving hroom hentered hserving hduring hnow
  have hsound := run_sound hroom hentered hduring
  refine ⟨isQuarantined_of_serving hlasts,fun rest hrest hlate => ?_⟩
  have hfromStart := @along_earlier _ _ _ .start hsound.positive hrest
  have hstart := start_sound peers
  apply note_alike hroom (run_sound hroom hsound hrest).roomy
    (run_sound hroom hstart hfromStart).roomy
  rw [find_run hroom hsound hrest,find_run hroom hstart hfromStart]
  refine Alike.run (.inr ⟨hlasts.1,Nat.le_of_eq hlasts.2,rfl⟩) fun c' hc' => ?_
  exact hlate c' (List.mem_filter.mp hc').1

/-- With room for all the peers: a quarantine lasts exactly its time and leaves nothing behind, no
event shortens a hold, a peer that is not held is paused and quarantined by what its history says,
and only the calls about a peer count. -/
theorem fruitlessSessions_held (hroom : peers.card < kMaxEntries) {calls : List PeerCall}
    (hcalls : Along watch (Orderly peers) .start calls) :
    let w := run watch .start calls
    (∀ c t during,c.event.time=some t → Orderly peers w c →
      (w.ledger.note c).2=some .Quarantined → w.ledger.isQuarantined c.peer t=false →
      Along watch (Orderly peers) (watch w c) during →
      (run watch (watch w c) during).now<t+kQuarantineMs →
      (∀ x,(run watch (watch w c) during).ledger.heldBackFor c.peer x=t+kQuarantineMs-x ∧
        ((run watch (watch w c) during).ledger.isQuarantined c.peer x=true ↔
          x<t+kQuarantineMs)) ∧
      ∀ rest,Along watch (Orderly peers) (run watch (watch w c) during) rest →
        (∀ c'∈rest,∀ t'∈c'.event.time,t+kQuarantineMs≤t') →
        (∀ x,t+kQuarantineMs≤x →
          (run watch (run watch (watch w c) during) rest).ledger.heldBackFor c.peer x =
            (run watch .start rest).ledger.heldBackFor c.peer x) ∧
        ∀ c',c'.peer=c.peer → (∀ t'∈c'.event.time,t+kQuarantineMs≤t') →
          ((run watch (run watch (watch w c) during) rest).ledger.note c').2 =
            ((run watch .start rest).ledger.note c').2) ∧
    (∀ c p x,Orderly peers w c → (∀ t∈c.event.time,t≤x) →
      w.ledger.heldBackFor p x≤(w.ledger.after c).heldBackFor p x) ∧
    (∀ p now,w.ledger.heldBackFor p now=0 →
      (∀ r∈w.of p,r.verdict≠some .Quarantined) →
      ((w.ledger.note ⟨p,.fruitless now⟩).2=some .Quarantined ↔
        nthEvent (w.of p) now=kEventsToQuarantine ∨
          (Follows (w.of p) now ∧ pausesBegun (w.of p)=1)) ∧
      ((w.ledger.note ⟨p,.fruitless now⟩).2=some .Paused ↔
        nthEvent (w.of p) now≠kEventsToQuarantine ∧ Follows (w.of p) now ∧
          pausesBegun (w.of p)=0) ∧
      ((w.ledger.note ⟨p,.declined now⟩).2=some .Quarantined ↔
        nthEvent (w.of p) now=kEventsToQuarantine) ∧
      (w.ledger.note ⟨p,.declined now⟩).2≠some .Paused ∧
      ∀ ev v,ev.time=some now → (w.ledger.note ⟨p,ev⟩).2=some v →
        (w.ledger.after ⟨p,ev⟩).heldBackFor p now=Verdict.hold v) ∧
    ∀ p calls',Along watch (Orderly peers) .start calls' → own p calls'=own p calls →
      (∀ x,w.ledger.heldBackFor p x=(run watch .start calls').ledger.heldBackFor p x) ∧
      ∀ c,c.peer=p → (w.ledger.note c).2=((run watch .start calls').ledger.note c).2 := by
  intro w
  have hsound : Sound peers w := run_sound hroom (start_sound peers) hcalls
  refine ⟨?_,?_,?_,?_⟩
  · intro c t during htime hc hverdict hbegins hduring hnow
    exact quarantine_runs hroom hsound htime hc hverdict hbegins hduring hnow
  · intro c p x hc hx
    rw [heldBackFor_eq,heldBackFor_eq,(hsound.roomy.note hroom c).2]
    split_ifs
    · exact (answer_heldOf (hsound.bounded p) hc.2).2 x hx
    · exact Nat.le_refl _
  · intro p now hheld hfree
    have hmatched := hsound.matched p hfree
    rw [heldBackFor_eq] at hheld
    obtain ⟨hquarantined,hpaused,hhold⟩ := fruitless_verdict hmatched hheld
    obtain ⟨hquarantined',hpaused',hhold'⟩ := declined_verdict hmatched hheld
    have hverdict := fun ev => (hsound.roomy.note hroom ⟨p,ev⟩).1
    have hfind := fun ev => (hsound.roomy.note hroom ⟨p,ev⟩).2 p
    rw [hverdict,hverdict]
    refine ⟨hquarantined,hpaused,hquarantined',hpaused',?_⟩
    intro ev v htime hv
    rw [hverdict] at hv
    rw [heldBackFor_eq,hfind,if_pos rfl]
    cases ev with
    | fruitless t =>
      obtain rfl := Option.some.inj htime
      exact hhold v hv
    | declined t =>
      obtain rfl := Option.some.inj htime
      exact hhold' v hv
    | productive => cases htime
  · intro p calls' hcalls' hown
    have hsame : w.ledger.find p=(run watch .start calls').ledger.find p := by
      rw [find_run hroom (start_sound peers) hcalls,find_run hroom (start_sound peers) hcalls',
        hown]
    obtain ⟨hheld,hnote⟩ := note_alike (T := 0) hroom hsound.roomy
      (run_sound hroom (start_sound peers) hcalls').roomy (.inl hsame)
    exact ⟨fun x => hheld x (Nat.zero_le x),fun c hc => hnote c hc fun _ _ => Nat.zero_le _⟩

theorem fruitlessSessions_held_pause :
    let calls : List PeerCall := [⟨Digest.zero 16,.fruitless 1⟩,⟨Digest.zero 16,.fruitless 2⟩]
    Along watch (Orderly {Digest.zero 16}) .start calls ∧
      (run watch .start calls).ledger.heldBackFor (Digest.zero 16) 3=179999 ∧
      ∀ c p x,Orderly {Digest.zero 16} (run watch .start calls) c → (∀ t∈c.event.time,t≤x) →
        (run watch .start calls).ledger.heldBackFor p x ≤
          ((run watch .start calls).ledger.after c).heldBackFor p x :=
  ⟨by decide,by decide,by
    have hroom : ({Digest.zero 16} : Finset (Digest 16)).card<kMaxEntries := by decide
    exact (fruitlessSessions_held hroom (by decide)).2.1⟩

end FruitlessSessionLedger

end EmuleQt.Client
