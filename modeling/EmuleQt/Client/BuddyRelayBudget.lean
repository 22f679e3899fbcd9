import EmuleQt.Crypto.Digest
import EmuleQt.Kademlia.FloodLimit
import EmuleQt.Net.Address
import Mathlib.Data.List.Pairwise
import Mathlib.Data.List.TakeWhile

namespace EmuleQt.Client

open Crypto Framework Kademlia Net

/-- One minute. -/
def kWindow : Nat := 60000

def kMaxBuddyRelaysPerMin : Nat := 60
def kDefaultMaxServedBuddies : Nat := 8
def kBucketMax : Nat := 60000
def kCallbackCost : Nat := kBucketMax / kDefaultMaxServedBuddies

abbrev BuddyID := Digest 16

inductive RelayRequest
  | KadCallback
  | ReaskCallback
  deriving DecidableEq

/-- What a requester counts of its own requests: a bucket for each relay, and the ticks at which it
sent something for a buddy in the last minute. -/
structure BuddyRelayBudget where
  callbackBuckets : Address → Option Bucket
  relaySends : BuddyID → List Nat
  lastPrune : Nat

namespace BuddyRelayBudget

def create : BuddyRelayBudget := ⟨fun _ => none, fun _ => [], 0⟩

/-- A bucket untouched for a minute is full again. -/
def prune (now : Nat) (b : BuddyRelayBudget) : BuddyRelayBudget where
  callbackBuckets key := (b.callbackBuckets key).filter fun e => decide (now - e.latest < kWindow)
  relaySends id := if kWindow ≤ now - (b.relaySends id).getLastD 0 then [] else b.relaySends id
  lastPrune := now

def refill (bucket : Option Bucket) (now : Nat) : Bucket :=
  match bucket with
  | none => ⟨now, kBucketMax⟩
  | some e => ⟨now, min (kBucketMax : Int) (e.tokens + ((now : Int) - e.latest))⟩

def setBucket (key : Address) (bucket : Bucket) (b : BuddyRelayBudget) : BuddyRelayBudget :=
  { b with callbackBuckets := Function.update b.callbackBuckets key (some bucket) }

def setSends (id : BuddyID) (sends : List Nat) (b : BuddyRelayBudget) : BuddyRelayBudget :=
  { b with relaySends := Function.update b.relaySends id sends }

/-- Whether the request may be sent, and then it is charged. -/
def tryCharge (relay : Address) (buddyID : Option BuddyID) (kind : RelayRequest) (now : Nat)
    (b : BuddyRelayBudget) : Bool × BuddyRelayBudget :=
  match buddyID with
  | none => (false, b)
  | some id =>
    let b := if kWindow ≤ now - b.lastPrune then b.prune now else b
    let sends := (b.relaySends id).dropWhile fun sent => decide (kWindow ≤ now - sent)
    let b := b.setSends id sends
    if kMaxBuddyRelaysPerMin ≤ sends.length then (false, b)
    else
      match kind with
      | .ReaskCallback => (true, b.setSends id (sends ++ [now]))
      | .KadCallback =>
        let bucket := refill (b.callbackBuckets relay.peerKey) now
        if bucket.tokens < kCallbackCost then (false, b.setBucket relay.peerKey bucket)
        else
          (true, (b.setBucket relay.peerKey
            { bucket with tokens := bucket.tokens - kCallbackCost }).setSends id (sends ++ [now]))

end BuddyRelayBudget

/-- What a relay counts for a node it serves. -/
structure BuddyRelayWindow where
  start : Nat
  count : Nat

def BuddyRelayWindow.allowBuddyRelay (now : Nat) (w : BuddyRelayWindow) :
    Bool × BuddyRelayWindow :=
  let w := if kWindow ≤ now - w.start then ⟨now, 0⟩ else w
  if kMaxBuddyRelaysPerMin ≤ w.count then (false, w) else (true, { w with count := w.count + 1 })

structure Relay where
  tracking : PacketTracking
  windows : BuddyID → BuddyRelayWindow

/-- A request that reaches a relay, and whether it is passed on: a Kad request goes through the
flood control first, one between clients does not. -/
def Relay.receive (servedBuddyLimit : Nat) (p : Kademlia.Packet) (kind : RelayRequest)
    (id : BuddyID) (r : Relay) : Bool × Relay :=
  let tracked :=
    match kind with
    | .KadCallback => r.tracking.inTrackListIsAllowedPacket servedBuddyLimit p
    | .ReaskCallback => (0, r.tracking)
  let r := { r with tracking := tracked.2 }
  if tracked.1 ≠ 0 then (false, r)
  else
    let allowed := (r.windows id).allowBuddyRelay p.now
    (allowed.1, { r with windows := Function.update r.windows id allowed.2 })

/-- A requester and one of the relays it uses. -/
structure Relaying where
  budget : BuddyRelayBudget
  relay : Relay

inductive RelayEvent
  /-- The requester has something to be relayed by some node; `now` is its own clock. -/
  | request (relay : Address) (buddyID : Option BuddyID) (kind : RelayRequest) (now : Nat)
  /-- A Kad packet of somebody else, or of another kind, reaches the relay. -/
  | packet (p : Kademlia.Packet)

/-- Where the relay is, how it sees the requester, and how long packets take to it. -/
structure RelayPath where
  address : Address
  servedBuddyLimit : Nat
  ip : UInt32
  lanSpared : Bool
  delay : Nat

namespace RelayPath

variable (path : RelayPath)

/-- The request as it reaches the relay. -/
def arrival (now : Nat) : Kademlia.Packet :=
  ⟨path.ip, KADEMLIA_CALLBACK_REQ, now + path.delay, path.lanSpared⟩

/-- The clock of the relay. -/
def tick : RelayEvent → Nat
  | .request _ _ _ now => now + path.delay
  | .packet p => p.now

/-- What the relay makes of an event; none where nothing of the requester reaches it. -/
def relayed (s : Relaying) : RelayEvent → Option (Bool × Relay)
  | .request relay buddyID kind now =>
    if (s.budget.tryCharge relay buddyID kind now).1 = true ∧ relay = path.address then
      buddyID.map (s.relay.receive path.servedBuddyLimit (path.arrival now) kind)
    else none
  | .packet _ => none

def step (s : Relaying) (e : RelayEvent) : Relaying :=
  match e with
  | .request relay buddyID kind now =>
    ⟨(s.budget.tryCharge relay buddyID kind now).2,
      (path.relayed s e).elim s.relay fun r => r.2⟩
  | .packet p =>
    let tracked := s.relay.tracking.inTrackListIsAllowedPacket path.servedBuddyLimit p
    { s with relay.tracking := tracked.2 }

end RelayPath

namespace BuddyRelayBudget

variable {b b' b'' : BuddyRelayBudget} {now : Nat} {key : Address} {id : BuddyID}

/-- Only what was sent a minute ago is gone from a list. -/
def Trimmed (now : Nat) (before after : List Nat) : Prop :=
  ∃ gone, before = gone ++ after ∧ ∀ t ∈ gone, t + kWindow ≤ now

theorem Trimmed.refl (now : Nat) (xs : List Nat) : Trimmed now xs xs := ⟨[],rfl,by simp⟩

theorem Trimmed.trans {now : Nat} {xs ys zs : List Nat} (h : Trimmed now xs ys)
    (h' : Trimmed now ys zs) : Trimmed now xs zs := by
  obtain ⟨gone,rfl,hgone⟩ := h
  obtain ⟨gone',rfl,hgone'⟩ := h'
  exact ⟨gone++gone',by simp,List.forall_mem_append.mpr ⟨hgone,hgone'⟩⟩

theorem Trimmed.sublist {now : Nat} {xs ys : List Nat} (h : Trimmed now xs ys) :
    ys.Sublist xs := by
  obtain ⟨gone,rfl,-⟩ := h
  exact List.sublist_append_right _ _

/-- What is not tracked is full. -/
def bucketAt (b : BuddyRelayBudget) (key : Address) : Bucket :=
  (b.callbackBuckets key).getD (.full kBucketMax)

/-- The ticks are in order and none is to come; no bucket owes anything. -/
structure Sound (now : Nat) (b : BuddyRelayBudget) : Prop where
  sorted : ∀ id, (b.relaySends id).Pairwise (· ≤ ·)
  sent : ∀ id, ∀ t ∈ b.relaySends id, t ≤ now
  buckets : ∀ key e, b.callbackBuckets key = some e → 0 ≤ e.tokens ∧ e.latest ≤ now

/-- Nothing was charged: time has passed at most. -/
structure Lowered (now : Nat) (b b' : BuddyRelayBudget) : Prop where
  sound : b'.Sound now
  level : ∀ key t, now ≤ t →
    (b'.bucketAt key).level kBucketMax t ≤ (b.bucketAt key).level kBucketMax t
  sends : ∀ id, Trimmed now (b.relaySends id) (b'.relaySends id)

theorem Lowered.refl (h : b.Sound now) : Lowered now b b :=
  ⟨h,fun _ _ _ => le_refl _,fun _ => .refl _ _⟩

theorem Lowered.trans (h : Lowered now b b') (h' : Lowered now b' b'') : Lowered now b b'' :=
  ⟨h'.sound,fun key t ht => (h'.level key t ht).trans (h.level key t ht),
    fun id => (h.sends id).trans (h'.sends id)⟩

/-- A request that is charged: what was left before it, and what it costs. -/
structure Charged (relay : Address) (kind : RelayRequest) (now : Nat) (id : BuddyID)
    (b b' : BuddyRelayBudget) : Prop where
  few : (b.relaySends id).length < kMaxBuddyRelaysPerMin
  sends : b'.relaySends = Function.update b.relaySends id (b.relaySends id ++ [now])
  bucket : kind = .ReaskCallback ∧ b'.callbackBuckets = b.callbackBuckets ∨
    kind = .KadCallback ∧ (kCallbackCost : Int) ≤ (b.bucketAt relay.peerKey).level kBucketMax now ∧
      b'.callbackBuckets = Function.update b.callbackBuckets relay.peerKey
        (some ⟨now, (b.bucketAt relay.peerKey).level kBucketMax now - kCallbackCost⟩)

theorem Sound.later (h : b.Sound now) {later : Nat} (hle : now≤later) : b.Sound later :=
  ⟨h.sorted,fun id t ht => (h.sent id t ht).trans hle,
    fun key e he => ⟨(h.buckets key e he).1,(h.buckets key e he).2.trans hle⟩⟩

theorem Charged.sound {relay : Address} {kind : RelayRequest}
    (hc : Charged relay kind now id b b') (h : b.Sound now) : b'.Sound now := by
  refine ⟨fun id' => ?_,fun id' t ht => ?_,fun key e he => ?_⟩
  · rw [hc.sends]
    by_cases hid : id'=id
    · rw [hid,Function.update_self]
      exact List.pairwise_append.mpr ⟨h.sorted id,List.pairwise_singleton _ _,
        fun t ht u hu => List.mem_singleton.mp hu ▸ h.sent id t ht⟩
    · rw [Function.update_of_ne hid]
      exact h.sorted id'
  · rw [hc.sends] at ht
    by_cases hid : id'=id
    · rw [hid,Function.update_self] at ht
      rcases List.mem_append.mp ht with ht | ht
      · exact h.sent id t ht
      · exact (List.mem_singleton.mp ht).le
    · rw [Function.update_of_ne hid] at ht
      exact h.sent id' t ht
  · rcases hc.bucket with ⟨-,hsame⟩ | ⟨-,hcost,hsame⟩
    · exact h.buckets key e (hsame ▸ he)
    · rw [hsame] at he
      by_cases hkey : key=relay.peerKey
      · rw [hkey,Function.update_self] at he
        rw [← Option.some.inj he]
        exact ⟨by dsimp only; omega,le_refl _⟩
      · rw [Function.update_of_ne hkey] at he
        exact h.buckets key e he

theorem Charged.level {relay : Address} {kind : RelayRequest}
    (hc : Charged relay kind now id b b') (key : Address) {t : Nat} (ht : now≤t) :
    (b'.bucketAt key).level kBucketMax t≤(b.bucketAt key).level kBucketMax t := by
  rcases hc.bucket with ⟨-,hsame⟩ | ⟨-,-,hsame⟩
  · rw [bucketAt,hsame,← bucketAt]
  · rw [bucketAt,hsame]
    by_cases hkey : key=relay.peerKey
    · rw [hkey,Function.update_self,@Bucket.level_later _ (b.bucketAt _) _ _ ht,Option.getD_some]
      show min (kBucketMax : Int) ((b.bucketAt relay.peerKey).level kBucketMax now-kCallbackCost +
        ((t : Int)-now))≤_
      omega
    · rw [Function.update_of_ne hkey,← bucketAt]

end BuddyRelayBudget

namespace RelayPath

variable {path : RelayPath} {s : Relaying} {tick tick' now : Nat} {e : RelayEvent}

/-- The requester counts no less than the relay does. -/
structure Mirrors (path : RelayPath) (tick : Nat) (s : Relaying) : Prop where
  sound : ∀ now, tick ≤ now + path.delay → s.budget.Sound now
  bucket : ∀ now, tick ≤ now + path.delay →
    (s.budget.bucketAt path.address.peerKey).level kBucketMax now ≤
      (s.relay.tracking.bucketOf (path.ip, KADEMLIA_CALLBACK_REQ)).level kTokenBucketMax
        (now + path.delay)
  start : ∀ id, (s.relay.windows id).start ≤ tick
  count : ∀ id, (s.relay.windows id).start + kWindow ≤ tick ∨
    (s.relay.windows id).count ≤ (s.budget.relaySends id).countP fun t =>
      decide ((s.relay.windows id).start ≤ t + path.delay)

theorem Mirrors.later (h : path.Mirrors tick s) (hle : tick≤tick') : path.Mirrors tick' s :=
  ⟨fun now hnow => h.sound now (hle.trans hnow),fun now hnow => h.bucket now (hle.trans hnow),
    fun id => (h.start id).trans hle,fun id => (h.count id).imp_left fun hover => hover.trans hle⟩

theorem allowBuddyRelay_spec {w : BuddyRelayWindow}
    (hcount : w.start+kWindow≤tick ∨ w.count<kMaxBuddyRelaysPerMin) :
    (w.allowBuddyRelay tick).1=true ∧ ((w.allowBuddyRelay tick).2=⟨tick,1⟩ ∨
      tick<w.start+kWindow ∧ (w.allowBuddyRelay tick).2=⟨w.start,w.count+1⟩) := by
  unfold BuddyRelayWindow.allowBuddyRelay
  by_cases hover : kWindow≤tick-w.start
  · rw [if_pos hover]
    exact ⟨rfl,Or.inl rfl⟩
  · unfold kWindow at hover hcount ⊢
    rw [if_neg hover,if_neg (by omega)]
    exact ⟨rfl,Or.inr ⟨by omega,rfl⟩⟩

/-- A request is charged, and the relay has counted it or has never seen it. -/
theorem Mirrors.charged {relay : Address} {kind : RelayRequest} {id : BuddyID}
    {b : BuddyRelayBudget} {r : Relay} (h : path.Mirrors (now+path.delay) s)
    (hc : s.budget.Charged relay kind now id b)
    (hbucket : ∀ later,now≤later →
      (b.bucketAt path.address.peerKey).level kBucketMax later ≤
        (r.tracking.bucketOf (path.ip, KADEMLIA_CALLBACK_REQ)).level kTokenBucketMax
          (later+path.delay))
    (hother : ∀ id'≠id,r.windows id'=s.relay.windows id')
    (hself : r.windows id=s.relay.windows id ∨
      r.windows id=((s.relay.windows id).allowBuddyRelay (now+path.delay)).2 ∧
        ((s.relay.windows id).start+kWindow≤now+path.delay ∨
          (s.relay.windows id).count<kMaxBuddyRelaysPerMin)) :
    path.Mirrors (now+path.delay) ⟨b,r⟩ := by
  have hsound := hc.sound (h.sound now (le_refl _))
  have hsends : b.relaySends id=s.budget.relaySends id++[now] := by
    rw [hc.sends,Function.update_self]
  refine ⟨fun later hlater => hsound.later (by omega),
    fun later hlater => hbucket later (by omega),fun id' => ?_,fun id' => ?_⟩
  all_goals
    by_cases hid : id'=id
    swap
    · have hsame : b.relaySends id'=s.budget.relaySends id' := by
        rw [hc.sends,Function.update_of_ne hid]
      simp only [hother id' hid,hsame]
      first | exact h.start id' | exact h.count id'
    subst hid
    have hstart := h.start id'
  · rcases hself with hkept | ⟨hallowed,hcount⟩
    · rwa [← hkept] at hstart
    · rw [hallowed]
      rcases (allowBuddyRelay_spec hcount).2 with hnew | ⟨-,hmore⟩
      · rw [hnew]
      · rw [hmore]
        exact hstart
  · dsimp only
    rw [hsends,List.countP_append]
    rcases hself with hkept | ⟨hallowed,hcount⟩
    · rw [hkept]
      exact (h.count id').imp_right fun hle => hle.trans (Nat.le_add_right _ _)
    · rw [hallowed]
      rcases (allowBuddyRelay_spec hcount).2 with hnew | ⟨hopen,hmore⟩
      · rw [hnew]
        exact Or.inr (by simp)
      · rw [hmore]
        refine Or.inr (Nat.add_le_add ((h.count id').resolve_left (not_le.mpr hopen)) ?_)
        simp [hstart]

end RelayPath

end EmuleQt.Client
