import EmuleQt.Framework.TokenBucket
import EmuleQt.Framework.Run

namespace EmuleQt.Kademlia

def KADEMLIA2_BOOTSTRAP_REQ : UInt8 := 0x01
def KADEMLIA2_HELLO_REQ : UInt8 := 0x11
def KADEMLIA2_REQ : UInt8 := 0x21
def KADEMLIA2_SEARCH_KEY_REQ : UInt8 := 0x33
def KADEMLIA2_SEARCH_SOURCE_REQ : UInt8 := 0x34
def KADEMLIA2_SEARCH_NOTES_REQ : UInt8 := 0x35
def KADEMLIA2_PUBLISH_KEY_REQ : UInt8 := 0x43
def KADEMLIA2_PUBLISH_SOURCE_REQ : UInt8 := 0x44
def KADEMLIA2_PUBLISH_NOTES_REQ : UInt8 := 0x45
def KADEMLIA_FIREWALLED_REQ : UInt8 := 0x50
def KADEMLIA_FINDBUDDY_REQ : UInt8 := 0x51
def KADEMLIA_CALLBACK_REQ : UInt8 := 0x52
def KADEMLIA_FIREWALLED2_REQ : UInt8 := 0x53
def KADEMLIA2_PING : UInt8 := 0x60

def kTokenBucketMax : Nat := 60000
def kMassiveFloodTokens : Int := -180000
def kInCleanupInterval : Nat := 720000

structure TrackedRequest where
  latest : Nat
  tokens : Int
  opcode : UInt8
  dbgLogged : Bool
  deriving DecidableEq

structure TrackedPacketsIn where
  lastExpire : Nat
  ip : UInt32
  trackedRequests : List TrackedRequest
  deriving DecidableEq

/-- The inbound part; the map is a function from the IP. -/
structure PacketTracking where
  trackPacketsIn : UInt32 → Option TrackedPacketsIn
  lastTrackInCleanup : Nat

/-- An inbound packet, the tick at which it comes, and whether LAN mode spares its IP. -/
structure Packet where
  ip : UInt32
  opcode : UInt8
  now : Nat
  lanSpared : Bool
  deriving DecidableEq

/-- How many requests a minute an IP may make; none for a response. -/
def requestBudget (servedBuddyLimit : Nat) (opcode : UInt8) : Option Nat :=
  if opcode=KADEMLIA2_BOOTSTRAP_REQ then some 2
  else if opcode=KADEMLIA2_HELLO_REQ then some 3
  else if opcode=KADEMLIA2_REQ then some 10
  else if opcode=KADEMLIA2_SEARCH_NOTES_REQ ∨ opcode=KADEMLIA2_SEARCH_KEY_REQ ∨
      opcode=KADEMLIA2_SEARCH_SOURCE_REQ then some 3
  else if opcode=KADEMLIA2_PUBLISH_KEY_REQ then some 4
  else if opcode=KADEMLIA2_PUBLISH_SOURCE_REQ then some 3
  else if opcode=KADEMLIA2_PUBLISH_NOTES_REQ then some 2
  else if opcode=KADEMLIA_FIREWALLED2_REQ ∨ opcode=KADEMLIA_FIREWALLED_REQ ∨
      opcode=KADEMLIA_FINDBUDDY_REQ then some 2
  else if opcode=KADEMLIA_CALLBACK_REQ then some (max 1 servedBuddyLimit)
  else if opcode=KADEMLIA2_PING then some 2
  else none

/-- Both forms of the firewalled request share one bucket. -/
def sharedOpcode (opcode : UInt8) : UInt8 :=
  if opcode=KADEMLIA_FIREWALLED2_REQ then KADEMLIA_FIREWALLED_REQ else opcode

/-- The price of a request and the opcode whose bucket it draws from. -/
def requestPrice (servedBuddyLimit : Nat) (opcode : UInt8) : Option (Nat × UInt8) :=
  (requestBudget servedBuddyLimit opcode).map fun budget =>
    (kTokenBucketMax/budget, sharedOpcode opcode)

namespace TrackedRequest

/-- Refill by the time gone by, up to a full bucket, then pay. -/
def pay (req : TrackedRequest) (token now : Nat) : TrackedRequest :=
  { req with
    tokens := min (kTokenBucketMax : Int) (req.tokens + ((now : Int) - req.latest)) - token
    latest := now }

/-- 0 allowed, 1 dropped, 2 dropped and banned. -/
def verdict (req : TrackedRequest) (lanSpared : Bool) : Nat :=
  if lanSpared then 0
  else if req.tokens < 0 then if req.tokens < kMassiveFloodTokens then 2 else 1
  else 0

/-- A flood is logged once. -/
def log (req : TrackedRequest) (lanSpared : Bool) : TrackedRequest :=
  if lanSpared then req
  else if req.tokens < 0 then
    if req.tokens < kMassiveFloodTokens then req else { req with dbgLogged := true }
  else { req with dbgLogged := false }

end TrackedRequest

def setRequest (opcode : UInt8) (req : TrackedRequest) : List TrackedRequest → List TrackedRequest
  | [] => []
  | r :: rs => if r.opcode = opcode then req :: rs else r :: setRequest opcode req rs

namespace PacketTracking

/-- A fresh listener. -/
def create : PacketTracking := ⟨fun _ => none, 0⟩

def inTrackListCleanup (s : PacketTracking) (now : Nat) : PacketTracking :=
  { trackPacketsIn := fun ip =>
      (s.trackPacketsIn ip).filter fun tracked => decide (now < tracked.lastExpire)
    lastTrackInCleanup := now }

/-- What `inTrackListIsAllowedPacket` does with a request after the cleanup. -/
def trackRequest (s : PacketTracking) (p : Packet) (token : Nat) (opcode : UInt8) :
    Nat × PacketTracking :=
  let tracked := (s.trackPacketsIn p.ip).getD ⟨0,p.ip,[]⟩
  match tracked.trackedRequests.find? fun r => r.opcode=opcode with
  | none =>
    let req : TrackedRequest := ⟨p.now,(kTokenBucketMax : Int)-token,opcode,false⟩
    let tracked := { tracked with trackedRequests := tracked.trackedRequests++[req] }
    (0, { s with trackPacketsIn := Function.update s.trackPacketsIn p.ip (some tracked) })
  | some req =>
    let req := req.pay token p.now
    let tracked := { tracked with
      trackedRequests := setRequest opcode (req.log p.lanSpared) tracked.trackedRequests
      lastExpire := max tracked.lastExpire (p.now+(req.tokens.natAbs+token)) }
    (req.verdict p.lanSpared,
      { s with trackPacketsIn := Function.update s.trackPacketsIn p.ip (some tracked) })

def inTrackListIsAllowedPacket (servedBuddyLimit : Nat) (s : PacketTracking) (p : Packet) :
    Nat × PacketTracking :=
  match requestPrice servedBuddyLimit p.opcode with
  | none => (0, s)
  | some (token, opcode) =>
    (if p.now ≥ s.lastTrackInCleanup + kInCleanupInterval then s.inTrackListCleanup p.now
      else s).trackRequest p token opcode

end PacketTracking

open Framework

section SetRequest

variable {opcode op : UInt8} {req : TrackedRequest} {rs : List TrackedRequest}

end SetRequest

namespace PacketTracking

def requestOf (tracked : Option TrackedPacketsIn) (opcode : UInt8) : Option TrackedRequest :=
  tracked.bind fun tracked => tracked.trackedRequests.find? fun r => r.opcode=opcode

/-- What is not tracked is full. -/
def bucket : Option TrackedRequest → Bucket
  | none => .full kTokenBucketMax
  | some r => ⟨r.latest, r.tokens⟩

/-- The bucket of an IP and an opcode. -/
def bucketOf (s : PacketTracking) (k : UInt32 × UInt8) : Bucket :=
  bucket (requestOf (s.trackPacketsIn k.1) k.2)

section TrackRequest

variable {s : PacketTracking} {p : Packet} {token : Nat} {opcode : UInt8}

end TrackRequest

/-- The buckets hold the same from a tick on. -/
def SameFrom (now : Nat) (b b' : UInt32 × UInt8 → Bucket) : Prop :=
  ∀ k, (b k).SameFrom kTokenBucketMax now (b' k)

variable {b b' : UInt32 × UInt8 → Bucket}

theorem SameFrom.later {now later : Nat} (h : SameFrom now b b') (hle : now≤later) :
    SameFrom later b b' :=
  fun k t ht => h k t (hle.trans ht)

theorem SameFrom.trans {now : Nat} {b'' : UInt32 × UInt8 → Bucket} (h : SameFrom now b b')
    (h' : SameFrom now b' b'') : SameFrom now b b'' :=
  fun k t ht => (h k t ht).trans (h' k t ht)

theorem SameFrom.serve {r : Request (UInt32 × UInt8)} (h : SameFrom r.now b b') :
    SameFrom r.now (Bucket.serve kTokenBucketMax b r) (Bucket.serve kTokenBucketMax b' r) := by
  intro k
  unfold Bucket.serve
  by_cases hk : k=r.key
  · rw [hk,Function.update_self,Function.update_self,(h r.key).charge]
    exact fun _ _ => rfl
  · rw [Function.update_of_ne hk,Function.update_of_ne hk]
    exact h k

section Run

variable {servedBuddyLimit : Nat} {s : PacketTracking} {p : Packet}

/-- The buckets after a packet. -/
def pay (b : UInt32 × UInt8 → Bucket) (r : Option (Request (UInt32 × UInt8))) :
    UInt32 × UInt8 → Bucket :=
  match r with
  | none => b
  | some r => Bucket.serve kTokenBucketMax b r

/-- The state after a packet. -/
def step (servedBuddyLimit : Nat) (s : PacketTracking) (p : Packet) : PacketTracking :=
  (inTrackListIsAllowedPacket servedBuddyLimit s p).2

variable {ps : List Packet}

end Run

end PacketTracking

end EmuleQt.Kademlia
