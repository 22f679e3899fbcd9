import EmuleQt.Framework.Keyed
import EmuleQt.Utils.QtFormat

namespace EmuleQt.Usenet

open Framework Utils Utils.QString

inductive NntpError
  | none
  | connectFailed
  | tlsFailed
  | timeout
  | disconnected
  | serverUnavailable
  | authFailed
  | articleNotFound
  | groupNotFound
  | articleCorrupt
  | writeFailed
  | protocolError
  | proxyFailed
  | tooManyConnections
  deriving DecidableEq, Repr

def isFatalToConnection : NntpError → Bool
  | .connectFailed | .tlsFailed | .timeout | .disconnected | .serverUnavailable | .authFailed
  | .protocolError | .proxyFailed | .tooManyConnections => true
  | .none | .articleNotFound | .groupNotFound | .articleCorrupt | .writeFailed => false

inductive NntpTlsMode
  | none
  | implicit
  | startTls
  deriving DecidableEq, Repr

inductive NntpCertVerification
  | none
  | minimal
  | strict
  deriving DecidableEq, Repr

structure NewsServer where
  host : QString
  port : UInt16
  tlsMode : NntpTlsMode
  user : QString
  pass : QString
  level : Int
  group : Int
  accountId : QString
  maxConnections : Int
  certVerification : NntpCertVerification
  enabled : Bool
  deriving DecidableEq

def NewsServer.isValid (s : NewsServer) : Bool := decide (s.host ≠ [] ∧ s.port ≠ 0)

def NewsServer.usable (s : NewsServer) : Bool := s.enabled && s.isValid

/-- The identity of the pool and of the list of servers already tried. -/
def NewsServer.key (s : NewsServer) : QString :=
  arg (arg (arg (lit "%1:%2/%3") s.host) (number s.port.toNat)) s.user

def nntpLevelLadder (servers : List NewsServer) : List Int :=
  ((servers.filter NewsServer.usable).map NewsServer.level).dedup.insertionSort (· ≤ ·)

structure NntpConnectionBucket where
  id : QString
  limit : Int
  deriving DecidableEq

section Hash

variable {α κ : Type*} [DecidableEq κ]

/-- `QHash::insert`. -/
def hashInsert (k : κ) (v : α) (h : List (κ × α)) : List (κ × α) :=
  upsert Prod.fst k (fun _ => (k, v)) h

def hashValue? (k : κ) (h : List (κ × α)) : Option α := (lookupKey Prod.fst k h).map Prod.snd

theorem hashValue?_mem {k : κ} {v : α} {h : List (κ × α)} (hv : hashValue? k h=some v) :
    (k, v)∈h := by
  obtain ⟨e,he,rfl⟩ := Option.map_eq_some_iff.mp hv
  obtain ⟨hmem,rfl⟩ := lookupKey_mem he
  exact hmem

theorem mem_hashInsert {k : κ} {v : α} {h : List (κ × α)} {e : κ × α}
    (he : e∈hashInsert k v h) : e=(k, v) ∨ e∈h := mem_upsert he

end Hash

/-- The smallest limit among the members of each group. -/
def groupLimits (servers : List NewsServer) : List (Int × Int) :=
  servers.foldl (fun (limits : List (Int × Int)) s =>
    if s.usable=false ∨ s.group≤0 then limits
    else
      let limit :=
        match hashValue? s.group limits with
        | none => s.maxConnections
        | some l => min l s.maxConnections
      hashInsert s.group limit limits) []

def nntpConnectionBuckets (servers : List NewsServer) : List (QString × NntpConnectionBucket) :=
  servers.foldl (fun (out : List (QString × NntpConnectionBucket)) s =>
    if s.usable = false then out
    else if s.group > 0 then
      hashInsert s.key ⟨lit "g" ++ number s.group.toNat,
        (hashValue? s.group (groupLimits servers)).getD 0⟩ out
    else hashInsert s.key ⟨lit "s:" ++ s.key, s.maxConnections⟩ out) []

end EmuleQt.Usenet
