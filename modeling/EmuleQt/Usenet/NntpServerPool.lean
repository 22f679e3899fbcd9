import EmuleQt.Usenet.NewsServer

namespace EmuleQt.Usenet

open Framework Utils

inductive SocketState
  | disconnected
  | connecting
  | greeting
  | startTlsSent
  | modeReaderSent
  | authUserSent
  | authPassSent
  | ready
  | commandStatus
  | commandBody
  | quitSent
  deriving DecidableEq, Repr

/-- `failed` is set once the connection has told its owner why it died. -/
structure NntpSocket where
  server : NewsServer
  state : SocketState
  failed : Bool
  bytesRead : Nat

namespace NntpSocket

def isReady (s : NntpSocket) : Bool := decide (s.state = .ready)

def acceptsCommands (s : NntpSocket) : Bool :=
  decide (s.state = .ready ∨ s.state = .commandStatus ∨ s.state = .commandBody)

/-- Without callbacks: the owner is tearing this connection down on purpose. -/
def abort (s : NntpSocket) : NntpSocket := { s with state := .disconnected }

/-- The part of `fail` that comes before `failed` is emitted. -/
def fail (s : NntpSocket) : NntpSocket := { s with state := .disconnected, failed := true }

def moveTo (state : SocketState) (s : NntpSocket) : NntpSocket :=
  if s.state = .disconnected then s else { s with state := state }

def connectToServer (server : NewsServer) (fails : Bool) : NntpSocket :=
  let s : NntpSocket := ⟨server, .greeting, false, 0⟩
  if fails then s.fail else s

end NntpSocket

/-- The address of a socket. -/
abbrev SocketId := Nat

structure Lease where
  socket : SocketId
  serverKey : QString
  bucket : QString
  level : Int
  inUse : Bool
  retireOnRelease : Bool
  deriving DecidableEq

structure Cap where
  limit : Int
  untilMs : Int

/-- The sockets are found by address; `nextSocket` is the next one to be made. -/
structure NntpServerPool where
  servers : List NewsServer
  normalizedLevel : List (QString × Int)
  buckets : List (QString × NntpConnectionBucket)
  blockedUntil : List (QString × Int)
  caps : List (QString × Cap)
  connections : List Lease
  rotation : List (Int × Nat)
  retryIntervalSec : Int
  sockets : SocketId → NntpSocket
  nextSocket : SocketId

def noServer : NewsServer :=
  ⟨[],563,.implicit,[],[],0,0,[],40,.strict,true⟩

namespace NntpServerPool

def empty : NntpServerPool :=
  ⟨[], [], [], [], [], [], [], 60, fun _ => ⟨noServer, .disconnected, false, 0⟩, 0⟩

/-- How fast a cap grows once its hold is over, in milliseconds. -/
def capProbeStepMs : Int := 5000

def lease? (p : NntpServerPool) (k : SocketId) : Option Lease :=
  p.connections.find? fun l => decide (l.socket=k)

def mapSocket (p : NntpServerPool) (k : SocketId) (f : NntpSocket → NntpSocket) :
    NntpServerPool := { p with sockets := Function.update p.sockets k (f (p.sockets k)) }

/-- Aborts the sockets and hands them to the event loop to destroy. -/
def retire (p : NntpServerPool) (ks : List SocketId) : NntpServerPool :=
  { p with sockets := fun k => if k ∈ ks then (p.sockets k).abort else p.sockets k }

def levelOf (p : NntpServerPool) (key : QString) : Int :=
  (hashValue? key p.normalizedLevel).getD (-1)

def isServerBlocked (p : NntpServerPool) (now : Int) (key : QString) : Bool :=
  match hashValue? key p.blockedUntil with
  | none => false
  | some t => decide (t > now / 1000)

/-- Whether a pooled connection of the server has to go. -/
def dropped (key : QString) (l : Lease) : Bool := decide (l.serverKey = key) && !l.inUse

def dropConnections (p : NntpServerPool) (key : QString) : NntpServerPool :=
  let gone := (p.connections.filter (dropped key)).map Lease.socket
  { p.retire gone with
    connections := (p.connections.filter fun l => !dropped key l).map fun l =>
      if l.serverKey = key then { l with retireOnRelease := true } else l }

/-- Whether the new list leaves the old account without its connections. -/
def reconfigured (incoming : List NewsServer) (old : NewsServer) : Bool :=
  match (incoming.filter fun s => decide (s.key = old.key)).getLast? with
  | none => true
  | some s => decide (s.pass ≠ old.pass ∨ s.user ≠ old.user ∨ s.tlsMode ≠ old.tlsMode ∨
      s.certVerification ≠ old.certVerification ∨ s.enabled = false)

def rebuildServerIndex (p : NntpServerPool) : NntpServerPool :=
  let ladder := nntpLevelLadder p.servers
  { p with
    rotation := []
    buckets := nntpConnectionBuckets p.servers
    normalizedLevel := (p.servers.filter NewsServer.usable).foldl
      (fun (h : List (QString × Int)) s => hashInsert s.key (ladder.idxOf s.level : Int) h) [] }

def setServers (p : NntpServerPool) (servers : List NewsServer) : NntpServerPool :=
  let p := (p.servers.filter (reconfigured servers)).foldl (fun p old => p.dropConnections old.key) p
  ({ p with servers := servers, caps := [] } : NntpServerPool).rebuildServerIndex

def dropClosedIdle (p : NntpServerPool) : NntpServerPool :=
  let dead := fun l : Lease => !l.inUse && !(p.sockets l.socket).isReady
  { p.retire ((p.connections.filter dead).map Lease.socket) with
    connections := p.connections.filter fun l => !dead l }

def connectionsInBucket (p : NntpServerPool) (bucket : QString) : Nat :=
  p.connections.countP fun l => decide (l.bucket = bucket)

def effectiveLimit (p : NntpServerPool) (now : Int) (bucket : NntpConnectionBucket) : Int :=
  match hashValue? bucket.id p.caps with
  | none => bucket.limit
  | some cap => if cap.untilMs ≤ now then bucket.limit else min bucket.limit cap.limit

def candidates (p : NntpServerPool) (now level : Int) (ignoreServers : List QString) :
    List NewsServer :=
  p.servers.filter fun s => s.usable && decide (p.levelOf s.key = level) &&
    !ignoreServers.contains s.key && !p.isServerBlocked now s.key

/-- An idle connection of the server that can take a command at once. -/
def idleLease? (p : NntpServerPool) (key : QString) : Option Lease :=
  p.connections.find? fun l =>
    !l.inUse && decide (l.serverKey=key) && (p.sockets l.socket).isReady

def reuse (p : NntpServerPool) (k : SocketId) : NntpServerPool :=
  { p with connections := p.connections.map fun l =>
      if l.socket = k then { l with inUse := true } else l }

def openNew (p : NntpServerPool) (server : NewsServer) (bucket : QString) (level : Int)
    (fails : Bool) : NntpServerPool :=
  { p with
    connections := p.connections++[⟨p.nextSocket,server.key,bucket,level,true,false⟩]
    sockets := Function.update p.sockets p.nextSocket (NntpSocket.connectToServer server fails)
    nextSocket := p.nextSocket+1 }

/-- The loop of `acquire` over the candidates that are left, first to try first; `fails` is
what becomes of a connection that has to be opened. -/
def acquireFrom (p : NntpServerPool) (now level : Int) (fails : Bool) (candidates : List NewsServer)
    (start : Nat) : List Nat → NntpServerPool × Option SocketId
  | [] => (p, none)
  | i::is =>
    let n := candidates.length
    let server := (candidates[(start+i)%n]?).getD noServer
    let rotation := hashInsert level ((start+i+1)%n) p.rotation
    match p.idleLease? server.key with
    | some l => ({ p.reuse l.socket with rotation := rotation }, some l.socket)
    | none =>
      let bucket := (hashValue? server.key p.buckets).getD ⟨[],0⟩
      let limit := p.effectiveLimit now bucket
      if limit≤0 ∨ (p.connectionsInBucket bucket.id : Int)≥limit then
        acquireFrom p now level fails candidates start is
      else ({ p.openNew server bucket.id level fails with rotation := rotation },
        some p.nextSocket)

def acquire (p : NntpServerPool) (now level : Int) (ignoreServers : List QString) (fails : Bool) :
    NntpServerPool × Option SocketId :=
  let p := p.dropClosedIdle
  let candidates := p.candidates now level ignoreServers
  if candidates = [] then (p, none)
  else p.acquireFrom now level fails candidates
    ((hashValue? level p.rotation).getD 0 % candidates.length) (List.range candidates.length)

def release (p : NntpServerPool) (k : SocketId) (reusable : Bool) : NntpServerPool :=
  match p.lease? k with
  | none => p
  | some l =>
    if reusable && (p.sockets k).isReady && !l.retireOnRelease then
      { p with connections := p.connections.map fun l =>
          if l.socket = k then { l with inUse := false } else l }
    else { p.retire [k] with connections := p.connections.filter fun l => decide (l.socket ≠ k) }

def canPipeline (p : NntpServerPool) (now : Int) (k : SocketId) (level : Int)
    (ignoreServers : List QString) : Bool :=
  match p.lease? k with
  | none => false
  | some l => l.inUse && !l.retireOnRelease && decide (p.levelOf l.serverKey = level) &&
      !ignoreServers.contains l.serverKey && !p.isServerBlocked now l.serverKey

def blockServer (p : NntpServerPool) (now : Int) (key : QString) : NntpServerPool :=
  if p.retryIntervalSec ≤ 0 then p
  else ({ p with blockedUntil := hashInsert key (now / 1000 + p.retryIntervalSec) p.blockedUntil } :
    NntpServerPool).dropConnections key

def limitConnections (p : NntpServerPool) (now : Int) (key : QString) : NntpServerPool :=
  if p.retryIntervalSec ≤ 0 then p
  else
    match hashValue? key p.buckets with
    | none => p
    | some bucket =>
      let limit := min (p.connectionsInBucket bucket.id : Int) bucket.limit
      let limit :=
        match hashValue? bucket.id p.caps with
        | none => limit
        | some cap => if cap.untilMs > now then min limit cap.limit else limit
      { p with caps := hashInsert bucket.id ⟨limit, now + p.retryIntervalSec * 1000⟩ p.caps }

def onCapTimer (p : NntpServerPool) (now : Int) : NntpServerPool :=
  { p with caps := p.caps.filterMap fun (id, cap) =>
      if cap.untilMs > now then some (id, cap)
      else
        let configured := p.buckets.foldl
          (fun (n : Int) b => if b.2.id = id then max n b.2.limit else n) 0
        if cap.limit + 1 ≥ configured then none
        else some (id, ⟨cap.limit + 1, now + capProbeStepMs⟩) }

end NntpServerPool

end EmuleQt.Usenet
