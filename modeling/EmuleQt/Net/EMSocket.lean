import EmuleQt.Framework.Run
import EmuleQt.Net.Packet

namespace EmuleQt.Net

open Framework

/-- What `packetReceived` answers. A socket says no only after it has failed the connection. -/
inductive Reply
  | accepted
  | refused
  | threw
  deriving DecidableEq

/-- The layer below the framing: it yields the same bytes however its input is cut. -/
structure CryptLayer (γ : Type) where
  processReceivedData : γ → List UInt8 → γ × List UInt8
  nil : ∀ g, processReceivedData g [] = (g, [])
  append : ∀ g xs ys, processReceivedData g (xs ++ ys) =
    ((processReceivedData (processReceivedData g xs).1 ys).1,
      (processReceivedData g xs).2 ++ (processReceivedData (processReceivedData g xs).1 ys).2)

/-- Neither encrypted nor negotiating. -/
def CryptLayer.none : CryptLayer Unit where
  processReceivedData _ bytes := ((), bytes)
  nil _ := rfl
  append _ _ _ := rfl

/-- A packet whose payload is not complete. -/
structure PendingPacket where
  prot : UInt8
  opcode : UInt8
  size : Nat
  received : List UInt8
  short : received.length<size

/-- What the parse loop changes: the packet under way, the state of whoever is called, the calls
made, and whether the connection has ended. -/
structure Framing (σ : Type) where
  pendingPacket : Option PendingPacket
  client : σ
  dispatched : List Packet
  reports : List SocketError
  disconnected : Bool

variable {γ σ : Type}

namespace Framing

/-- `onError` of the subclasses, which close the connection. -/
def onError (f : Framing σ) (e : SocketError) : Framing σ :=
  { f with reports := f.reports ++ [e], disconnected := true }

variable (packetReceived : σ → Packet → σ × Reply)

/-- The packet is handed over; it is no longer pending when that happens. -/
def dispatch (f : Framing σ) (p : Packet) : Framing σ × Reply :=
  let (client, reply) := packetReceived f.client p
  let f := { f with pendingPacket := none, client, dispatched := f.dispatched ++ [p] }
  match reply with
  | .accepted => (f, .accepted)
  | .refused => ({ f with disconnected := true }, .refused)
  | .threw => (f.onError .wrongHeader, .threw)

/-- The rest of a packet is taken from the buffer; what is left of it, unless the pass ends. -/
def fill (f : Framing σ) (prot opcode : UInt8) (size : Nat) (received data : List UInt8) :
    Framing σ × Option (List UInt8) :=
  let toCopy := min (size - received.length) data.length
  let received := received ++ data.take toCopy
  if short : received.length < size then
    ({ f with pendingPacket := some ⟨prot, opcode, size, received, short⟩ },
      some (data.drop toCopy))
  else
    let (f, reply) := f.dispatch packetReceived ⟨prot, opcode, received⟩
    (f, if reply = .accepted then some (data.drop toCopy) else none)

def hasMore (f : Framing σ) (data : List UInt8) : Bool :=
  decide (kPacketHeaderSize ≤ data.length) || f.pendingPacket.isSome && decide (data ≠ [])

/-- One round of the parse loop. -/
def round (f : Framing σ) (data : List UInt8) : Framing σ × Option (List UInt8) :=
  match f.pendingPacket with
  | none =>
    match Header.check data with
    | some e => (f.onError e, none)
    | none =>
      f.fill packetReceived (Header.eDonkeyID data) (Header.command data) (Header.size data) []
        (data.drop kPacketHeaderSize)
  | some p => f.fill packetReceived p.prot p.opcode p.size p.received data

/-- The parse loop, at most `n` rounds. -/
def parsePackets : (n : Nat) → Framing σ → List UInt8 → Framing σ × Option (List UInt8)
  | 0, f, data => (f, some data)
  | n+1, f, data =>
    if f.hasMore data then
      let r := f.round packetReceived data
      match r.2 with
      | some rest => parsePackets n r.1 rest
      | none => (r.1, none)
    else (f, some data)

end Framing

/-- `available` is what the operating system has for us, `taken` what was read of it so far. -/
structure EMSocket (γ σ : Type) where
  framing : Framing σ
  crypt : γ
  pendingHeader : List UInt8
  downloadLimitEnable : Bool
  downloadLimit : UInt32
  pendingOnReceive : Bool
  fullReceive : Bool
  readRearmScheduled : Bool
  available : List UInt8
  taken : List UInt8

namespace EMSocket

def create (crypt : γ) (client : σ) : EMSocket γ σ :=
  ⟨⟨none, client, [], [], false⟩, crypt, [], false, 0, false, true, false, [], []⟩

def disconnected (s : EMSocket γ σ) : Bool := s.framing.disconnected

def scheduleReadRearm (s : EMSocket γ σ) : EMSocket γ σ :=
  if s.readRearmScheduled || s.disconnected || decide (s.available = []) then s
  else { s with readRearmScheduled := true }

variable (layer : CryptLayer γ) (packetReceived : σ → Packet → σ × Reply)

/-- The bytes of a read, out of the crypt layer, go through the parse loop. -/
def processRead (s : EMSocket γ σ) (bytes : List UInt8) : EMSocket γ σ :=
  let (crypt, data) := layer.processReceivedData s.crypt bytes
  let downloadLimit :=
    if s.downloadLimitEnable then s.downloadLimit-UInt32.ofNat bytes.length
    else s.downloadLimit
  let s := { s with crypt, downloadLimit, pendingOnReceive := s.fullReceive }
  if data=[] then s.scheduleReadRearm
  else
    let data := s.pendingHeader++data
    match s.framing.parsePackets packetReceived data.length data with
    | (framing, none) => { s with framing, pendingHeader := [] }
    | (framing, some rest) => scheduleReadRearm { s with framing, pendingHeader := rest }

def readIncoming (s : EMSocket γ σ) (peerShutdown : Bool) : EMSocket γ σ :=
  if s.disconnected then s
  else if s.downloadLimitEnable ∧ s.downloadLimit = 0 ∧ peerShutdown = false then
    { s with pendingOnReceive := true }
  else
    let readMax := kMaxReadBuffer - s.pendingHeader.length
    let readMax :=
      if s.downloadLimitEnable ∧ s.downloadLimit.toNat < readMax ∧ peerShutdown = false then
        s.downloadLimit.toNat
      else readMax
    if s.available = [] then s
    else
      let toRead := min readMax s.available.length
      processRead layer packetReceived
        { s with
          available := s.available.drop toRead
          taken := s.taken ++ s.available.take toRead
          fullReceive := decide (toRead = readMax) }
        (s.available.take toRead)

def onReadyRead (s : EMSocket γ σ) : EMSocket γ σ := s.readIncoming layer packetReceived false

/-- The loop of `onSocketError` when the peer has closed: until nothing is left, or a pass takes
nothing. -/
def drain : (n : Nat) → EMSocket γ σ → EMSocket γ σ
  | 0, s => s
  | n + 1, s =>
    if s.available = [] ∨ s.disconnected then s
    else
      let s' := s.readIncoming layer packetReceived true
      if s.available.length ≤ s'.available.length then s' else drain n s'

inductive Op
  | readyRead (bytes : List UInt8)
  | readRearm
  | setDownloadLimit (limit : UInt32)
  | disableDownloadLimit
  | clearDownloadLimit
  | remoteHostClosed

def step (s : EMSocket γ σ) : Op → EMSocket γ σ
  | .readyRead bytes =>
    onReadyRead layer packetReceived { s with available := s.available ++ bytes }
  | .readRearm =>
    if s.readRearmScheduled then
      onReadyRead layer packetReceived { s with readRearmScheduled := false }
    else s
  | .setDownloadLimit limit =>
    let s := { s with downloadLimit := limit, downloadLimitEnable := true }
    if 0 < limit ∧ s.pendingOnReceive then s.onReadyRead layer packetReceived else s
  | .disableDownloadLimit =>
    let s := { s with downloadLimitEnable := false }
    if s.pendingOnReceive then s.onReadyRead layer packetReceived else s
  | .clearDownloadLimit => { s with downloadLimitEnable := false }
  | .remoteHostClosed =>
    let s := s.drain layer packetReceived s.available.length
    { s with framing := s.framing.onError .socket }

/-- The bytes the peer has sent. -/
def received (ops : List Op) : List UInt8 :=
  ops.flatMap fun
    | .readyRead bytes => bytes
    | _ => []

end EMSocket

end EmuleQt.Net
