import EmuleQt.Framework.Run
import EmuleQt.Net.Packet
import Mathlib.Algebra.BigOperators.Group.List.Basic

namespace EmuleQt.Net

open Framework

inductive EMSState
  | Disconnected | NotConnected | Connected
  deriving DecidableEq

def INT32_MAX : Nat := 2 ^ 31 - 1

def kMaxControlPackets : Nat := 1024
def kMaxControlBytes : Nat := 8 * 1024 * 1024
def kMaxStandardPackets : Nat := 2048
def kMaxStandardBytes : Nat := 16 * 1024 * 1024

/-- A packet to be sent: the size of its payload, and the `getRealPacketSize` bytes that
`detachPacket` hands out. -/
structure OutPacket where
  size : Nat
  bytes : List UInt8
  isFromPF : Bool
  fits : bytes.length<2^32

/-- A `RawPacket`. -/
def OutPacket.ofRaw (data : List UInt8) (isFromPF : Bool) (h : data.length<2^32) : OutPacket :=
  ⟨data.length,data,isFromPF,h⟩

structure SocketSentBytes where
  sentBytesStandardPackets : Nat
  sentBytesControlPackets : Nat
  success : Bool
  deriving DecidableEq

/-- What became of a write of `toSend` bytes: on the throttler's thread over a transport or past
Qt's buffer, and on the thread of the owner through it. -/
inductive WriteResult (toSend : Nat)
  | transport (result : Int) (h : result ≤ toSend)
  /-- There is no descriptor. -/
  | closed
  /-- Bytes of the owner still wait in Qt's buffer. -/
  | backlog
  | native (result : Int) (wouldBlock : Bool) (h : result ≤ toSend)
  | owner (result : Int) (h : result ≤ toSend)

inductive Written
  | bytes (n : Nat)
  | blocked
  | failed
  deriving DecidableEq

namespace WriteResult

def written {toSend : Nat} : WriteResult toSend → Written
  | transport result _ =>
    if result = 0 then .blocked else if result < 0 then .failed else .bytes result.toNat
  | closed => .blocked
  | backlog => .blocked
  | native result wouldBlock _ =>
    if result ≤ 0 then if wouldBlock then .blocked else .failed else .bytes result.toNat
  | owner result _ => if result ≤ 0 then .blocked else .bytes result.toNat

theorem written_bytes {toSend n : Nat} {r : WriteResult toSend} (h : r.written = .bytes n) :
    0<n ∧ n≤toSend := by
  cases r with
  | transport result hle =>
    simp only [written] at h
    split_ifs at h with hzero hneg
    obtain rfl := Written.bytes.inj h
    omega
  | closed => cases h
  | backlog => cases h
  | native result wouldBlock hle =>
    simp only [written] at h
    split_ifs at h with hneg
    obtain rfl := Written.bytes.inj h
    omega
  | owner result hle =>
    simp only [written] at h
    split_ifs at h with hneg
    obtain rfl := Written.bytes.inj h
    omega

end WriteResult

/-- What the socket stands on: the encryption layer in a state `γ`, the clock and the writes of a
world `ω`. -/
structure Ground (γ ω : Type) where
  isEncryptionLayerReady : γ → Bool
  cryptPrepareSendData : γ → List UInt8 → γ × List UInt8
  crypt_length : ∀ layer data, (cryptPrepareSendData layer data).2.length = data.length
  /-- The bytes of a delayed answer of the handshake that it writes. -/
  flushPendingNegotiationData : γ → ω → γ × List UInt8 × ω
  getTickCount : ω → Nat
  write : (toSend : Nat) → ω → WriteResult toSend × ω

/-- A packet that was taken from its queue, what was written of the handshake before it, and its
bytes as they are sent. -/
structure Taken where
  control : Bool
  packet : OutPacket
  negotiation : List UInt8
  image : List UInt8

/-- What has happened on a socket. -/
structure SendHistory where
  wire : List UInt8
  taken : List Taken
  acceptedControl : List OutPacket
  acceptedStandard : List OutPacket
  reports : List SocketSentBytes

/-- The sending side of an `EMSocket`. -/
structure SendSide (γ : Type) where
  conState : EMSState
  layer : γ
  /-- `m_sendBuffer`, `m_sendBufferLen` bytes. -/
  sendBuffer : Option (List UInt8)
  sent : Nat
  controlQueue : List OutPacket
  /-- The packets with their `actualPayloadSize`. -/
  standardQueue : List (OutPacket × Nat)
  controlQueueBytes : Nat
  standardQueueBytes : Nat
  queueOverflow : Bool
  currentPacketIsControl : Bool
  currentPackageIsFromPartFile : Bool
  accelerateUpload : Bool
  actualPayloadSize : Nat
  actualPayloadSizeSent : Nat
  sentBytesCompleteFile : Nat
  sentBytesPartFile : Nat
  sentBytesControlPacket : Nat
  lastCalledSend : Nat
  lastSent : Nat
  lastFinishedStandard : Nat
  history : SendHistory

variable {γ ω : Type}

namespace SendSide

/-- A socket that has just been made. -/
def fresh (layer : γ) : SendSide γ where
  conState := .NotConnected
  layer := layer
  sendBuffer := none
  sent := 0
  controlQueue := []
  standardQueue := []
  controlQueueBytes := 0
  standardQueueBytes := 0
  queueOverflow := false
  currentPacketIsControl := false
  currentPackageIsFromPartFile := false
  accelerateUpload := false
  actualPayloadSize := 0
  actualPayloadSizeSent := 0
  sentBytesCompleteFile := 0
  sentBytesPartFile := 0
  sentBytesControlPacket := 0
  lastCalledSend := 0
  lastSent := 0
  lastFinishedStandard := 0
  history := ⟨[], [], [], [], []⟩

def sendBufferLen (s : SendSide γ) : Nat := (s.sendBuffer.getD []).length

/-- An empty queue takes anything. -/
def fits (pktSize packets bytes maxPackets maxBytes : Nat) : Bool :=
  decide (packets = 0 ∨ packets < maxPackets ∧ bytes + pktSize ≤ maxBytes)

def pushControl (packet : OutPacket) (s : SendSide γ) : SendSide γ :=
  { s with
    controlQueue := s.controlQueue++[packet]
    controlQueueBytes := s.controlQueueBytes+packet.size
    history := { s.history with acceptedControl := s.history.acceptedControl++[packet] } }

/-- `now` is the time if the packet is the first in line. -/
def pushStandard (now : Nat) (packet : OutPacket) (actualPayloadSize : Nat) (s : SendSide γ) :
    SendSide γ :=
  let first := (s.sendBuffer.isNone || s.currentPacketIsControl) && s.standardQueue.isEmpty
  { s with
    standardQueue := s.standardQueue++[(packet, actualPayloadSize)]
    standardQueueBytes := s.standardQueueBytes+packet.size
    lastFinishedStandard := if first then now else s.lastFinishedStandard
    accelerateUpload := if first then true else s.accelerateUpload
    history := { s.history with acceptedStandard := s.history.acceptedStandard++[packet] } }

/-- The locked part of `sendPacket`; whether the packet was queued. The socket that overflows is
closed from the event loop. -/
def enqueue (packet : OutPacket) (controlPacket : Bool) (actualPayloadSize now : Nat)
    (s : SendSide γ) : SendSide γ × Bool :=
  if s.conState = .Disconnected then (s, false)
  else if s.queueOverflow then (s, false)
  else if controlPacket then
    if fits packet.size s.controlQueue.length s.controlQueueBytes kMaxControlPackets
        kMaxControlBytes then (s.pushControl packet, true)
    else ({ s with queueOverflow := true }, false)
  else if fits packet.size s.standardQueue.length s.standardQueueBytes kMaxStandardPackets
      kMaxStandardBytes then (s.pushStandard now packet actualPayloadSize, true)
  else ({ s with queueOverflow := true }, false)

def truncateQueues (s : SendSide γ) : SendSide γ :=
  { s with standardQueue := [], standardQueueBytes := 0 }

end SendSide

def getNextFragSize (current minFragSize : Nat) : Nat :=
  min INT32_MAX ((current + minFragSize - 1) % 2 ^ 32) / minFragSize * minFragSize

/-- What a call of `send` has worked out before its loop. -/
structure Call where
  maxNumberOfBytesToSend : Nat
  minFragSize : Nat
  onlyControlPackets : Bool
  wasLongTimeSinceSend : Bool

/-- Where a call of `send` stands: at the head of the outer loop, or at that of the inner one. -/
inductive Place
  | outer
  | inner (drainForControl : Bool)
  deriving DecidableEq

structure Sending (γ ω : Type) where
  socket : SendSide γ
  world : ω
  sentBytes : Nat
  ret : SocketSentBytes
  place : Place

namespace Call

variable (c : Call) (x : Sending γ ω) (s : SendSide γ)

/-- A standard packet that blocks waiting control packets. -/
def blocksControl : Bool :=
  s.sendBuffer.isSome && !s.currentPacketIsControl && !s.controlQueue.isEmpty

/-- The condition of the outer loop. -/
def goesOn : Bool :=
  decide (x.sentBytes<c.maxNumberOfBytesToSend) && x.ret.success &&
    (x.socket.sendBuffer.isSome || !x.socket.controlQueue.isEmpty ||
      (!x.socket.standardQueue.isEmpty && !c.onlyControlPackets)) &&
    (!c.onlyControlPackets ||
      (x.socket.sendBuffer.isSome && x.socket.currentPacketIsControl) ||
      decide (0<x.sentBytes ∧ x.sentBytes%c.minFragSize≠0) ||
      (x.socket.sendBuffer.isNone && !x.socket.controlQueue.isEmpty) ||
      blocksControl x.socket)

/-- The condition of the inner loop. -/
def sendsOn (drainForControl : Bool) : Bool :=
  decide (x.socket.sent<x.socket.sendBufferLen) &&
    decide (x.sentBytes<c.maxNumberOfBytesToSend) &&
    (!c.onlyControlPackets || x.socket.currentPacketIsControl || drainForControl ||
      (c.wasLongTimeSinceSend && decide (x.sentBytes<c.minFragSize)) ||
      decide (x.sentBytes%c.minFragSize≠0)) &&
    x.ret.success

def toSend (drainForControl : Bool) : Nat :=
  let left := x.socket.sendBufferLen - x.socket.sent
  if c.onlyControlPackets = false ∨ x.socket.currentPacketIsControl = true then
    min left (c.maxNumberOfBytesToSend - x.sentBytes)
  else if drainForControl then min left (c.maxNumberOfBytesToSend - x.sentBytes)
  else if c.wasLongTimeSinceSend = true ∧ x.sentBytes < c.minFragSize then
    min left (c.minFragSize - x.sentBytes)
  else
    let nextFrag := getNextFragSize x.sentBytes c.minFragSize
    if x.sentBytes ≤ nextFrag then min left (nextFrag - x.sentBytes) else left

end Call

namespace Sending

variable (g : Ground γ ω) (c : Call) (x : Sending γ ω)

/-- A packet from its queue becomes the one under way, encrypted. -/
def take (control : Bool) (packet : OutPacket) (s : SendSide γ) : Sending γ ω :=
  let encrypted := g.cryptPrepareSendData s.layer packet.bytes
  let flushed := g.flushPendingNegotiationData encrypted.1 x.world
  { x with
    socket := { s with
      layer := flushed.1
      sendBuffer := some encrypted.2
      sent := 0
      history := { s.history with
        wire := s.history.wire ++ flushed.2.1
        taken := s.history.taken ++ [⟨control, packet, flushed.2.1, encrypted.2⟩] } }
    world := flushed.2.2 }

/-- The next packet to send: control packets first. None is left where `send` returns. -/
def nextPacket : Option (Sending γ ω) :=
  match x.socket.controlQueue with
  | packet::queue =>
    some (x.take g true packet { x.socket with
      currentPacketIsControl := true
      controlQueue := queue
      controlQueueBytes :=
        x.socket.controlQueueBytes-min x.socket.controlQueueBytes packet.size })
  | [] =>
    match x.socket.standardQueue with
    | [] => none
    | (packet, actualPayloadSize)::queue =>
      some (x.take g false packet { x.socket with
        currentPacketIsControl := false
        actualPayloadSize := actualPayloadSize
        currentPackageIsFromPartFile := packet.isFromPF
        standardQueue := queue
        standardQueueBytes :=
          x.socket.standardQueueBytes-min x.socket.standardQueueBytes packet.size })

/-- `n` bytes of the packet under way have been written. -/
def wrote (n : Nat) : Sending γ ω :=
  let s := x.socket
  let control := s.currentPacketIsControl
  let partFile := !control && s.currentPackageIsFromPartFile
  let completeFile := !control && !s.currentPackageIsFromPartFile
  { x with
    socket := { s with
      sent := (s.sent + n) % 2 ^ 32
      sentBytesControlPacket := s.sentBytesControlPacket + if control then n else 0
      sentBytesPartFile := s.sentBytesPartFile + if partFile then n else 0
      sentBytesCompleteFile := s.sentBytesCompleteFile + if completeFile then n else 0
      history := { s.history with
        wire := s.history.wire ++ (((s.sendBuffer.getD []).drop s.sent).take n) } }
    sentBytes := (x.sentBytes + n) % 2 ^ 32
    ret := { x.ret with
      sentBytesControlPackets :=
        if control then (x.ret.sentBytesControlPackets + n) % 2 ^ 32
        else x.ret.sentBytesControlPackets
      sentBytesStandardPackets :=
        if control then x.ret.sentBytesStandardPackets
        else (x.ret.sentBytesStandardPackets + n) % 2 ^ 32 } }

/-- A packet that is sent whole is let go. -/
def finish (now : Nat) (s : SendSide γ) : SendSide γ :=
  if s.sent = s.sendBufferLen then
    if s.currentPacketIsControl then { s with sendBuffer := none, sent := 0 }
    else
      { s with
        sendBuffer := none
        sent := 0
        actualPayloadSizeSent := s.actualPayloadSizeSent + s.actualPayloadSize
        actualPayloadSize := 0
        lastFinishedStandard := now
        accelerateUpload := false }
  else s

/-- The call returns; the report is kept. -/
def returned (ret : SocketSentBytes) : SocketSentBytes × SendSide γ × ω :=
  (ret, { x.socket with history :=
    { x.socket.history with reports := x.socket.history.reports ++ [ret] } }, x.world)

/-- One pass of the loops of `send`. -/
def pass : Sending γ ω ⊕ (SocketSentBytes × SendSide γ × ω) :=
  match x.place with
  | .outer =>
    if c.goesOn x then
      match x.socket.sendBuffer with
      | some _ =>
        .inl { x with place := .inner (c.onlyControlPackets && Call.blocksControl x.socket) }
      | none =>
        match x.nextPacket g with
        | none => .inr (x.returned x.ret)
        | some x =>
          .inl { x with place := .inner (c.onlyControlPackets && Call.blocksControl x.socket) }
    else .inr (x.returned x.ret)
  | .inner drainForControl =>
    if c.sendsOn x drainForControl then
      let write := g.write (c.toSend x drainForControl) x.world
      let x := { x with
        socket := { x.socket with lastSent := g.getTickCount x.world }
        world := write.2 }
      match write.1.written with
      | .bytes n => .inl (x.wrote n)
      | .blocked => .inr (x.returned x.ret)
      | .failed => .inr (x.returned { x.ret with success := false })
    else
      .inl { x with socket := finish (g.getTickCount x.world) x.socket, place := .outer }

end Sending

/-- `SendSide.Sends g max min only s w r`: a call of `send` with these arguments ends with `r`. -/
def Sends (g : Ground γ ω) (maxNumberOfBytesToSend minFragSize : UInt32)
    (onlyControlPackets : Bool) (s : SendSide γ) (w : ω)
    (r : SocketSentBytes × SendSide γ × ω) : Prop :=
  if s.conState = .Connected ∧ g.isEncryptionLayerReady s.layer = true then
    let minFragSize := max 1 minFragSize.toNat
    let calledSend := g.getTickCount w
    let c : Call := ⟨getNextFragSize maxNumberOfBytesToSend.toNat minFragSize, minFragSize,
      onlyControlPackets, decide (s.lastSent + 1000 ≤ calledSend)⟩
    Returns (Sending.pass g c)
      ⟨{ s with lastCalledSend := calledSend }, w, 0, ⟨0, 0, true⟩, .outer⟩ r
  else r = (⟨0, 0, true⟩, s, w)

/-- What happens to a socket; each is done under its lock. What `sendPacket` and the end of a
handshake leave to a timer are further calls of `sendControlData`. -/
inductive SendEvent (γ ω : Type)
  | sendPacket (packet : OutPacket) (controlPacket : Bool) (actualPayloadSize : Nat)
      (forceImmediateSend : Bool)
  | sendControlData (maxNumberOfBytesToSend minFragSize : UInt32)
  | sendFileAndControlData (maxNumberOfBytesToSend minFragSize : UInt32)
  | truncateQueues
  /-- The connection, the layer and the world have gone on without the socket. -/
  | outside (conState : EMSState) (layer : γ) (world : ω)

/-- `SendEvent.Step g x e y`: the event `e` leads from `x` to `y`. -/
def SendEvent.Step (g : Ground γ ω) (x : SendSide γ × ω) (e : SendEvent γ ω)
    (y : SendSide γ × ω) : Prop :=
  match e with
  | sendPacket packet controlPacket actualPayloadSize forceImmediateSend =>
    let r := x.1.enqueue packet controlPacket actualPayloadSize (g.getTickCount x.2)
    if r.2 = true ∧ forceImmediateSend = true then ∃ ret, Sends g 1024 0 true r.1 x.2 (ret, y)
    else y = (r.1, x.2)
  | sendControlData maxNumberOfBytesToSend minFragSize =>
    ∃ ret, Sends g maxNumberOfBytesToSend minFragSize true x.1 x.2 (ret, y)
  | sendFileAndControlData maxNumberOfBytesToSend minFragSize =>
    ∃ ret, Sends g maxNumberOfBytesToSend minFragSize false x.1 x.2 (ret, y)
  | truncateQueues => y = (x.1.truncateQueues, x.2)
  | outside conState layer world => y = ({ x.1 with conState := conState, layer := layer }, world)

/-- The events, oldest first, lead from `x` to `y`. -/
def Leads (g : Ground γ ω) : (x : SendSide γ × ω) → List (SendEvent γ ω) → SendSide γ × ω → Prop
  | x, [], y => x = y
  | x, e :: events, y => ∃ z, SendEvent.Step g x e z ∧ Leads g z events y

end EmuleQt.Net
