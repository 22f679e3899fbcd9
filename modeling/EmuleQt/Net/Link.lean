import EmuleQt.Net.PacketFraming
import EmuleQt.Net.SendRuns

namespace EmuleQt.Net

open Framework Packet EMSocket

variable {γ ω σ : Type} {g : Ground γ ω}

/-- A connection that does not encrypt, on which no handshake is ever due. -/
structure Ground.Plain (g : Ground γ ω) : Prop where
  image : ∀ layer data, (g.cryptPrepareSendData layer data).2 = data
  quiet : ∀ layer world, (g.flushPendingNegotiationData layer world).2.1 = []

/-- The packet that the bytes are read back as. -/
def OutPacket.opened (p : OutPacket) : Packet :=
  ⟨Header.eDonkeyID p.bytes, Header.command p.bytes, p.bytes.drop kPacketHeaderSize⟩

/-- The bytes are those of one well-formed packet. -/
def OutPacket.Sound (p : OutPacket) : Prop := p.opened.WellFormed ∧ p.opened.wire = p.bytes

/-- The sending side of a socket, the receiving side of its peer, and how many of the bytes that
were written the network has carried over. -/
structure Link (γ ω σ : Type) where
  sender : SendSide γ × ω
  carried : Nat
  receiver : EMSocket Unit σ

inductive LinkEvent (γ ω : Type)
  | send (e : SendEvent γ ω)
  /-- The network delivers some more bytes, in the order in which they were written. -/
  | carry (n : Nat)
  /-- The receiver goes on by itself; bytes come to it over the network only. -/
  | receive (op : EMSocket.Op)

/-- The packets that are to be sent. -/
def LinkEvent.packets : LinkEvent γ ω → List OutPacket
  | .send (.sendPacket packet ..) => [packet]
  | _ => []

def LinkEvent.Step (g : Ground γ ω) (packetReceived : σ → Packet → σ × Reply) (x : Link γ ω σ)
    (e : LinkEvent γ ω) (y : Link γ ω σ) : Prop :=
  match e with
  | send e => ∃ sender, e.Step g x.sender sender ∧ y = { x with sender }
  | carry n =>
    let bytes := (x.sender.1.history.wire.drop x.carried).take n
    y = { x with
      carried := x.carried + bytes.length
      receiver := x.receiver.step CryptLayer.none packetReceived (.readyRead bytes) }
  | receive op =>
    received [op] = [] ∧
      y = { x with receiver := x.receiver.step CryptLayer.none packetReceived op }

/-- The events, oldest first, lead from `x` to `y`. -/
def Link.Leads (g : Ground γ ω) (packetReceived : σ → Packet → σ × Reply) :
    (x : Link γ ω σ) → List (LinkEvent γ ω) → Link γ ω σ → Prop
  | x, [], y => x = y
  | x, e :: events, y =>
    ∃ z, LinkEvent.Step g packetReceived x e z ∧ Link.Leads g packetReceived z events y

/-- Both ends as they are when the connection is new. -/
def Link.fresh (layer : γ) (world : ω) (client : σ) : Link γ ω σ :=
  ⟨(SendSide.fresh layer, world), 0, create () client⟩

/-- What a call of `send` does to what has happened: bytes are added, and no packet is accepted. -/
structure Onward (h h' : SendHistory) : Prop where
  wire : h.wire <+: h'.wire
  quiet : (∀ t ∈ h.taken, t.negotiation = []) → ∀ t ∈ h'.taken, t.negotiation = []
  control : h'.acceptedControl = h.acceptedControl
  standard : h'.acceptedStandard = h.acceptedStandard

theorem Onward.refl (h : SendHistory) : Onward h h := ⟨List.prefix_rfl,id,rfl,rfl⟩

theorem Onward.trans {h h' h'' : SendHistory} (hfirst : Onward h h') (hnext : Onward h' h'') :
    Onward h h'' :=
  ⟨hfirst.wire.trans hnext.wire,fun hq => hnext.quiet (hfirst.quiet hq),
    hnext.control.trans hfirst.control,hnext.standard.trans hfirst.standard⟩

namespace Sending

variable {c : Call} {x x' : Sending γ ω}

end Sending

namespace Link

variable {packetReceived : σ → Packet → σ × Reply} {c : σ} {x y : Link γ ω σ}

/-- The packets that were taken from their queues, in the order in which they went out. -/
def sent (x : Link γ ω σ) : List Packet := x.sender.1.history.taken.map fun t => t.packet.opened

/-- What holds of a link between two events. -/
structure Linked (g : Ground γ ω) (packetReceived : σ → Packet → σ × Reply) (c : σ)
    (x : Link γ ω σ) : Prop where
  orderly : x.sender.1.Orderly g
  quiet : ∀ t ∈ x.sender.1.history.taken, t.negotiation = []
  control : ∀ p ∈ x.sender.1.history.acceptedControl, p.Sound
  standard : ∀ p ∈ x.sender.1.history.acceptedStandard, p.Sound
  carried : x.carried ≤ x.sender.1.history.wire.length
  receiver : SocketOk CryptLayer.none packetReceived () c
    (x.sender.1.history.wire.take x.carried) x.receiver

namespace Linked

variable (h : x.Linked g packetReceived c)

include h

end Linked

end Link

end EmuleQt.Net
