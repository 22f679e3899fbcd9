import EmuleQt.Ipc.IpcMessage

namespace EmuleQt.Ipc

structure Queued (V : Type) where
  msg : IpcMessage V
  /-- snapshotPushKey, 0 = never replaced -/
  key : Nat
  /-- false once a newer frame replaced it -/
  live : Bool

structure IpcConnection (V : Type) where
  readBuffer : List UInt8 := []
  /-- Decoded, not yet dispatched. Position `i` holds sequence `queueBase + i`. -/
  queue : List (Queued V) := []
  queueBase : Nat := 0
  /-- key ↦ sequence of its live entry -/
  queuedKeys : Nat → Option Nat := fun _ => none
  coalesced : Nat := 0
  budgetMs : Int := 15
  coalesceIncoming : Bool := false
  drainQueued : Bool := false
  blockedReported : Bool := false
  dispatching : Bool := false
  disconnectEmitted : Bool := false
  disconnectPending : Bool := false
  inputClosed : Bool := false

inductive ProtocolError
  | invalidMessage
  | oversized (payloadLen : Nat)
deriving DecidableEq

def ProtocolError.text : ProtocolError → String
  | invalidMessage => "Invalid IPC message received"
  | oversized payloadLen => s!"Oversized frame: {payloadLen} bytes"

inductive Signal (V : Type)
  | messageReceived (msg : IpcMessage V)
  | protocolError (reason : ProtocolError)
  | disconnected
  | activity
  | dispatchBlocked
deriving DecidableEq

/-- What an activation still has to do when the slots of the signal it emitted return. -/
inductive Resume
  /-- a slot that ends with its signal -/
  | slot
  /-- `onReadyRead` after `activity` -/
  | readyRead
  /-- `drain` after `closeInput` in `decodeFrames` -/
  | decoded
  /-- `drain` in its loop, after a message -/
  | dispatched
  /-- `drain` after `reportDisconnect` -/
  | passed
deriving DecidableEq

/-- The readings of the pass timer, by what is left to look at. -/
structure Clock where
  decoding : Nat → Int
  dispatch : Nat → Int

/-- A connection, its socket and its thread. -/
structure World (V : Type) where
  conn : IpcConnection V := {}
  /-- bytes the socket holds -/
  available : List UInt8 := []
  /-- `drain` calls in the event loop's queue -/
  posted : Nat := 0
  /-- suspended activations, the innermost first -/
  calls : List Resume := []
  /-- every signal so far, and every byte the socket was given -/
  signals : List (Signal V) := []
  received : List UInt8 := []
  aborted : Bool := false
  deleted : Bool := false

variable {V : Type} (cbor : Cbor V)

namespace IpcConnection

def hasCompleteFrame (c : IpcConnection V) : Bool :=
  if c.readBuffer.length < FrameHeaderSize then false
  else decide (payloadLen c.readBuffer ≤ MaxPayloadSize ∧
    payloadLen c.readBuffer ≤ c.readBuffer.length - FrameHeaderSize)

/-- The older entry of a key keeps its slot as a dead one. -/
def supersede (c : IpcConnection V) (key seq : Nat) : IpcConnection V :=
  let c := match c.queuedKeys key with
    | some old =>
      { c with
        queue := c.queue.modify (old-c.queueBase) fun q => { q with live := false }
        coalesced := c.coalesced+1 }
    | none => c
  { c with queuedKeys := Function.update c.queuedKeys key (some seq) }

def enqueue (c : IpcConnection V) (msg : IpcMessage V) : IpcConnection V :=
  let seq := c.queueBase + c.queue.length
  let key := if c.coalesceIncoming && msg.isValid cbor then snapshotPushKey cbor msg else 0
  let c := if key ≠ 0 then c.supersede key seq else c
  { c with queue := c.queue ++ [⟨msg, key, true⟩] }

/-- The loop of `decodeFrames`; every frame takes bytes off the buffer. -/
def decodeLoop (budgetMs : Int) (elapsed : Nat → Int) : Nat → IpcConnection V → IpcConnection V
  | 0, c => c
  | n+1, c =>
    if 0<budgetMs ∧ c.queue≠[] ∧ budgetMs≤elapsed n then c
    else
      match tryDecodeFrame cbor c.readBuffer with
      | none => c
      | some r => decodeLoop budgetMs elapsed n
          ({ c with readBuffer := c.readBuffer.drop r.bytesConsumed }.enqueue cbor r.message)

/-- The entry at the front leaves the queue. -/
def pop (c : IpcConnection V) (entry : Queued V) (rest : List (Queued V)) : IpcConnection V :=
  { c with
    queue := rest
    queueBase := c.queueBase + 1
    queuedKeys :=
      if entry.live ∧ entry.key ≠ 0 ∧ c.queuedKeys entry.key = some c.queueBase then
        Function.update c.queuedKeys entry.key none
      else c.queuedKeys }

end IpcConnection

namespace World

/-- Control goes to the slots of a signal. -/
def emit (w : World V) (signal : Signal V) (after : Resume) : World V :=
  { w with signals := w.signals ++ [signal], calls := after :: w.calls }

def hasPendingInput (w : World V) : Bool :=
  !w.conn.queue.isEmpty || w.conn.hasCompleteFrame
    || (!w.conn.inputClosed && !w.available.isEmpty)

def scheduleDrain (w : World V) : World V :=
  if w.conn.drainQueued then w
  else { w with conn := { w.conn with drainQueued := true }, posted := w.posted + 1 }

def leavePass (w : World V) : World V := { w with conn := { w.conn with dispatching := false } }

/-- The rest of an activation that has nothing to do but leave. -/
def leave (w : World V) : Resume → World V
  | .passed => w.leavePass
  | _ => w

def reportDisconnect (w : World V) (after : Resume) : World V :=
  if w.conn.disconnectEmitted then w.leave after
  else if w.hasPendingInput then
    ({ w with conn := { w.conn with disconnectPending := true } }.scheduleDrain).leave after
  else
    { w with conn := { w.conn with disconnectPending := false, disconnectEmitted := true } }.emit
      .disconnected after

/-- What `drain` does when its loop is left. -/
def finishPass (w : World V) : World V :=
  if w.hasPendingInput then w.scheduleDrain.leavePass
  else if w.conn.disconnectPending then w.reportDisconnect .passed
  else w.leavePass

/-- The loop of `drain`: up to the next message the slots get, or to its end. -/
def dispatch (elapsed : Nat → Int) (first : Bool) (w : World V) : List (Queued V) → World V
  | [] => { w with conn := { w.conn with queue := [] } }.finishPass
  | entry :: rest =>
    if first = false ∧ 0 < w.conn.budgetMs ∧ w.conn.budgetMs ≤ elapsed rest.length then
      { w with conn := { w.conn with queue := entry :: rest } }.finishPass
    else
      let w := { w with conn := w.conn.pop entry rest }
      if entry.live = false then dispatch elapsed first w rest
      else if entry.msg.isValid cbor then w.emit (.messageReceived entry.msg) .dispatched
      else w.emit (.protocolError .invalidMessage) .dispatched

/-- What `decodeFrames` looks at behind its loop. -/
def oversized (w : World V) : Bool :=
  decide (FrameHeaderSize ≤ w.conn.readBuffer.length ∧ MaxPayloadSize < payloadLen w.conn.readBuffer)

def closeInput (w : World V) (reason : ProtocolError) : World V :=
  { w with conn := { w.conn with inputClosed := true, readBuffer := [] } }.emit
    (.protocolError reason) .decoded

/-- `decodeFrames`, and the loop of `drain` behind it. -/
def decodeFrames (now : Clock) (w : World V) : World V :=
  if w.conn.inputClosed then dispatch cbor now.dispatch true w w.conn.queue
  else
    let w := { w with conn :=
      w.conn.decodeLoop cbor (w.conn.budgetMs.tdiv 2) now.decoding w.conn.readBuffer.length }
    if w.oversized then
      w.closeInput (.oversized (payloadLen w.conn.readBuffer))
    else dispatch cbor now.dispatch true w w.conn.queue

def readAll (w : World V) : World V :=
  { w with
    conn := { w.conn with readBuffer := w.conn.readBuffer ++ w.available }
    available := [] }

def drain (now : Clock) (w : World V) : World V :=
  let w := { w with conn := { w.conn with drainQueued := false } }
  if w.conn.dispatching then w
  else
    let w := { w with conn := { w.conn with dispatching := true, blockedReported := false } }
    let w := if w.conn.inputClosed then w else w.readAll
    decodeFrames cbor now w

def onReadyRead (w : World V) : World V :=
  if w.conn.inputClosed then { w with available := [] }
  else w.readAll.emit .activity .readyRead

/-- `onReadyRead` behind `activity`; `deeper` is how the loop level compares with that of the
pass. -/
def afterActivity (now : Clock) (deeper : Bool) (w : World V) : World V :=
  if w.conn.dispatching then
    if w.conn.blockedReported=false ∧ deeper then
      { w with conn := { w.conn with blockedReported := true } }.emit .dispatchBlocked .slot
    else w
  else drain cbor now w

def onStallCheck (w : World V) : World V :=
  if w.conn.dispatching = false ∨ w.conn.blockedReported ∨ w.hasPendingInput = false then w
  else { w with conn := { w.conn with blockedReported := true } }.emit .dispatchBlocked .slot

def abort (w : World V) : World V :=
  { w with
    conn := { w.conn with
      inputClosed := true, queue := [], queuedKeys := fun _ => none, readBuffer := [] }
    available := []
    aborted := true }

end World

/-- What may happen next, at the event loop or inside a slot. -/
inductive Action
  /-- bytes come in at the socket -/
  | arrive (bytes : List UInt8)
  | readyRead
  /-- the posted `drain` runs -/
  | drain (now : Clock)
  | stallCheck
  /-- `onDisconnected`, `onErrorOccurred` -/
  | socketLost
  | abort
  | setDispatchBudgetMs (ms : Int)
  | setCoalesceIncoming (on : Bool)
  /-- the slots of the innermost signal return -/
  | slotsReturn (now : Clock) (deeper : Bool)
  /-- a slot deletes the connection -/
  | delete

open World in
/-- Slots may do anything at any depth: what they do are actions before `slotsReturn`. -/
def step (w : World V) (a : Action) : World V :=
  if w.deleted then w
  else
    match a with
    | .arrive bytes =>
      { w with available := w.available ++ bytes, received := w.received ++ bytes }
    | .readyRead => w.onReadyRead
    | .drain now =>
      if w.posted = 0 then w else World.drain cbor now { w with posted := w.posted - 1 }
    | .stallCheck => w.onStallCheck
    | .socketLost => w.reportDisconnect .slot
    | .abort => w.abort
    | .setDispatchBudgetMs ms => { w with conn := { w.conn with budgetMs := ms } }
    | .setCoalesceIncoming on => { w with conn := { w.conn with coalesceIncoming := on } }
    | .slotsReturn now deeper =>
      match w.calls with
      | [] => w
      | call :: calls =>
        let w := { w with calls }
        match call with
        | .slot => w
        | .readyRead => afterActivity cbor now deeper w
        | .decoded => dispatch cbor now.dispatch true w w.conn.queue
        | .dispatched => dispatch cbor now.dispatch false w w.conn.queue
        | .passed => w.leavePass
    | .delete => { w with calls := [], deleted := true }

end EmuleQt.Ipc
