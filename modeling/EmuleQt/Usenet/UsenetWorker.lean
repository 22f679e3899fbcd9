import EmuleQt.Framework.Run
import EmuleQt.Framework.Seats
import EmuleQt.Usenet.NntpServerPool
import Mathlib

namespace EmuleQt.Usenet

open Framework Utils Utils.QString

/-- The address of a job; the `i`-th request makes job `i`. -/
abbrev JobId := Nat

structure UsenetFetchRequest where
  itemId : QString
  fileIndex : Int
  segmentIndex : Int
  messageId : QString
  level : Int
  ignoreServers : List QString
  probeOnly : Bool
  deriving DecidableEq

/-- What a fetcher has learned of its article. -/
structure ArticleFetcher where
  decodedBytes : Int
  decodedOffset : Int
  articleFileName : QString
  declaredFileSize : Int
  rawBeginLine : List UInt8
  yencPart : Int
  checksumFailed : Bool
  articleExists : Bool
  deriving DecidableEq

def ArticleFetcher.fresh : ArticleFetcher := ⟨0, 0, [], 0, [], 0, false, false⟩

structure UsenetFetchResult where
  itemId : QString
  fileIndex : Int
  segmentIndex : Int
  workerIndex : Int
  messageId : QString
  error : NntpError
  text : QString
  serverKey : QString
  accountId : QString
  rawBytes : Nat
  fetched : ArticleFetcher
  probeOnly : Bool
  noServerAvailable : Bool
  aborted : Bool
  requeue : Bool
  deriving DecidableEq

/-- A job leaves the heap when it is finished. -/
structure Job where
  request : UsenetFetchRequest
  socket : Option SocketId
  fetcher : Option ArticleFetcher
  readyConn : Bool
  failedConn : Bool
  follower : Option JobId
  pipelined : Bool
  nearlyDone : Bool
  noServerAvailable : Bool
  requeue : Bool

def Job.new (request : UsenetFetchRequest) : Job :=
  ⟨request, none, none, false, false, none, false, false, false, false⟩

/-- An emitted `segmentFinished`, and the bytes of the connection it was charged: of the bytes
the socket has read so far, those from the first number up to the second. -/
structure Finished where
  job : JobId
  result : UsenetFetchResult
  charge : Option (SocketId × Nat × Nat)

/-- A follower that got the socket, and the pool that allowed it. -/
structure Takeover where
  link : Link SocketId
  request : UsenetFetchRequest
  pool : NntpServerPool
  now : Int

/-- What has happened so far; no function of the worker reads it. -/
structure History where
  requests : Nat
  results : List Finished
  links : List (Link SocketId)
  takeovers : List Takeover
  leases : SocketId → Nat
  releases : SocketId → Nat
  heard : SocketId → Nat
  charged : SocketId → Nat
  held : SocketId → Nat

structure UsenetWorker where
  index : Int
  pool : Option NntpServerPool
  heap : JobId → Option Job
  jobs : List JobId
  jobsBySocket : SocketId → Option JobId
  slots : List SocketId
  noPipeline : List QString
  shuttingDown : Bool
  now : Int
  history : History

namespace UsenetWorker

def init (index : Int) : UsenetWorker :=
  { index := index, pool := none, heap := fun _ => none, jobs := [], jobsBySocket := fun _ => none,
    slots := [], noPipeline := [], shuttingDown := false, now := 0,
    history := ⟨0, [], [], [], fun _ => 0, fun _ => 0, fun _ => 0, fun _ => 0, fun _ => 0⟩ }

def setJob (w : UsenetWorker) (id : JobId) (job : Job) : UsenetWorker :=
  { w with heap := Function.update w.heap id (some job) }

def addJob (w : UsenetWorker) (id : JobId) (job : Job) : UsenetWorker :=
  { w.setJob id job with jobs := w.jobs ++ [id] }

def mapPool (w : UsenetWorker) (f : NntpServerPool → NntpServerPool) : UsenetWorker :=
  { w with pool := w.pool.map f }

def mapSocket (w : UsenetWorker) (k : SocketId) (f : NntpSocket → NntpSocket) : UsenetWorker :=
  w.mapPool fun p => p.mapSocket k f

def socket? (w : UsenetWorker) (k : SocketId) : Option NntpSocket := w.pool.map (·.sockets k)

def serverKey (w : UsenetWorker) (k : SocketId) : QString :=
  (w.socket? k).elim [] fun s => s.server.key

def canPipeline (w : UsenetWorker) (k : SocketId) (request : UsenetFetchRequest) : Bool :=
  w.pool.elim false fun p => p.canPipeline w.now k request.level request.ignoreServers

/-- Emits `segmentFinished`. -/
def emit (w : UsenetWorker) (id : JobId) (result : UsenetFetchResult)
    (charge : Option (SocketId × Nat × Nat)) : UsenetWorker :=
  { w with history := { w.history with results := w.history.results ++ [⟨id, result, charge⟩] } }

def startJob (w : UsenetWorker) (id : JobId) : UsenetWorker :=
  match w.heap id with
  | none => w
  | some job =>
    if job.socket = none then w else w.setJob id { job with fetcher := some .fresh }

def onNearlyDone (w : UsenetWorker) (id : JobId) : UsenetWorker :=
  match w.heap id with
  | none => w
  | some job =>
    let w := w.setJob id { job with nearlyDone := true }
    match job.socket with
    | none => w
    | some k =>
      if w.shuttingDown = true ∨ job.follower ≠ none ∨ job.request.probeOnly = true ∨
          w.jobsBySocket k ≠ some id ∨ w.serverKey k ∈ w.noPipeline then w
      else { w with slots := w.slots.insert k }

/-- The part of `finishJob` that builds the result; bytes are read off before the release. -/
def result (w : UsenetWorker) (job : Job) (error : NntpError) (text : QString) :
    UsenetFetchResult where
  itemId := job.request.itemId
  fileIndex := job.request.fileIndex
  segmentIndex := job.request.segmentIndex
  workerIndex := w.index
  messageId := job.request.messageId
  error := error
  text := text
  serverKey := job.socket.elim [] w.serverKey
  accountId := (job.socket.bind w.socket?).elim [] fun s => s.server.accountId
  rawBytes := (job.socket.bind w.socket?).elim 0 NntpSocket.bytesRead
  fetched := job.fetcher.getD .fresh
  probeOnly := job.request.probeOnly
  noServerAvailable := job.noServerAvailable
  aborted := w.shuttingDown
  requeue := job.requeue

def takeBytesRead (w : UsenetWorker) (k : SocketId) : UsenetWorker :=
  let w := w.mapSocket k fun s => { s with bytesRead := 0 }
  { w with history := { w.history with
      charged := Function.update w.history.charged k (w.history.heard k) } }

/-- The end of `finishJob`: the job is deleted and its result emitted. -/
def report (w : UsenetWorker) (id : JobId) (result : UsenetFetchResult)
    (charge : Option (SocketId × Nat × Nat)) : UsenetWorker :=
  ({ w with jobs := w.jobs.erase id, heap := Function.update w.heap id none }).emit id result charge

/-- A follower settled before its turn: the socket belongs to the article ahead of it. -/
def leaveHost (w : UsenetWorker) (id : JobId) (job : Job) : UsenetWorker × Job :=
  match job.socket with
  | none => (w, job)
  | some k =>
    if w.jobsBySocket k=some id then (w, job)
    else
      let w :=
        match w.jobsBySocket k with
        | none => w
        | some host =>
          match w.heap host with
          | none => w
          | some hostJob =>
            if hostJob.follower=some id then w.setJob host { hostJob with follower := none }
            else w
      (w, { job with socket := none, requeue := true })

def noteFailure (w : UsenetWorker) (job : Job) (error : NntpError) (key : QString) :
    UsenetWorker :=
  let w :=
    if error = .protocolError ∧ (job.follower ≠ none ∨ job.pipelined = true) ∧ key ≠ [] then
      { w with noPipeline := w.noPipeline.insert key }
    else w
  if isFatalToConnection error = true ∧ w.shuttingDown = false ∧ key ≠ [] ∧
      error ≠ .articleNotFound ∧ error ≠ .groupNotFound ∧ error ≠ .proxyFailed ∧
      error ≠ .tooManyConnections then
    w.mapPool fun p => p.blockServer w.now key
  else w

/-- `finishJob` for a follower its host has cut off from the socket. -/
def requeueFollower (w : UsenetWorker) (f : JobId) : UsenetWorker :=
  match w.heap f with
  | none => w
  | some job =>
    let job := { job with socket := none, requeue := true }
    w.report f (w.result job .disconnected
      (lit "Connection closed before the pipelined article")) none

def release (w : UsenetWorker) (k : SocketId) (reusable : Bool) : UsenetWorker :=
  let w := w.mapPool fun p => p.release k reusable
  { w with history := { w.history with
      releases := Function.update w.history.releases k (w.history.releases k + 1) } }

def handOver (w : UsenetWorker) (p : NntpServerPool) (host : JobId) (k : SocketId) (f : JobId)
    (job : Job) : UsenetWorker :=
  let w := { w.setJob f { job with failedConn := true } with
    jobsBySocket := Function.update w.jobsBySocket k (some f)
    history := { w.history with
      takeovers := w.history.takeovers ++ [Takeover.mk ⟨host, f, k⟩ job.request p w.now] } }
  if job.nearlyDone = true then w.onNearlyDone f else w

def vacate (w : UsenetWorker) (k : SocketId) : UsenetWorker :=
  { w with
    jobsBySocket := Function.update w.jobsBySocket k none
    slots := w.slots.filter fun k' => decide (k'≠k) }

/-- What becomes of the socket of a job that is done, and of the article behind it. -/
def passOn (w : UsenetWorker) (host : JobId) (k : SocketId) (follower : Option JobId)
    (reusable : Bool) : UsenetWorker :=
  let w := w.vacate k
  match follower.bind (fun f => (w.heap f).map (Prod.mk f)), w.pool with
  | some (f, job), some p =>
    if reusable=true ∧ w.shuttingDown=false ∧
        p.canPipeline w.now k job.request.level job.request.ignoreServers=true then
      w.handOver p host k f job
    else (w.requeueFollower f).release k reusable
  | _, _ => w.release k reusable

/-- After the release, so the refused connection is not counted into the cap. -/
def noteLimit (w : UsenetWorker) (error : NntpError) (key : QString) : UsenetWorker :=
  if error = .tooManyConnections ∧ w.shuttingDown=false ∧ key≠[] then
    w.mapPool fun p => p.limitConnections w.now key
  else w

def finishJob (w : UsenetWorker) (id : JobId) (error : NntpError) (text : QString) :
    UsenetWorker :=
  match w.heap id with
  | none => w
  | some job =>
    let (w, job) := w.leaveHost id job
    let result := w.result job error text
    match job.socket with
    | none => w.report id result none
    | some k =>
      let charge := some (k, w.history.charged k, w.history.heard k)
      let w := (w.takeBytesRead k).noteFailure job error result.serverKey
      let w := w.passOn id k job.follower !isFatalToConnection error
      (w.noteLimit error result.serverKey).report id result charge

/-- `QString::number` of a signed number. -/
def intNumber (n : Int) : QString :=
  if n<0 then lit "-" ++ number n.natAbs else number n.natAbs

/-- What the world answers to a request: why the output file does not open, whether a new
connection fails inside `connectToServer`, whether the leased one fails while the rate limits
are applied, and in which order the set of slots is walked. -/
structure Answer where
  openError : Option QString
  connectFails : Bool
  drainFails : Bool
  slotOrder : List SocketId

def takeSlot (w : UsenetWorker) (order : List SocketId) (request : UsenetFetchRequest) :
    Option SocketId :=
  (order.filter (fun k => decide (k ∈ w.slots)) ++ w.slots).find? fun k =>
    (w.socket? k).elim false NntpSocket.acceptsCommands && w.canPipeline k request

/-- The job goes behind the one whose response the socket is reading. -/
def follow (w : UsenetWorker) (id : JobId) (request : UsenetFetchRequest) (k : SocketId) :
    UsenetWorker :=
  let w := { w with slots := w.slots.filter fun k' => decide (k' ≠ k) }
  let w := w.addJob id { Job.new request with socket := some k, pipelined := true }
  let w :=
    match w.jobsBySocket k with
    | none => w
    | some host =>
      match w.heap host with
      | none => w
      | some job =>
        { w.setJob host { job with follower := some id } with
          history := { w.history with links := w.history.links ++ [Link.mk host id k] } }
  w.startJob id

/-- A job on a leased socket: it waits for the handshake, or starts at once. -/
def leaseTo (w : UsenetWorker) (id : JobId) (request : UsenetFetchRequest) (k : SocketId)
    (drainFails : Bool) : UsenetWorker :=
  let w := w.addJob id { Job.new request with socket := some k }
  let w := { w with
    jobsBySocket := Function.update w.jobsBySocket k (some id)
    history := { w.history with
      leases := Function.update w.history.leases k (w.history.leases k+1) } }
  let w := if drainFails=true then w.mapSocket k NntpSocket.fail else w
  let job := { Job.new request with socket := some k, failedConn := true }
  if (w.socket? k).elim false NntpSocket.isReady=true then (w.setJob id job).startJob id
  else w.setJob id { job with readyConn := true }

def refusal (w : UsenetWorker) (request : UsenetFetchRequest) : UsenetFetchResult :=
  { w.result (Job.new request) .disconnected (lit "Worker is shutting down") with
    aborted := true, probeOnly := false }

/-- Counts a request; the number it gets is its job's. -/
def counted (w : UsenetWorker) : UsenetWorker :=
  { w with history := { w.history with requests := w.history.requests + 1 } }

/-- A request that comes too late or too early is answered at once. -/
def refuse (w : UsenetWorker) (request : UsenetFetchRequest) : UsenetWorker :=
  w.counted.emit w.history.requests (w.refusal request) none

/-- `fetchSegment` once the output file is open: an idle or new connection first, else a place
behind a nearly finished article. -/
def fetchOn (w : UsenetWorker) (p : NntpServerPool) (request : UsenetFetchRequest) (a : Answer) :
    UsenetWorker :=
  let id := w.history.requests
  let (p, socket) := p.acquire w.now request.level request.ignoreServers a.connectFails
  let w := { w.counted with pool := some p }
  match socket with
  | some k => w.leaseTo id request k a.drainFails
  | none =>
    match if request.probeOnly then none else w.takeSlot a.slotOrder request with
    | some k => w.follow id request k
    | none =>
      (w.addJob id { Job.new request with noServerAvailable := true }).finishJob id
        .serverUnavailable
        (arg (lit "No connection available on level %1") (intNumber request.level))

def fetchSegment (w : UsenetWorker) (request : UsenetFetchRequest) (a : Answer) : UsenetWorker :=
  match w.pool with
  | none => w.refuse request
  | some p =>
    if w.shuttingDown = true then w.refuse request
    else
      match if request.probeOnly then none else a.openError with
      | some error =>
        (w.counted.addJob w.history.requests (Job.new request)).finishJob w.history.requests
          .writeFailed error
      | none => w.fetchOn p request a

def setServers (w : UsenetWorker) (servers : List NewsServer) (retryIntervalSec : Int) :
    UsenetWorker :=
  let p := w.pool.getD .empty
  { w with
    pool := some (({ p with retryIntervalSec := retryIntervalSec } :
      NntpServerPool).setServers servers) }

/-- The loop of `shutdown`: one at a time, as finishing an article may finish its follower. -/
def finishAll : Nat → UsenetWorker → UsenetWorker
  | 0, w => w
  | n+1, w =>
    match w.jobs with
    | [] => w
    | id::_ => finishAll n (w.finishJob id .disconnected (lit "Shutting down"))

def shutdown (w : UsenetWorker) : UsenetWorker :=
  let w := finishAll w.jobs.length { w with shuttingDown := true }
  { w with jobsBySocket := fun _ => none, slots := [], pool := none }

/-- The handshake of a socket is over. -/
def socketReady (w : UsenetWorker) (k : SocketId) : UsenetWorker :=
  match w.socket? k with
  | none => w
  | some s =>
    if s.failed=true ∨ s.state = .disconnected ∨ s.acceptsCommands=true then w
    else
      let w := w.mapSocket k fun s => { s with state := .ready }
      match w.jobsBySocket k with
      | none => w
      | some id => if (w.heap id).elim false Job.readyConn=true then w.startJob id else w

/-- A socket tells its owner once why it died, and only dies of what is fatal to it. -/
def socketFailed (w : UsenetWorker) (k : SocketId) (error : NntpError) (text : QString) :
    UsenetWorker :=
  match w.socket? k with
  | none => w
  | some s =>
    if s.failed=true ∨ isFatalToConnection error=false then w
    else
      let w := w.mapSocket k NntpSocket.fail
      match w.jobsBySocket k with
      | none => w
      | some id =>
        if (w.heap id).elim false Job.failedConn=true then w.finishJob id error text else w

def socketRead (w : UsenetWorker) (k : SocketId) (n : Nat) : UsenetWorker :=
  match w.pool with
  | none => w
  | some p =>
    if p.nextSocket≤k then w
    else
      let w := w.mapSocket k fun s => { s with bytesRead := s.bytesRead+n }
      { w with history := { w.history with
          heard := Function.update w.history.heard k (w.history.heard k+n)
          held := if (w.jobsBySocket k).isSome then
              Function.update w.history.held k (w.history.heard k+n)
            else w.history.held } }

/-- The fetcher of a job, if it has one. -/
def fetcher? (w : UsenetWorker) (id : JobId) : Option ArticleFetcher :=
  (w.heap id).bind Job.fetcher

def fetcherReads (w : UsenetWorker) (id : JobId) (f : ArticleFetcher) : UsenetWorker :=
  match w.heap id with
  | none => w
  | some job => if job.fetcher=none then w else w.setJob id { job with fetcher := some f }

/-- `socketMoves` is any change of a socket's state that nobody is told of. -/
inductive Event
  | fetchSegment (request : UsenetFetchRequest) (a : Answer)
  | socketReady (k : SocketId)
  | socketFailed (k : SocketId) (error : NntpError) (text : QString)
  | socketMoves (k : SocketId) (state : SocketState)
  | socketRead (k : SocketId) (n : Nat)
  | fetcherReads (id : JobId) (f : ArticleFetcher)
  | fetcherFinished (id : JobId) (error : NntpError) (text : QString)
  | nearlyDone (id : JobId)
  | setServers (servers : List NewsServer) (retryIntervalSec : Int)
  | dropClosedIdle
  | capTimer
  | wait (ms : Nat)
  | shutdown

def step (w : UsenetWorker) : Event → UsenetWorker
  | .fetchSegment request a => w.fetchSegment request a
  | .socketReady k => w.socketReady k
  | .socketFailed k error text => w.socketFailed k error text
  | .socketMoves k state => w.mapSocket k (NntpSocket.moveTo state)
  | .socketRead k n => w.socketRead k n
  | .fetcherReads id f => w.fetcherReads id f
  | .fetcherFinished id error text =>
    if w.fetcher? id = none then w else w.finishJob id error text
  | .nearlyDone id => if w.fetcher? id = none then w else w.onNearlyDone id
  | .setServers servers retryIntervalSec => w.setServers servers retryIntervalSec
  | .dropClosedIdle => w.mapPool NntpServerPool.dropClosedIdle
  | .capTimer => w.mapPool fun p => p.onCapTimer w.now
  | .wait ms => { w with now := w.now + ms }
  | .shutdown => w.shutdown

/-- The run over some events, oldest first, of a new worker. -/
def after (index : Int) (events : List Event) : UsenetWorker :=
  run step (init index) events

end UsenetWorker

end EmuleQt.Usenet
