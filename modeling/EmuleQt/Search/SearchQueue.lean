import EmuleQt.Framework.Run
import EmuleQt.Utils.QtFormat

namespace EmuleQt.Search

open Framework Utils Utils.QString

inductive SearchRunState
  | Queued | Running | Finished | Failed
  deriving DecidableEq

inductive SearchType
  | Automatic | Ed2kServer | Ed2kGlobal | Kademlia | ContentDB | UsenetIndexer
  | MetaUsenet | MetaTorrent | MetaWeb | Ed3k | Ed3kLive | TorrentIndexer
  deriving DecidableEq

def SearchType.toNat : SearchType → Nat
  | Automatic => 0
  | Ed2kServer => 1
  | Ed2kGlobal => 2
  | Kademlia => 3
  | ContentDB => 4
  | UsenetIndexer => 5
  | MetaUsenet => 6
  | MetaTorrent => 7
  | MetaWeb => 8
  | Ed3k => 9
  | Ed3kLive => 10
  | TorrentIndexer => 11

/-- What makes a search another question. -/
structure SearchParams where
  type : SearchType
  expression : QString
  fileType : QString
  minSize : UInt64
  maxSize : UInt64
  availability : UInt32
  extension : QString
  completeSources : UInt32
  codec : QString
  minBitrate : UInt32
  minLength : UInt32
  title : QString
  album : QString
  artist : QString
  internal : Bool

structure SearchStatus where
  searchID : UInt32
  state : SearchRunState
  reason : QString
  error : QString
  type : SearchType
  keyword : QString
  primaryKeyword : QString
  hasMore : Bool

inductive Outcome
  | Sent | SendFailed | Busy | Refused
  deriving DecidableEq

structure SearchDispatch where
  outcome : Outcome
  error : QString
  awaitsSweep : Bool
  awaitsMeta : Bool
  keyword : QString
  primaryKeyword : QString

structure Entry where
  params : SearchParams
  status : SearchStatus
  dedupKey : QString
  queuedAtMs : Int
  sendRetries : Nat
  kad : Bool
  awaitsSweep : Bool
  awaitsMeta : Bool
  serverPage : Bool
  moreRequests : Nat
  sentAtMs : Int

def kMaxQueued : Nat := 20
def kMaxSendRetries : Nat := 3
def kMaxWaitMs : Int := 10 * 60 * 1000
def kAnswerTimeoutMs : Int := 30 * 1000
def kServerResultCap : UInt32 := 300
def kSweepTimeoutMs : Int := 15 * 60 * 1000
def kMetaTimeoutMs : Int := 90 * 1000
def kMaxMoreSearchReq : Nat := 5

namespace SearchWait

def ServerConnection : QString := lit "waiting-for-server-connection"
def Connection : QString := lit "waiting-for-connection"
def PreviousSearch : QString := lit "waiting-for-previous-search"

end SearchWait

def queueFull : QString :=
  arg (lit "Too many searches are waiting to be sent (%1). Close some of them first.")
    (number kMaxQueued)

def notSentInTime : QString :=
  arg (lit "The search could not be sent within %1 minutes.") (number (kMaxWaitMs.toNat / 60000))

def keptDropping : QString :=
  lit "The search could not be sent: the server connection kept dropping."

def isServerType (type : SearchType) : Bool :=
  decide (type = .Ed2kServer ∨ type = .Ed2kGlobal)

/-- `QString::simplified` -/
def simplified (s : QString) : QString :=
  (((s.splitOnP isSpace).filter fun word => !word.isEmpty).intersperse [0x20]).flatten

/-- The words case- and space-insensitively; `toLower` is Qt's. -/
def dedupKeyFor (toLower : QString → QString) (p : SearchParams) : QString :=
  let sep : QString := [0x1F]
  number p.type.toNat ++ sep ++ toLower (simplified p.expression) ++ sep ++ toLower p.fileType ++
    sep ++ number p.minSize.toNat ++ sep ++ number p.maxSize.toNat ++ sep ++
    number p.availability.toNat ++ sep ++ toLower p.extension ++ sep ++
    number p.completeSources.toNat ++ sep ++ toLower p.codec ++ sep ++
    number p.minBitrate.toNat ++ sep ++ number p.minLength.toNat ++ sep ++ toLower p.title ++
    sep ++ toLower p.album ++ sep ++ toLower p.artist ++
    if p.internal then sep ++ lit "internal" else []

namespace Entry

def id (e : Entry) : UInt32 := e.status.searchID

def setState (state : SearchRunState) (error : QString) (e : Entry) : Entry :=
  { e with status := { e.status with state := state, reason := [], error := error } }

def setWaiting (reason : QString) (e : Entry) : Entry :=
  if e.status.state = .Queued ∧ e.status.reason = reason then e
  else { e with status := { e.status with state := .Queued, reason := reason } }

def sendFailed (e : Entry) : Entry :=
  let e := { e with sendRetries := e.sendRetries + 1 }
  if kMaxSendRetries < e.sendRetries then e.setState .Failed keptDropping
  else e.setWaiting SearchWait.ServerConnection

/-- Whether the backend hears of `cancelMeta`. -/
def cancelsMeta (parkedToo : Bool) (e : Entry) : Bool :=
  (e.awaitsMeta && decide (e.status.state = .Running)) ||
    (parkedToo && !e.serverPage && e.status.hasMore)

def cancelMeta (parkedToo : Bool) (e : Entry) : Entry :=
  { e with
    awaitsMeta := false
    status := { e.status with hasMore := e.status.hasMore && !(parkedToo && !e.serverPage) } }

/-- The page on offer goes. -/
def dropPage (e : Entry) : Entry :=
  if e.serverPage then
    { e with serverPage := false, status := { e.status with hasMore := false } }
  else e

/-- A queued search has been sent. -/
def sentOff (type : SearchType) (sent : SearchDispatch) (nowMs : Int) (e : Entry) : Entry :=
  let server := isServerType type
  setState .Running [] { e with
    status := { e.status with
      type := type
      keyword := sent.keyword
      primaryKeyword := sent.primaryKeyword }
    awaitsMeta := sent.awaitsMeta
    kad := !server && !sent.awaitsMeta
    awaitsSweep := sent.awaitsSweep
    sentAtMs := nowMs
    serverPage := e.serverPage && !server
    moreRequests := if server then 0 else e.moreRequests }

/-- The server search of the entry is over. -/
def endServer (state : SearchRunState) (error : QString) (e : Entry) : Entry :=
  let page := e.serverPage && decide (state = .Finished)
  setState state error { e with
    serverPage := page
    status := { e.status with hasMore := page } }

/-- The answer of the server, with what it says of further matches. -/
def answered (moreResults : Bool) (results newFiles : UInt32) (e : Entry) : Entry :=
  let moreResults :=
    if moreResults = false ∧ results = kServerResultCap then
      decide (e.moreRequests = 0 ∨ newFiles = kServerResultCap)
    else moreResults
  { e with serverPage := moreResults && decide (e.moreRequests < kMaxMoreSearchReq) }

/-- The next page of a server search has been asked for. -/
def pageAsked (nowMs : Int) (e : Entry) : Entry :=
  setState .Running [] { e with
    status := { e.status with hasMore := false }
    serverPage := false
    awaitsSweep := false
    moreRequests := e.moreRequests+1
    sentAtMs := nowMs }

/-- The next page of a Meta API search is asked for. -/
def metaAsked (nowMs : Int) (e : Entry) : Entry :=
  setState .Running [] { e with
    status := { e.status with hasMore := false }
    awaitsMeta := true
    sentAtMs := nowMs }

/-- A Meta API search has its page, or gave up. -/
def metaFinished (error : QString) (hasMore : Bool) (e : Entry) : Entry :=
  setState (if error=[] then .Finished else .Failed) error { e with
    awaitsMeta := false
    status := { e.status with hasMore := hasMore && error.isEmpty } }

/-- What a tick makes of an entry. -/
def expired (nowMs : Int) (kadSearchAlive : UInt32 → Bool) (e : Entry) : Entry :=
  if e.status.state = .Running ∧ e.kad = true ∧ kadSearchAlive e.id = false then
    e.setState .Finished []
  else if e.status.state = .Running ∧ e.awaitsMeta = true ∧ kMetaTimeoutMs ≤ nowMs - e.sentAtMs then
    (e.cancelMeta false).setState .Finished []
  else if e.status.state = .Queued ∧ kMaxWaitMs ≤ nowMs - e.queuedAtMs then
    e.setState .Failed notSentInTime
  else e

def metaExpires (nowMs : Int) (kadSearchAlive : UInt32 → Bool) (e : Entry) : Bool :=
  decide (e.status.state = .Running ∧ ¬ (e.kad=true ∧ kadSearchAlive e.id=false) ∧
    e.awaitsMeta=true ∧ kMetaTimeoutMs≤nowMs-e.sentAtMs)

end Entry

/-- What has passed between the queue and its backend. A dispatch is noted with what the entries
before it that still wait resolve to. -/
inductive Event
  | dispatch (searchID : UInt32) (type : SearchType) (outcome : Outcome)
      (ahead : List (Option SearchType))
  | continueServerSearch (searchID : UInt32)
  | endServerSearch (searchID : UInt32)
  | cancelMetaSearch (searchID : UInt32)
  | continueMetaSearch (searchID : UInt32)
  | discard (searchID : UInt32)
  | serverAnswer (searchID : UInt32)
  | serverDisconnected
  deriving DecidableEq

/-- The queue, and what has passed between it and its backend. -/
structure SearchQueue where
  entries : List Entry
  inFlight : UInt32
  inFlightDeadlineMs : Int
  history : List Event

/-- What the backend answers while the queue is walked once; each entry is asked about once. -/
structure Backend where
  resolve : UInt32 → Option SearchType
  waitReason : UInt32 → QString
  dispatch : UInt32 → SearchDispatch
  nowMs : Int

namespace SearchQueue

def init : SearchQueue := ⟨[], 0, 0, []⟩

def find (id : UInt32) (q : SearchQueue) : Option Entry :=
  if id = 0 then none else q.entries.find? fun e => decide (e.id = id)

def update (id : UInt32) (f : Entry → Entry) (q : SearchQueue) : SearchQueue :=
  { q with entries := q.entries.map fun e => if e.id = id then f e else e }

def log (events : List Event) (q : SearchQueue) : SearchQueue :=
  { q with history := q.history ++ events }

def dropServerPages (keep : UInt32) (q : SearchQueue) : SearchQueue :=
  { q with entries := q.entries.map fun e => if e.id = keep then e else e.dropPage }

def queuedCount (q : SearchQueue) : Nat :=
  q.entries.countP fun e => decide (e.status.state = .Queued)

/-- What the entries before a place that still wait resolve to. -/
def ahead (b : Backend) (q : SearchQueue) (i : Nat) : List (Option SearchType) :=
  ((q.entries.take i).filter fun e => decide (e.status.state = .Queued)).map fun e =>
    b.resolve e.id

/-- A search has been sent; a server search takes the lane. -/
def sent (b : Backend) (e : Entry) (type : SearchType) (q : SearchQueue) : SearchQueue :=
  let d := b.dispatch e.id
  if isServerType type then
    { (q.dropServerPages e.id).update e.id (Entry.sentOff type d b.nowMs) with
      inFlight := e.id
      inFlightDeadlineMs := b.nowMs +
        if d.awaitsSweep then kSweepTimeoutMs else kAnswerTimeoutMs }
  else q.update e.id (Entry.sentOff type d b.nowMs)

/-- The entry at a place is dispatched; the flag is whether the server lane is held. -/
def dispatchAt (b : Backend) (q : SearchQueue) (serverLaneHeld : Bool) (i : Nat) (e : Entry)
    (type : SearchType) : SearchQueue × Bool :=
  let server := isServerType type
  let d := b.dispatch e.id
  let q := q.log [.dispatch e.id type d.outcome (q.ahead b i)]
  match d.outcome with
  | .Sent => (q.sent b e type, serverLaneHeld || server)
  | .SendFailed => (q.update e.id Entry.sendFailed, serverLaneHeld || server)
  | .Busy => (q.update e.id (Entry.setWaiting SearchWait.PreviousSearch), serverLaneHeld || server)
  | .Refused => (q.update e.id (Entry.setState .Failed d.error), serverLaneHeld)

/-- The walk of `pump` at one place. -/
def pumpAt (b : Backend) (walk : SearchQueue × Bool) (i : Nat) : SearchQueue × Bool :=
  let (q, serverLaneHeld) := walk
  match q.entries[i]? with
  | none => walk
  | some e =>
    if e.status.state ≠ .Queued then walk
    else match b.resolve e.id with
      | none => (q.update e.id (Entry.setWaiting SearchWait.Connection), serverLaneHeld)
      | some type =>
        let server := isServerType type
        if server && serverLaneHeld then
          (q.update e.id (Entry.setWaiting SearchWait.PreviousSearch), serverLaneHeld)
        else if b.waitReason e.id≠[] then
          (q.update e.id (Entry.setWaiting (b.waitReason e.id)), serverLaneHeld || server)
        else dispatchAt b q serverLaneHeld i e type

def pump (b : Backend) (q : SearchQueue) : SearchQueue :=
  ((List.range q.entries.length).foldl (pumpAt b) (q, decide (q.inFlight ≠ 0))).1

def finishServerSearch (state : SearchRunState) (error : QString) (b : Backend)
    (q : SearchQueue) : SearchQueue :=
  if q.inFlight = 0 then q
  else pump b { (q.log [.endServerSearch q.inFlight]).update q.inFlight
    (Entry.endServer state error) with inFlight := 0 }

/-- `enqueue` returns nothing else when it refuses. -/
structure Result where
  ok : Bool
  error : QString
  status : Option SearchStatus
  duplicate : Bool

/-- Waiting or running. -/
def Live (e : Entry) : Prop := e.status.state = .Queued ∨ e.status.state = .Running

instance instDecidableLive (e : Entry) : Decidable (Live e) := inferInstanceAs (Decidable (_ ∨ _))

def newEntry (key : QString) (params : SearchParams) (searchID : UInt32) (nowMs : Int) : Entry where
  params := params
  status := ⟨searchID, .Queued, [], [], params.type, [], [], false⟩
  dedupKey := key
  queuedAtMs := nowMs
  sendRetries := 0
  kad := false
  awaitsSweep := false
  awaitsMeta := false
  serverPage := false
  moreRequests := 0
  sentAtMs := 0

/-- A search with its key. The validation's error, the id that `create` hands out and the clock are
the backend's. -/
def enqueue (key : QString) (params : SearchParams) (error : QString) (searchID : UInt32)
    (nowMs : Int) (b : Backend) (q : SearchQueue) : Result × SearchQueue :=
  if error ≠ [] then (⟨false, error, none, false⟩, q)
  else match q.entries.find? fun e => decide (e.dedupKey = key ∧ Live e) with
    | some e => (⟨true, [], some e.status, true⟩, q)
    | none =>
      if kMaxQueued ≤ q.queuedCount then (⟨false, queueFull, none, false⟩, q)
      else
        let q := pump b { q with entries := q.entries ++ [newEntry key params searchID nowMs] }
        match q.find searchID with
        | none => (⟨true, [], none, false⟩, q)
        | some now =>
          if now.status.state = .Failed then
            (⟨false, now.status.error, some now.status, false⟩,
              log [.discard searchID]
                { q with entries := q.entries.filter fun e => decide (e.id ≠ searchID) })
          else (⟨true, [], some now.status, false⟩, q)

def expire (nowMs : Int) (kadSearchAlive : UInt32 → Bool) (q : SearchQueue) : SearchQueue :=
  log ((q.entries.filter (Entry.metaExpires nowMs kadSearchAlive)).map fun e =>
      .cancelMetaSearch e.id)
    { q with entries := q.entries.map (Entry.expired nowMs kadSearchAlive) }

/-- The queue may be walked twice. -/
def tick (nowMs : Int) (kadSearchAlive : UInt32 → Bool) (b b' : Backend) (q : SearchQueue) :
    SearchQueue :=
  let q := if q.inFlight ≠ 0 ∧ q.inFlightDeadlineMs ≤ nowMs then
    q.finishServerSearch .Finished [] b else q
  (q.expire nowMs kadSearchAlive).pump b'

def onServerDisconnected (b : Backend) (q : SearchQueue) : SearchQueue :=
  let q := (q.dropServerPages 0).log [.serverDisconnected]
  match q.find q.inFlight with
  | none => q
  | some e =>
    if e.awaitsSweep then q
    else pump b { (q.log [.endServerSearch q.inFlight]).update q.inFlight Entry.sendFailed with
      inFlight := 0 }

def onServerAnswer (moreResults : Bool) (results newFiles : UInt32) (b : Backend)
    (q : SearchQueue) : SearchQueue :=
  match q.find q.inFlight with
  | none => q
  | some e =>
    let q := (q.log [.serverAnswer q.inFlight]).update q.inFlight
      (Entry.answered moreResults results newFiles)
    if e.awaitsSweep then q else q.finishServerSearch .Finished [] b

def onSweepFinished (searchID : UInt32) (b : Backend) (q : SearchQueue) : SearchQueue :=
  if searchID ≠ 0 ∧ searchID = q.inFlight then q.finishServerSearch .Finished [] b else q

def onMetaSearchFinished (searchID : UInt32) (error : QString) (hasMore : Bool)
    (q : SearchQueue) : SearchQueue :=
  match q.find searchID with
  | none => q.log (if hasMore then [.cancelMetaSearch searchID] else [])
  | some e =>
    if e.awaitsMeta = false ∨ e.status.state ≠ .Running then
      q.log (if hasMore then [.cancelMetaSearch searchID] else [])
    else q.update searchID (Entry.metaFinished error hasMore)

/-- Whether `more` asks for a page of the entry. -/
def asksMore (continues continuesMeta : Bool) (q : SearchQueue) (e : Entry) : Bool :=
  decide (e.status.state = .Finished) && e.status.hasMore &&
    if e.serverPage then decide (q.inFlight=0) && continues else continuesMeta

/-- Whether the backend can ask the server for another page and does, and whether it can ask a
Meta API, is its own matter. -/
def more (searchID : UInt32) (continues continuesMeta : Bool) (nowMs : Int) (q : SearchQueue) :
    Bool × SearchQueue :=
  match q.find searchID with
  | none => (false, q)
  | some e =>
    if q.asksMore continues continuesMeta e = false then (false, q)
    else if e.serverPage then
      (true, { (q.log [.continueServerSearch searchID]).update searchID (Entry.pageAsked nowMs) with
        inFlight := searchID
        inFlightDeadlineMs := nowMs + kAnswerTimeoutMs })
    else (true, (q.log [.continueMetaSearch searchID]).update searchID (Entry.metaAsked nowMs))

def stop (searchID : UInt32) (b : Backend) (q : SearchQueue) : SearchQueue :=
  match q.find searchID with
  | none => q
  | some e =>
    let q' := (q.log (if e.cancelsMeta false then [.cancelMetaSearch searchID] else [])).update
      searchID (Entry.cancelMeta false)
    if searchID = q.inFlight then q'.finishServerSearch .Finished [] b
    else if Live e then (q'.update searchID (Entry.setState .Finished [])).pump b
    else q'

def remove (searchID : UInt32) (b : Backend) (q : SearchQueue) : SearchQueue :=
  match q.entries.find? fun e => decide (e.id = searchID) with
  | none => q
  | some e =>
    let q' := log (if e.cancelsMeta true then [.cancelMetaSearch searchID] else [])
      { q with entries := q.entries.eraseP fun e => decide (e.id = searchID) }
    if searchID = q.inFlight then
      pump b { q'.log [.endServerSearch searchID] with inFlight := 0 }
    else q'.pump b

def clear (q : SearchQueue) : SearchQueue :=
  { q with
    entries := []
    inFlight := 0
    history := q.history ++ (if q.inFlight ≠ 0 then [.endServerSearch q.inFlight] else []) ++
      (q.entries.filter (Entry.cancelsMeta true)).map fun e => .cancelMetaSearch e.id }

/-- A call with what the backend answers to it. -/
inductive Call
  | enqueue (params : SearchParams) (error : QString) (searchID : UInt32) (nowMs : Int)
      (b : Backend)
  | pump (b : Backend)
  | tick (nowMs : Int) (kadSearchAlive : UInt32 → Bool) (b b' : Backend)
  | serverDisconnected (b : Backend)
  | serverAnswer (moreResults : Bool) (results newFiles : UInt32) (b : Backend)
  | sweepFinished (searchID : UInt32) (b : Backend)
  | metaSearchFinished (searchID : UInt32) (error : QString) (hasMore : Bool)
  | more (searchID : UInt32) (continues continuesMeta : Bool) (nowMs : Int)
  | stop (searchID : UInt32) (b : Backend)
  | remove (searchID : UInt32) (b : Backend)
  | clear

def step (toLower : QString → QString) (q : SearchQueue) : Call → SearchQueue
  | .enqueue params error searchID nowMs b =>
    (q.enqueue (dedupKeyFor toLower params) params error searchID nowMs b).2
  | .pump b => q.pump b
  | .tick nowMs kadSearchAlive b b' => q.tick nowMs kadSearchAlive b b'
  | .serverDisconnected b => q.onServerDisconnected b
  | .serverAnswer moreResults results newFiles b => q.onServerAnswer moreResults results newFiles b
  | .sweepFinished searchID b => q.onSweepFinished searchID b
  | .metaSearchFinished searchID error hasMore => q.onMetaSearchFinished searchID error hasMore
  | .more searchID continues continuesMeta nowMs =>
    (q.more searchID continues continuesMeta nowMs).2
  | .stop searchID b => q.stop searchID b
  | .remove searchID b => q.remove searchID b
  | .clear => q.clear

end SearchQueue

end EmuleQt.Search
