import EmuleQt.Client.BlockPackets
import EmuleQt.Client.UploadSlot
import EmuleQt.Net.Address

namespace EmuleQt.Transfer

open Client Net Utils

def MIN_UP_CLIENTS_ALLOWED : Nat := 2
def MAX_PURGEQUEUETIME : UInt64 := 60 * 60 * 1000

/-- How a dial comes out. On a socket already up the handshake may have been finished; a
refused one has disconnected the client. -/
inductive Dial where
  | started | alreadyConnected (handshakeFinished : Bool) | refused
  deriving DecidableEq

inductive QueueAdmission where
  | Ok | Rejected | AlreadyQueued
  deriving DecidableEq

/-- What a call finds outside the lists. -/
structure QueueSurroundings (C : Type*) where
  isConnected : Bool
  isFirewalled : Bool
  /-- With a server connection: the client is on the server we are on. -/
  isLocalServer : Option (C → Bool)
  kadPort : C → UInt16
  downloadState : C → DownloadState
  friendPtr : C → Bool
  friendSlot : C → Bool
  /-- The request just counted is the one the client is banned for. -/
  bannedForRequests : C → Bool
  /-- With a ban list and an address to look up: the client's address is banned. -/
  isUploadBannedClient : C → Option Bool
  isEd3kUploadPeer : C → Bool
  compare : C → C → Bool
  hasPassedSecureIdent : C → Bool
  /-- The client's socket, and whether it is connected. -/
  socket : C → Option Bool
  clientsFromIP : Option (Address → Nat)
  /-- The shared file the client last asked for. -/
  sharedFiles : Option (C → Option SharedFile)
  queueSize : Nat
  /-- Its file priority and credits reach the average of the queue. -/
  reachesAverageRank : C → Bool
  /-- The line carries a slot more than so many. -/
  acceptsSlot : Nat → Bool
  /-- The same, for a slot that is forced. -/
  forcesSlot : Nat → Bool
  curTick : UInt64
  lastUpRequest : C → UInt64
  isSlotCoolingDown : C → Bool
  score : C → UInt64
  isReachableForSlot : C → Bool
  isIPv6Connection : C → Bool
  separateIPv6Queue : Bool
  /-- The upload socket is connected and the handshake over. -/
  uploadSocketReady : C → Bool
  tryToConnect : C → Dial

/-- The lists, and what the clients keep of their places in them. -/
structure UploadQueue (C : Type*) where
  waitingList : List C
  uploadingList : List C
  uploadState : C → UploadState
  addNextConnect : C → Bool
  collectionUploadSlot : C → Bool
  slotNumber : C → UInt32
  lastSlotWasIPv6 : Bool

variable {C : Type*} [DecidableEq C]

namespace UploadQueue

def init : UploadQueue C where
  waitingList := []
  uploadingList := []
  uploadState := fun _ => .None
  addNextConnect := fun _ => false
  collectionUploadSlot := fun _ => false
  slotNumber := fun _ => 0
  lastSlotWasIPv6 := false

def setUploadState (client : C) (state : UploadState) (s : UploadQueue C) : UploadQueue C :=
  { s with uploadState := Function.update s.uploadState client state }

def setAddNextConnect (client : C) (v : Bool) (s : UploadQueue C) : UploadQueue C :=
  { s with addNextConnect := Function.update s.addNextConnect client v }

def setCollectionUploadSlot (client : C) (v : Bool) (s : UploadQueue C) : UploadQueue C :=
  { s with collectionUploadSlot := Function.update s.collectionUploadSlot client v }

def isDownloading (s : UploadQueue C) (client : C) : Bool := decide (client ∈ s.uploadingList)

def removeFromWaitingQueue (client : C) (s : UploadQueue C) : UploadQueue C :=
  if client ∈ s.waitingList then
    { s with waitingList := s.waitingList.erase client }
      |>.setAddNextConnect client false |>.setUploadState client .None
  else s

/-- Slot numbers from `n` on, in list order. -/
def numberFrom (n : Nat) : List C → (C → UInt32) → C → UInt32
  | [], slots => slots
  | c::cs, slots => numberFrom (n+1) cs (Function.update slots c (UInt32.ofNat n))

def removeFromUploadQueue (client : C) (s : UploadQueue C) : UploadQueue C :=
  if client ∈ s.uploadingList then
    let s := { s with uploadingList := s.uploadingList.erase client }
      |>.setAddNextConnect client false |>.setUploadState client .None
      |>.setCollectionUploadSlot client false
    { s with slotNumber := numberFrom 1 s.uploadingList s.slotNumber }
  else s

/-- What the end of a connection does to the client's place. -/
def disconnected (client : C) (s : UploadQueue C) : UploadQueue C :=
  if s.uploadState client = .Uploading ∨ s.uploadState client = .Connecting then
    (s.setUploadState client .None).removeFromUploadQueue client
  else s

def onHandshakeCompleted (client : C) (s : UploadQueue C) : UploadQueue C :=
  if s.uploadState client = .Connecting ∧ s.isDownloading client = true then
    s.setUploadState client .Uploading
  else s

def tryToConnect (env : QueueSurroundings C) (client : C) (s : UploadQueue C) :
    Bool × UploadQueue C :=
  match env.tryToConnect client with
  | .started => (true, s)
  | .alreadyConnected handshakeFinished =>
    (true, if handshakeFinished then s.onHandshakeCompleted client else s)
  | .refused => (false, s.disconnected client)

/-- What the walk over the waiting list has found so far. -/
structure Bests (C : Type*) where
  bestScore : UInt64 := 0
  bestLowScore : UInt64 := 0
  newClient : Option C := none
  lowClient : Option C := none
  bestScoreV4 : UInt64 := 0
  bestScoreV6 : UInt64 := 0
  bestV4 : Option C := none
  bestV6 : Option C := none

def isPurged (env : QueueSurroundings C) (cur : C) : Bool :=
  decide (env.curTick≥env.lastUpRequest cur+MAX_PURGEQUEUETIME) ||
    env.sharedFiles.any fun files => (files cur).isNone

/-- Taken off the list by the walk. -/
def purge (s : UploadQueue C) (cur : C) : UploadQueue C :=
  (s.setUploadState cur .None).setAddNextConnect cur false

def considerFamily (env : QueueSurroundings C) (b : Bests C) (cur : C) : Bests C :=
  if env.isReachableForSlot cur then
    if env.isIPv6Connection cur then
      if env.score cur>b.bestScoreV6 then
        { b with bestScoreV6 := env.score cur, bestV6 := some cur }
      else b
    else if env.score cur>b.bestScoreV4 then
      { b with bestScoreV4 := env.score cur, bestV4 := some cur }
    else b
  else b

def considerAll (env : QueueSurroundings C) (addNextConnect : C → Bool) (b : Bests C) (cur : C) :
    Bests C :=
  if env.score cur>b.bestScore then
    if env.isReachableForSlot cur then
      { b with bestScore := env.score cur, newClient := some cur }
    else if !addNextConnect cur && decide (env.score cur>b.bestLowScore) then
      { b with bestLowScore := env.score cur, lowClient := some cur }
    else b
  else b

def consider (env : QueueSurroundings C) (addNextConnect : C → Bool) (b : Bests C) (cur : C) :
    Bests C :=
  if env.isSlotCoolingDown cur then b
  else considerAll env addNextConnect (considerFamily env b cur) cur

/-- The clients not seen for an hour and those that want no shared file lose their places. -/
def purgeWaitingList (env : QueueSurroundings C) (s : UploadQueue C) : UploadQueue C :=
  { (s.waitingList.filter (isPurged env)).foldl purge s with
    waitingList := s.waitingList.filter fun cur => !isPurged env cur }

/-- Better than all others and out of reach: its turn comes when it connects. -/
def deferLowClient (b : Bests C) (s : UploadQueue C) : UploadQueue C :=
  match b.lowClient with
  | some low => if b.bestLowScore>b.bestScore then s.setAddNextConnect low true else s
  | none => s

/-- The families take turns where both have a candidate. -/
def chosen (env : QueueSurroundings C) (s : UploadQueue C) (b : Bests C) : Option C :=
  if env.separateIPv6Queue ∧ b.bestV4.isSome ∧ b.bestV6.isSome then
    if s.lastSlotWasIPv6 then b.bestV4 else b.bestV6
  else b.newClient

def findBestClientInQueue (env : QueueSurroundings C) (s : UploadQueue C) :
    Option C × UploadQueue C :=
  let s := s.purgeWaitingList env
  let b := s.waitingList.foldl (consider env s.addNextConnect) {}
  (s.chosen env b, s.deferLowClient b)

/-- A slot at the end of the list. -/
def openSlot (env : QueueSurroundings C) (client : C) (s : UploadQueue C) : UploadQueue C :=
  { s with
    uploadingList := s.uploadingList++[client]
    slotNumber := Function.update s.slotNumber client
      (UInt32.ofNat (s.uploadingList.length+1))
    lastSlotWasIPv6 := env.isIPv6Connection client }

/-- The client chosen for a slot gets one, if it can be reached. -/
def promote (env : QueueSurroundings C) (direct : Bool) (client : C) (s : UploadQueue C) :
    Bool × UploadQueue C :=
  let s := s.removeFromWaitingQueue client
  if s.isDownloading client then (false, s)
  else
    let s := if !direct && s.collectionUploadSlot client then s.setCollectionUploadSlot client false
      else s
    if env.uploadSocketReady client then
      (true, (s.setUploadState client .Uploading).openSlot env client)
    else
      match (s.setUploadState client .Connecting).tryToConnect env client with
      | (true, s) => (true, s.openSlot env client)
      | (false, s) => (false, s.setUploadState client .None)

def addUpNextClient (env : QueueSurroundings C) (directadd : Option C) (s : UploadQueue C) :
    Bool × UploadQueue C :=
  match directadd with
  | some client => promote env true client s
  | none =>
    match findBestClientInQueue env s with
    | (some client, s) => promote env false client s
    | (none, s) => (false, s)

def lowIdAbuseGateRejects (env : QueueSurroundings C) (s : UploadQueue C) (client : C) : Bool :=
  env.isConnected && env.isFirewalled && decide (env.kadPort client = 0) &&
    decide (env.downloadState client = .None) && !env.friendPtr client &&
    env.isLocalServer.any (fun isLocal => !isLocal client) && decide (s.waitingList.length > 50)

def isBanned (env : QueueSurroundings C) (s : UploadQueue C) (client : C) : Bool :=
  (env.isUploadBannedClient client).getD (decide (s.uploadState client = .Banned))

/-- A queued duplicate of the newcomer loses its place. -/
def evict (env : QueueSurroundings C) (cur : C) (s : UploadQueue C) : UploadQueue C :=
  let s := s.removeFromWaitingQueue cur
  if (env.socket cur).isNone then s.disconnected cur else s

@[simp] theorem removeFromWaitingQueue_waitingList (client : C) (s : UploadQueue C) :
    (s.removeFromWaitingQueue client).waitingList=s.waitingList.erase client := by
  unfold removeFromWaitingQueue
  split_ifs with h
  · rfl
  · exact (List.erase_of_not_mem h).symm

@[simp] theorem removeFromUploadQueue_waitingList (client : C) (s : UploadQueue C) :
    (s.removeFromUploadQueue client).waitingList=s.waitingList := by
  unfold removeFromUploadQueue
  split_ifs <;> rfl

@[simp] theorem disconnected_waitingList (client : C) (s : UploadQueue C) :
    (s.disconnected client).waitingList=s.waitingList := by
  unfold disconnected
  split_ifs
  · rw [removeFromUploadQueue_waitingList]
    rfl
  · rfl

@[simp] theorem evict_waitingList (env : QueueSurroundings C) (cur : C) (s : UploadQueue C) :
    (s.evict env cur).waitingList=s.waitingList.erase cur := by
  unfold evict
  split_ifs <;> simp

/-- The walk over the waiting list from place `i` on: a verdict, or how many of its clients
have the newcomer's address. The list is shorter by those that were evicted. -/
def countSameIP (userAddress : C → Address) (env : QueueSurroundings C) (client : C)
    (evictDuplicates : Bool) (i sameIPCount : Nat) (s : UploadQueue C) :
    Except QueueAdmission Nat × UploadQueue C :=
  if h : i<s.waitingList.length then
    let cur := s.waitingList[i]
    if cur=client then (.error .AlreadyQueued, s)
    else if env.compare client cur then
      if !evictDuplicates || env.hasPassedSecureIdent cur then (.error .Rejected, s)
      else if !env.hasPassedSecureIdent client then (.error .Rejected, s.evict env cur)
      else countSameIP userAddress env client evictDuplicates i sameIPCount (s.evict env cur)
    else if userAddress client=userAddress cur then
      countSameIP userAddress env client evictDuplicates (i+1) (sameIPCount+1) s
    else countSameIP userAddress env client evictDuplicates (i+1) sameIPCount s
  else (.ok sameIPCount, s)
termination_by s.waitingList.length-i
decreasing_by
  · have hlen := List.length_erase_of_mem (List.getElem_mem h)
    rw [evict_waitingList]
    omega
  · omega
  · omega

/-- One client of an IPv6 address and three of its /64, served ones included. -/
def ipv6Rejects (userAddress : C → Address) (s : UploadQueue C) (client : C) : Bool :=
  let v6 := userAddress client
  let others := (s.waitingList++s.uploadingList).filter fun other =>
    decide (other≠client) && (userAddress other).isIPv6
  v6.isIPv6 && (others.any (fun other => decide (userAddress other=v6)) ||
    decide (others.countP (fun other => decide ((userAddress other).peerKey=v6.peerKey))≥3))

def checkWaitingListAdmission (userAddress : C → Address) (env : QueueSurroundings C)
    (client : C) (evictDuplicates : Bool) (s : UploadQueue C) :
    QueueAdmission × UploadQueue C :=
  if s.isBanned env client then (.Rejected, s)
  else if env.isEd3kUploadPeer client then (.Rejected, s)
  else
    match s.countSameIP userAddress env client evictDuplicates 0 0 with
    | (.error verdict, s) => (verdict, s)
    | (.ok sameIPCount, s) =>
      if sameIPCount ≥ 3 then (.Rejected, s)
      else if (userAddress client).isIPv4 &&
          env.clientsFromIP.any fun count => decide (count (userAddress client) ≥ 3) then
        (.Rejected, s)
      else if s.ipv6Rejects userAddress client then (.Rejected, s)
      else (.Ok, s)

def queueLimitRejects (env : QueueSurroundings C) (s : UploadQueue C) (client : C) : Bool :=
  let softQueueLimit := env.queueSize
  let hardQueueLimit := softQueueLimit + max softQueueLimit 800 / 4
  let waiting := s.waitingList.length
  if waiting < softQueueLimit then false
  else if waiting ≥ hardQueueLimit then true
  else if env.friendPtr client && env.friendSlot client then false
  else !env.reachesAverageRank client

def acceptNewClient (env : QueueSurroundings C) (s : UploadQueue C) (addOnNextConnect : Bool) :
    Bool :=
  env.acceptsSlot (if addOnNextConnect then s.uploadingList.length - 1
    else s.uploadingList.length)

def forceNewClient (env : QueueSurroundings C) (s : UploadQueue C)
    (allowEmptyWaitingQueue : Bool) : Bool :=
  if !allowEmptyWaitingQueue && s.waitingList.isEmpty then false
  else if s.uploadingList.length < MIN_UP_CLIENTS_ALLOWED then true
  else env.forcesSlot s.uploadingList.length

/-- A small collection on a connection that is up bypasses the queue. -/
def bypassesQueue (env : QueueSurroundings C) (s : UploadQueue C) (client : C) : Bool :=
  (env.sharedFiles.bind fun files => files client).any (fun reqFile =>
    SharedFile.hasCollectionExtension reqFile.fileName &&
      decide (reqFile.fileSize<MAXPRIORITYCOLL_SIZE)) &&
    !s.isDownloading client && env.socket client=some true

/-- To the end of the waiting list. -/
def enqueue (client : C) (s : UploadQueue C) : UploadQueue C :=
  { s with waitingList := s.waitingList ++ [client] }.setUploadState client .OnUploadQueue

def addRequestCount (env : QueueSurroundings C) (client : C) (ignoreTimeLimit : Bool)
    (s : UploadQueue C) : UploadQueue C :=
  if !ignoreTimeLimit && env.bannedForRequests client then s.setUploadState client .Banned else s

/-- A client on the list asks again: one whose turn came while it was out of reach is served. -/
def reask (env : QueueSurroundings C) (client : C) (s : UploadQueue C) : UploadQueue C :=
  if s.addNextConnect client && s.acceptNewClient env true then
    ((s.setAddNextConnect client false).removeFromWaitingQueue client
      |>.addUpNextClient env (some client)).2
  else s

/-- The place of a client the gates let in. -/
def place (env : QueueSurroundings C) (client : C) (s : UploadQueue C) : Bool × UploadQueue C :=
  if s.bypassesQueue env client then
    (true, ((s.setCollectionUploadSlot client true).addUpNextClient env (some client)).2)
  else
    let s := s.setCollectionUploadSlot client false
    if s.queueLimitRejects env client then (false, s)
    else if s.uploadState client = .Uploading then (true, s)
    else if s.waitingList.isEmpty && s.forceNewClient env true then
      match s.addUpNextClient env (some client) with
      | (true, s) => (true, s)
      | (false, s) => (true, s.enqueue client)
    else (true, s.enqueue client)

/-- An ask that has been counted. -/
def answerAsk (userAddress : C → Address) (env : QueueSurroundings C) (client : C)
    (s : UploadQueue C) : Bool × UploadQueue C :=
  match s.checkWaitingListAdmission userAddress env client true with
  | (.Rejected, s) => (false, s)
  | (.AlreadyQueued, s) => (true, s.reask env client)
  | (.Ok, s) => s.place env client

def addClientToQueue (userAddress : C → Address) (env : QueueSurroundings C) (client : C)
    (ignoreTimeLimit : Bool) (s : UploadQueue C) : Bool × UploadQueue C :=
  if s.lowIdAbuseGateRejects env client then (false, s)
  else (s.addRequestCount env client ignoreTimeLimit).answerAsk userAddress env client

def addRestoredClient (userAddress : C → Address) (env : QueueSurroundings C) (client : C)
    (s : UploadQueue C) : Bool × UploadQueue C :=
  if s.lowIdAbuseGateRejects env client then (false, s)
  else
    match s.checkWaitingListAdmission userAddress env client false with
    | (.Ok, s) =>
      if s.queueLimitRejects env client then (false, s) else (true, s.enqueue client)
    | (_, s) => (false, s)

end UploadQueue

end EmuleQt.Transfer
