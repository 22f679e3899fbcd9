import EmuleQt.Crypto.Digest
import EmuleQt.Files.GapList
import EmuleQt.Framework.Keyed
import EmuleQt.Utils.Opcodes
import EmuleQt.Utils.QtFormat

namespace EmuleQt.Client

open Crypto Files Framework Math Utils

def kMaxPendingBlockRequests : Nat := 1024
def kMaxDoneBlocks : Nat := 64
def kMaxUploadBufferBytes : UInt64 := 8 * 1024 * 1024
def BIGBUFFER_MINDATARATE : UInt32 := 75 * 1024
def MAXPRIORITYCOLL_SIZE : UInt64 := 50 * 1024

inductive UploadState where
  | Uploading | OnUploadQueue | Connecting | Banned | None
  deriving DecidableEq

/-- What a part file still misses and what of it is not on disk yet. -/
structure PartData (fileSize : Nat) where
  gapList : List Interval
  bufferedData : List Interval
  flushingData : List Interval
  completionRunning : Bool
  wellFormed : WellFormed fileSize gapList

/-- A shared file; one still being downloaded has its part data. -/
structure SharedFile where
  fileName : QString
  fileSize : UInt64
  partData : Option (PartData fileSize.toNat)

namespace SharedFile

def isPartFile (f : SharedFile) : Bool := f.partData.isSome

def uploadReadsOnHold (f : SharedFile) : Bool := f.partData.any (·.completionRunning)

def hasCollectionExtension (fileName : QString) : Bool :=
  (QString.lit ".emulecollection").isSuffixOf (fileName.map QString.foldCase)

end SharedFile

def PartData.isCompleteBDSafe {fileSize : Nat} (f : PartData fileSize) (start stop : Nat) : Bool :=
  if fileSize = 0 then false
  else
    let stop := min stop (fileSize - 1)
    if start > stop ∨ isCompleteRange start stop f.gapList = false then false
    else
      let overlaps := fun bd : Interval => decide (bd.start ≤ stop ∧ bd.stop ≥ start)
      !f.bufferedData.any overlaps && !f.flushingData.any overlaps

/-- The bytes a block is of; the first after it is `endOffset`. -/
structure BlockRange where
  fileID : MD4Hash
  startOffset : UInt64
  endOffset : UInt64
  deriving DecidableEq

structure RequestedBlock extends BlockRange where
  readQueued : Bool := false
  deriving DecidableEq

def BlockRange.length (b : BlockRange) : UInt64 := b.endOffset - b.startOffset

structure UploadQueueView where
  diskIOThread : Bool
  /-- The client is on the uploading list. -/
  isDownloading : Bool

/-- What a call finds outside the slot. -/
structure Surroundings where
  sharedFileList : Option (MD4Hash → Option SharedFile)
  uploadQueue : Option UploadQueueView
  upDatarate : UInt32
  payloadInBuffer : UInt64
  isRepeatChunkRequest : BlockRange → Bool

def Surroundings.getFileByID (env : Surroundings) (fileID : MD4Hash) : Option SharedFile :=
  env.sharedFileList.bind fun files => files fileID

/-- What has happened to blocks: each with the file it was looked up in. -/
inductive BlockEvent where
  | accepted (range : BlockRange) (file : SharedFile)
  | readQueued (range : BlockRange) (file : SharedFile)

/-- The upload slot of a client; `history` is what happened to its blocks, newest first. -/
structure UploadSlot where
  uploadState : UploadState
  collectionUploadSlot : Bool
  blockRequests : List RequestedBlock
  doneBlocks : List RequestedBlock
  blockReadBytesQueued : UInt64
  slotBlocksAsked : UInt32
  slotBlocksAccepted : UInt32
  slotBlocksServed : UInt32
  history : List BlockEvent

/-- What a pass over the requests leaves, and the reads it hands to the disk thread. -/
structure ReadPass where
  blockRequests : List RequestedBlock
  blockReadBytesQueued : UInt64
  queued : List BlockEvent

namespace UploadSlot

def init : UploadSlot where
  uploadState := .None
  collectionUploadSlot := false
  blockRequests := []
  doneBlocks := []
  blockReadBytesQueued := 0
  slotBlocksAsked := 0
  slotBlocksAccepted := 0
  slotBlocksServed := 0
  history := []

/-- How much of the slot's data may be on its way at once. -/
def readLimit (upDatarate : UInt32) : UInt64 :=
  let emBlockSize := UInt64.ofNat EMBLOCKSIZE
  let limit := if upDatarate>BIGBUFFER_MINDATARATE then 5*emBlockSize+1 else emBlockSize+1
  max limit (min (upDatarate.toUInt64*2) kMaxUploadBufferBytes)

/-- The loop of `startBlockReads` from one request on. -/
def readLoop (env : Surroundings) (limit : UInt64) : List RequestedBlock → UInt64 → ReadPass
  | [], bytes => ⟨[],bytes,[]⟩
  | block::rest, bytes =>
    if block.readQueued then
      let pass := readLoop env limit rest bytes
      { pass with blockRequests := block::pass.blockRequests }
    else if env.payloadInBuffer+bytes≥limit then ⟨block::rest,bytes,[]⟩
    else
      match env.getFileByID block.fileID with
      | none => readLoop env limit rest bytes
      | some srcFile =>
        if srcFile.uploadReadsOnHold then ⟨block::rest,bytes,[]⟩
        else
          let pass := readLoop env limit rest (bytes+block.length)
          { pass with
            blockRequests := { block with readQueued := true } :: pass.blockRequests
            queued := pass.queued++[.readQueued block.toBlockRange srcFile] }

def startBlockReads (env : Surroundings) (s : UploadSlot) : UploadSlot :=
  if s.uploadState ≠ .Uploading ∨ env.sharedFileList.isNone then s
  else
    match env.uploadQueue with
    | none => s
    | some queue =>
      if queue.diskIOThread = false then s
      else
        let pass := readLoop env (readLimit env.upDatarate) s.blockRequests s.blockReadBytesQueued
        { s with
          blockRequests := pass.blockRequests
          blockReadBytesQueued := pass.blockReadBytesQueued
          history := pass.queued ++ s.history }

def flushSendBlocks (s : UploadSlot) : UploadSlot :=
  { s with
    blockRequests := []
    blockReadBytesQueued := 0
    doneBlocks := []
    slotBlocksAsked := 0
    slotBlocksAccepted := 0
    slotBlocksServed := 0 }

/-- `removeFromUploadQueue`, of this client. -/
def removeFromUploadQueue (queue : UploadQueueView) (s : UploadSlot) : UploadSlot :=
  if queue.isDownloading then
    flushSendBlocks { s with uploadState := .None, collectionUploadSlot := false }
  else s

def ban (s : UploadSlot) : UploadSlot := { s with uploadState := .Banned }

/-- A collection slot serves one small file only. -/
def collectionRefuses (env : Surroundings) (fileID : MD4Hash) (s : UploadSlot) : Bool :=
  s.collectionUploadSlot && (env.getFileByID fileID).any fun srcFile =>
    !SharedFile.hasCollectionExtension srcFile.fileName || srcFile.fileSize>MAXPRIORITYCOLL_SIZE

def sameBlock (reqBlock : BlockRange) (b : RequestedBlock) : Bool := b.toBlockRange == reqBlock

/-- A gap or unflushed bytes of a part file would go out as zeros. -/
def incomplete (srcFile : SharedFile) (reqBlock : BlockRange) : Bool :=
  match srcFile.partData with
  | none => false
  | some part => reqBlock.endOffset > reqBlock.startOffset &&
    !part.isCompleteBDSafe reqBlock.startOffset.toNat (reqBlock.endOffset - 1).toNat

/-- The checks of `addReqBlock` from the file's on. -/
def admitBlock (env : Surroundings) (srcFile : SharedFile) (reqBlock : BlockRange)
    (s : UploadSlot) : UploadSlot :=
  if incomplete srcFile reqBlock then s
  else if reqBlock.startOffset≥reqBlock.endOffset ∨
      reqBlock.endOffset>srcFile.fileSize then s
  else if reqBlock.length>UInt64.ofNat (EMBLOCKSIZE*3) then s
  else if s.doneBlocks.any (sameBlock reqBlock) ∨ s.blockRequests.any (sameBlock reqBlock) then s
  else if env.isRepeatChunkRequest reqBlock then
    match env.uploadQueue with
    | none => s.ban
    | some queue => s.ban.removeFromUploadQueue queue
  else if s.blockRequests.length≥kMaxPendingBlockRequests then s
  else
    startBlockReads env
      { s with
        blockRequests := s.blockRequests++[{ toBlockRange := reqBlock }]
        slotBlocksAccepted := s.slotBlocksAccepted+1
        history := .accepted reqBlock srcFile::s.history }

def addReqBlock (env : Surroundings) (reqBlock : BlockRange) (s : UploadSlot) : UploadSlot :=
  if s.uploadState ≠ .Uploading then s
  else
    let s := { s with slotBlocksAsked := s.slotBlocksAsked + 1 }
    if s.collectionRefuses env reqBlock.fileID then s
    else
      match env.getFileByID reqBlock.fileID with
      | none => s
      | some srcFile => s.admitBlock env srcFile reqBlock

def requeueBlockRead (range : BlockRange) (s : UploadSlot) : UploadSlot × Bool :=
  match splitFirst (fun b => b.readQueued && sameBlock range b) s.blockRequests with
  | none => (s, false)
  | some (before, block, after) =>
    ({ s with
        blockRequests := before ++ { block with readQueued := false } :: after
        blockReadBytesQueued :=
          s.blockReadBytesQueued - min s.blockReadBytesQueued range.length }, true)

def markBlockDone (range : BlockRange) (s : UploadSlot) : UploadSlot × Bool :=
  match splitFirst (sameBlock range) s.blockRequests with
  | none => (s, false)
  | some (before, block, after) =>
    ({ s with
        blockRequests := before ++ after
        doneBlocks := (block :: s.doneBlocks).take kMaxDoneBlocks
        blockReadBytesQueued :=
          if block.readQueued then s.blockReadBytesQueued - min s.blockReadBytesQueued range.length
          else s.blockReadBytesQueued
        slotBlocksServed := s.slotBlocksServed + 1 }, true)

/-- The three blocks of a parts request: the starts, then the ends. -/
def readRequestParts (i64Offsets : Bool) : Reader (List BlockRange) := do
  let readOffset := if i64Offsets then Reader.readUInt64 else Reader.readUInt32
  let fileHash ← Digest.read 16
  let starts ← [(),(),()].mapM fun _ => readOffset
  let ends ← [(),(),()].mapM fun _ => readOffset
  return (starts.zip ends).map fun r => ⟨fileHash,UInt64.ofNat r.1,UInt64.ofNat r.2⟩

def processRequestParts (env : Surroundings) (data : List UInt8) (i64Offsets : Bool)
    (s : UploadSlot) : UploadSlot :=
  if data.length < (if i64Offsets then 64 else 40) then s
  else
    match readRequestParts i64Offsets data with
    | .error _ => s
    | .ok (blocks, _) =>
      (blocks.filter fun b => b.startOffset < b.endOffset).foldl (fun s b => s.addReqBlock env b) s

/-- What moves a slot: packets, the disk thread's answers in any order, and the queue. -/
inductive Call where
  | addReqBlock (env : Surroundings) (reqBlock : BlockRange)
  | processRequestParts (env : Surroundings) (data : List UInt8) (i64Offsets : Bool)
  | startBlockReads (env : Surroundings)
  | requeueBlockRead (range : BlockRange)
  | markBlockDone (range : BlockRange)
  | flushSendBlocks
  | setUploadState (state : UploadState)
  | setCollectionUploadSlot (v : Bool)

def step (s : UploadSlot) : Call → UploadSlot
  | .addReqBlock env reqBlock => s.addReqBlock env reqBlock
  | .processRequestParts env data i64Offsets => s.processRequestParts env data i64Offsets
  | .startBlockReads env => s.startBlockReads env
  | .requeueBlockRead range => (s.requeueBlockRead range).1
  | .markBlockDone range => (s.markBlockDone range).1
  | .flushSendBlocks => s.flushSendBlocks
  | .setUploadState state => { s with uploadState := state }
  | .setCollectionUploadSlot v => { s with collectionUploadSlot := v }

end UploadSlot

end EmuleQt.Client
