import EmuleQt.Client.CorruptionBlackBox
import EmuleQt.Crypto.FileIdentifier
import EmuleQt.Files.GapList

namespace EmuleQt.Files

open Client Crypto Math Utils

inductive PartFileStatus
  | Ready | Empty | WaitingForHash | Hashing | Error | Insufficient | Unknown | Paused
  | Completing | Complete
  deriving DecidableEq

/-- A block that is not on disk yet; `data` is empty while the disk worker has it. -/
structure BufferedData extends Interval where
  data : List UInt8
  deriving DecidableEq

structure PartFile where
  identifier : FileIdentifier
  gapList : List Interval
  bufferedData : List BufferedData
  flushingData : List BufferedData
  requestedBlocks : List Interval
  corruptedParts : List UInt16
  changedParts : List Bool
  partsAwaitingHashset : List Bool
  corruptionBlackBox : CorruptionBlackBox
  corruptionLoss : Nat
  ichPartsSaved : Nat
  status : PartFileStatus
  destroying : Bool
  md4HashsetNeeded : Bool
  aichPartHashsetNeeded : Bool
  deriving DecidableEq

/-- The bytes `start` to `stop` overlap the block. -/
def BufferedData.overlaps (bd : BufferedData) (start stop : Nat) : Bool :=
  decide (bd.start ≤ stop ∧ bd.stop ≥ start)

/-- `corruptedData` block by block over the bytes of a part. -/
def corruptBlocks (partStart partEnd : Nat) (box : CorruptionBlackBox) : CorruptionBlackBox :=
  (List.range ((partEnd-partStart)/EMBLOCKSIZE+1)).foldl
    (fun box i =>
      let pos := partStart+i*EMBLOCKSIZE
      let blockEnd := min (pos+EMBLOCKSIZE-1) partEnd
      if h : pos≤blockEnd then box.corruptedData ⟨pos,blockEnd,h⟩ else box)
    box

namespace PartFile

def fileSize (f : PartFile) : Nat := f.identifier.fileSize

def partCount (f : PartFile) : Nat := partsOf f.fileSize % 2 ^ 16

def partStart (part : Nat) : Nat := PARTSIZE * part

theorem partStart_lt_of_partsOf {fileSize part : Nat} (hpart : part<partsOf fileSize%2^16) :
    partStart part<fileSize := by
  have hcount : part<partsOf fileSize := Nat.lt_of_lt_of_le hpart (Nat.mod_le _ _)
  have hbound : partsOf fileSize≤(fileSize+PARTSIZE-1)/PARTSIZE :=
    Nat.div_le_div_right (Nat.mod_le _ _)
  have hmul : (part+1)*PARTSIZE≤fileSize+PARTSIZE-1 :=
    (Nat.le_div_iff_mul_le PARTSIZE_pos).mp (Nat.lt_of_lt_of_le hcount hbound)
  have hpos := PARTSIZE_pos
  rw [Nat.succ_mul,Nat.mul_comm] at hmul
  unfold partStart
  omega

def partEnd (f : PartFile) (part : Nat) : Nat :=
  min (PARTSIZE + partStart part - 1) (f.fileSize - 1)

def isComplete (f : PartFile) (part : Nat) : Bool :=
  decide (part < f.partCount) && isCompleteRange (partStart part) (f.partEnd part) f.gapList

def isCompleteBDSafe (f : PartFile) (start stop : Nat) : Bool :=
  if f.fileSize = 0 then false
  else
    let stop := min stop (f.fileSize - 1)
    decide (start ≤ stop) && isCompleteRange start stop f.gapList &&
      !(f.bufferedData.any fun bd => bd.overlaps start stop) &&
      !(f.flushingData.any fun bd => bd.overlaps start stop)

def isCorruptedPart (f : PartFile) (partNumber : Nat) : Bool :=
  decide (UInt16.ofNat partNumber ∈ f.corruptedParts)

def dropCorruptedPart (f : PartFile) (partNumber : Nat) : PartFile :=
  { f with corruptedParts := f.corruptedParts.erase (UInt16.ofNat partNumber) }

def removeBlockFromList (f : PartFile) (start stop : Nat) : PartFile :=
  { f with requestedBlocks := f.requestedBlocks.erase ⟨start, stop⟩ }

def canBeShared (f : PartFile) : Bool :=
  f.identifier.hasExpectedMD4HashCount && (List.range f.partCount).any f.isComplete

/-- `theApp.sharedFileList` may be missing. -/
def addToSharedFiles (f : PartFile) (sharedFileList : Bool) : PartFile :=
  if f.destroying ∨ sharedFileList = false ∨ f.status ≠ .Empty ∨ f.canBeShared = false then f
  else { f with status := .Ready }

/-- `verifiedData` of the black box on the bytes of a part. -/
def verifiedData (f : PartFile) (start stop : Nat) : PartFile :=
  if h : start ≤ stop then
    { f with corruptionBlackBox := f.corruptionBlackBox.verifiedData ⟨start, stop, h⟩ }
  else f

/-- For the part from `partStart` to `partEnd`. -/
def markPartCorrupted (f : PartFile) (partStart partEnd : Nat) : PartFile :=
  { f with corruptionBlackBox := corruptBlocks partStart partEnd f.corruptionBlackBox }

end PartFile

end EmuleQt.Files
