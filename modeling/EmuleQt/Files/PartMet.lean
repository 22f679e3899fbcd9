import EmuleQt.Files.GapQueries
import EmuleQt.Protocol.TagRoundTrip
import EmuleQt.Utils.OtherFunctions
import Mathlib.Data.UInt

namespace EmuleQt.Files

open Crypto Math Protocol Utils

def PARTFILE_VERSION : Nat := 0xe0
def PARTFILE_SPLITTEDVERSION : Nat := 0xe1
def PARTFILE_VERSION_LARGEFILE : Nat := 0xe2

def MAX_EMULE_FILE_SIZE : Nat := 0x4000000000
def OLD_MAX_EMULE_FILE_SIZE : Nat := 4290048000
def UINT64_MAX : Nat := 2 ^ 64 - 1

def FT_FILENAME : UInt8 := 0x01
def FT_FILESIZE : UInt8 := 0x02
def FT_FILESIZE_HI : UInt8 := 0x3A
def FT_LASTSEENCOMPLETE : UInt8 := 0x05
def FT_TRANSFERRED : UInt8 := 0x08
def FT_GAPSTART : UInt8 := 0x09
def FT_GAPEND : UInt8 := 0x0A
def FT_STATUS : UInt8 := 0x14
def FT_DLPRIORITY : UInt8 := 0x18
def FT_ULPRIORITY : UInt8 := 0x19
def FT_COMPRESSION : UInt8 := 0x1A
def FT_CORRUPTED : UInt8 := 0x1B
def FT_DL_ACTIVE_TIME : UInt8 := 0x23
def FT_CORRUPTEDPARTS : UInt8 := 0x24
def FT_DL_PREVIEW : UInt8 := 0x25
def FT_AICH_HASH : UInt8 := 0x27
def FT_AICHHASHSET : UInt8 := 0x35
def FT_CATEGORY : UInt8 := 0x53
def FT_MAXSOURCES : UInt8 := 0x55
def FT_KADNOTECACHE : UInt8 := 0x90
def FT_NAMELOCKED : UInt8 := 0x93
def FT_WEBSEED : UInt8 := 0x95

def kPrLow : UInt8 := 0
def kPrNormal : UInt8 := 1
def kPrHigh : UInt8 := 2
def kPrVeryHigh : UInt8 := 3
def kPrVeryLow : UInt8 := 4
def kPrAuto : UInt8 := 5

/-- The members of a `PartFile` that its `.part.met` holds. The fields in the end are what the only
setters keep: `setFileSize` of a supported size, `setDownPriority`, `setUpPriority` and
`addWebSeed`. -/
structure PartMet where
  fileName : QString
  fileSize : Nat
  fileHash : MD4Hash
  md4PartHashes : List MD4Hash
  lastModified : UInt32
  transferred : UInt64
  corruptionLoss : UInt64
  compressionGain : UInt64
  dlActiveTime : UInt32
  /-- `m_activated`, 0 while the download does not run. -/
  activated : Int
  autoDownPriority : Bool
  downPriority : UInt8
  autoUpPriority : Bool
  upPriority : UInt8
  paused : Bool
  category : UInt32
  lastSeenComplete : Int
  privateMaxSources : UInt32
  nameLocked : Bool
  webSeeds : List QString
  previewPrio : Bool
  pauseOnPreview : Bool
  corruptedParts : List UInt16
  aichHash : Option AICHHash
  /-- What `writeAICHHashsetToFile` writes, where the hash set is complete. -/
  aichHashSet : Option (List UInt8)
  /-- `serializeKadNotes`, where there are notes. -/
  kadNotes : Option (List UInt8)
  gapList : List Interval
  bufferedData : List Interval
  flushingData : List Interval
  fileSize_le : fileSize≤MAX_EMULE_FILE_SIZE
  downPriority_le : downPriority≤kPrVeryLow
  upPriority_le : upPriority≤kPrVeryLow
  webSeeds_nodup : webSeeds.Nodup
  webSeeds_ne : [] ∉ webSeeds

/-- `setDownPriority` and `setUpPriority`. -/
def knownPriority (priority : UInt8) : UInt8 := if priority≤kPrVeryLow then priority else kPrNormal

/-- `addWebSeed`. -/
def addWebSeed (url : QString) (webSeeds : List QString) : List QString :=
  if url = [] ∨ url ∈ webSeeds then webSeeds else webSeeds ++ [url]

/-- A tag with the way it is written. -/
structure WrittenTag where
  writer : Tag.Writer
  encode : UTF8Mode
  tag : Tag

namespace WrittenTag

def bytes (t : WrittenTag) : List UInt8 := (t.writer.write t.tag t.encode).2

def reread (t : WrittenTag) : Tag := t.tag.rereadTag t.writer t.encode

/-- `writeNewEd2kTag` of an integer. -/
def int (nameId : UInt8) (v : UInt32) : WrittenTag :=
  ⟨.writeNewEd2kTag, .None, Tag.ofId nameId (.uint32 v)⟩

def int64 (nameId : UInt8) (v : UInt64) : WrittenTag :=
  ⟨.writeNewEd2kTag, .None, Tag.ofId nameId (.uint64 v)⟩

def str (nameId : UInt8) (encode : UTF8Mode) (s : QString) : WrittenTag :=
  ⟨.writeNewEd2kTag, encode, Tag.ofId nameId (.string s)⟩

def blob (nameId : UInt8) (data : List UInt8) : WrittenTag :=
  ⟨.writeNewEd2kTag, .None, Tag.ofId nameId (.blob data)⟩

end WrittenTag

/-- `QByteArray::number`. -/
def asciiNumber (n : Nat) : List UInt8 := (QString.number n).map fun u => UInt8.ofNat u.toNat

namespace PartMet

def isLargeFile (s : PartMet) : Bool := decide (OLD_MAX_EMULE_FILE_SIZE < s.fileSize)

/-- `dlActiveTime()`. -/
def activeTime (s : PartMet) (now : Int) : UInt32 :=
  if s.activated ≠ 0 then s.dlActiveTime + UInt32.ofInt (now - s.activated) else s.dlActiveTime

def upPriorityTagValue (s : PartMet) : UInt8 := if s.autoUpPriority then kPrAuto else s.upPriority

/-- The value of `FT_DLPRIORITY`. -/
def downPriorityTagValue (s : PartMet) : UInt8 :=
  if s.autoDownPriority then kPrAuto else s.downPriority

def partList (corruptedParts : List UInt16) : QString :=
  [QString.comma].intercalate (corruptedParts.map fun part => QString.number part.toNat)

/-- `writeGap`: the two tags of one gap. -/
def writeGap (largeFile : Bool) (gapIndex : Nat) (gap : Interval) : List WrittenTag :=
  let startName := FT_GAPSTART :: asciiNumber gapIndex
  let endName := FT_GAPEND :: asciiNumber gapIndex
  let value (v : Nat) : TagValue :=
    if largeFile then .uint64 (UInt64.ofNat v) else .uint32 (UInt32.ofNat v)
  [⟨.writeTagToFile, .None, Tag.ofName startName (value gap.start)⟩,
    ⟨.writeTagToFile, .None, Tag.ofName endName (value (gap.stop + 1))⟩]

/-- A run that has come to `bEnd`, and the blocks after it. -/
def runsFrom (bStart bEnd : Nat) : List Interval → List Interval
  | [] => [⟨bStart,bEnd⟩]
  | it::pending =>
    if it.start=bEnd+1 then runsFrom bStart it.stop pending
    else ⟨bStart,bEnd⟩ :: runsFrom it.start it.stop pending

/-- The blocks, those that follow without a hole merged. -/
def runs : List Interval → List Interval
  | [] => []
  | it :: pending => runsFrom it.start it.stop pending

/-- Everything that is not on disk, in the order it is written. -/
def writtenGaps (s : PartMet) : List Interval :=
  s.gapList++(runs s.bufferedData++runs s.flushingData)

def gapTags (s : PartMet) : List WrittenTag :=
  (s.writtenGaps.zipIdx).flatMap fun p => writeGap s.isLargeFile (p.2%2^32) p.1

/-- A tag that is written only if its value is worth it. -/
def onlyIf (c : Bool) (t : WrittenTag) : List WrittenTag := if c then [t] else []

def sizeTags (s : PartMet) : List WrittenTag :=
  if s.isLargeFile then
    [.int FT_FILESIZE (UInt32.ofNat s.fileSize),
      .int FT_FILESIZE_HI (UInt32.ofNat (s.fileSize/2^32))]
  else [.int FT_FILESIZE (UInt32.ofNat s.fileSize)]

def transferredTag (s : PartMet) : WrittenTag :=
  if 0xFFFFFFFF<s.transferred then .int64 FT_TRANSFERRED s.transferred
  else .int FT_TRANSFERRED s.transferred.toUInt32

/-- Bit 0 preview priority, bit 1 pause on preview. -/
def previewFlags (s : PartMet) : UInt32 :=
  (if s.pauseOnPreview then 2 else 0) ||| (if s.previewPrio then 1 else 0)

/-- The counters and settings, in the order of `savePartFile`. -/
def settingTags (s : PartMet) (now : Int) : List (List WrittenTag) :=
  [s.sizeTags,
    [s.transferredTag,.int FT_DLPRIORITY s.downPriorityTagValue.toUInt32,
      .int FT_ULPRIORITY s.upPriorityTagValue.toUInt32,.int FT_STATUS (if s.paused then 1 else 0),
      .int FT_CATEGORY s.category],
    onlyIf (decide (0<s.corruptionLoss)) (.int FT_CORRUPTED s.corruptionLoss.toUInt32),
    onlyIf (decide (0<s.compressionGain)) (.int FT_COMPRESSION s.compressionGain.toUInt32),
    onlyIf (decide (0<s.activeTime now)) (.int FT_DL_ACTIVE_TIME (s.activeTime now)),
    onlyIf (decide (0<s.lastSeenComplete))
      (.int FT_LASTSEENCOMPLETE (UInt32.ofInt s.lastSeenComplete)),
    onlyIf (decide (0<s.privateMaxSources)) (.int FT_MAXSOURCES s.privateMaxSources),
    onlyIf s.nameLocked (.int FT_NAMELOCKED 1),
    s.webSeeds.map (.str FT_WEBSEED .OptBOM),
    onlyIf (s.previewPrio || s.pauseOnPreview) (.int FT_DL_PREVIEW s.previewFlags),
    onlyIf (decide (s.corruptedParts≠[])) (.str FT_CORRUPTEDPARTS .Raw (partList s.corruptedParts))]

/-- The AICH hashes and the notes. -/
def hashTags (s : PartMet) : List (List WrittenTag) :=
  [s.aichHash.toList.map fun h => .str FT_AICH_HASH .Raw (encodeBase32 h.bytes),
    s.aichHashSet.toList.map (.blob FT_AICHHASHSET),
    s.kadNotes.toList.map (.blob FT_KADNOTECACHE)]

/-- The tags of `savePartFile`. -/
def metTags (s : PartMet) (now : Int) : List WrittenTag :=
  .str FT_FILENAME .OptBOM s.fileName ::
    ((s.settingTags now).flatten++(s.hashTags.flatten++s.gapTags))

def hashCount (s : PartMet) : Nat := s.md4PartHashes.length % 2 ^ 16

/-- What comes before the tags. -/
def metStart (s : PartMet) : List UInt8 :=
  writeUInt8 (if s.isLargeFile then PARTFILE_VERSION_LARGEFILE else PARTFILE_VERSION) ++
    (writeUInt32 s.lastModified.toNat++(s.fileHash.bytes++(writeUInt16 s.hashCount ++
      (s.md4PartHashes.take s.hashCount).flatMap Digest.bytes)))

/-- The file `savePartFile` writes, with the tag count patched in. -/
def savePartFile (s : PartMet) (now : Int) : List UInt8 :=
  s.metStart ++ (writeUInt32 (s.metTags now).length ++ (s.metTags now).flatMap WrittenTag.bytes)

end PartMet

/-- One gap of a `std::map` by index; `UINT64_MAX` where nothing was read. -/
structure NamedGap where
  index : Nat
  first : Nat
  second : Nat
  deriving DecidableEq

/-- `namedGaps[index]`, changed. -/
def changeGap (index : Nat) (f : NamedGap → NamedGap) : List NamedGap → List NamedGap
  | [] => [f ⟨index,UINT64_MAX,UINT64_MAX⟩]
  | gap::gaps =>
    if index=gap.index then f gap::gaps
    else if index<gap.index then f ⟨index,UINT64_MAX,UINT64_MAX⟩ :: gap::gaps
    else gap::changeGap index f gaps

/-- What `loadPartFile` sets as it reads. `others` are the tags the other branches of the switch
take: the name, the AICH hashes, the notes, and those it does not know. -/
structure LoadedMet where
  fileHash : MD4Hash
  md4PartHashes : List MD4Hash
  lastModified : UInt32
  fileSize : Nat
  transferred : UInt64
  corruptionLoss : UInt64
  compressionGain : UInt64
  dlActiveTime : UInt32
  autoDownPriority : Bool
  downPriority : UInt8
  autoUpPriority : Bool
  upPriority : UInt8
  paused : Bool
  category : UInt32
  lastSeenComplete : Int
  privateMaxSources : UInt32
  nameLocked : Bool
  webSeeds : List QString
  previewPrio : Bool
  pauseOnPreview : Bool
  corruptedParts : List UInt16
  others : List Tag
  namedGaps : List NamedGap
  gapPairs : List (Nat × Nat)
  pendingGapStart : Nat
  gapList : List Interval

namespace LoadedMet

/-- A new `PartFile`; the preferences say whether priorities are automatic. -/
def fresh (category : UInt32) (autoDown autoUp : Bool) : LoadedMet where
  fileHash := Digest.zero 16
  md4PartHashes := []
  lastModified := 0
  fileSize := 0
  transferred := 0
  corruptionLoss := 0
  compressionGain := 0
  dlActiveTime := 0
  autoDownPriority := autoDown
  downPriority := kPrNormal
  autoUpPriority := autoUp
  upPriority := if autoUp then kPrHigh else kPrNormal
  paused := false
  category := category
  lastSeenComplete := 0
  privateMaxSources := 0
  nameLocked := false
  webSeeds := []
  previewPrio := false
  pauseOnPreview := false
  corruptedParts := []
  others := []
  namedGaps := []
  gapPairs := []
  pendingGapStart := UINT64_MAX
  gapList := []

/-- `tag.intValue()` of a tag that `isInt()`. -/
def intValue : TagValue → Option UInt32
  | .uint32 v => some v
  | _ => none

/-- `tag.intValue()` or `tag.int64Value()`. -/
def anyInt : TagValue → Option UInt64
  | .uint32 v => some v.toUInt64
  | .uint64 v => some v
  | _ => none

def strValue : TagValue → Option QString
  | .string s => some s
  | _ => none

/-- `QString::toUShort`. -/
def toUShort (s : QString) : Option UInt16 :=
  match QString.toULongLong s with
  | some n => if n < 2 ^ 16 then some (UInt16.ofNat n) else none
  | none => none

/-- `QByteArray::toUInt`. -/
def toUInt (s : List UInt8) : Nat :=
  match QString.toULongLong (QString.fromLatin1 s) with
  | some n => if n < 2 ^ 32 then n else 0
  | none => 0

def setDownPriorityFromTag (v : UInt32) (l : LoadedMet) : LoadedMet :=
  let val := v.toUInt8
  if val=kPrAuto then { l with autoDownPriority := true, downPriority := kPrNormal }
  else { l with autoDownPriority := false, downPriority := knownPriority val }

def setUpPriorityFromTag (v : UInt32) (l : LoadedMet) : LoadedMet :=
  if v = kPrAuto.toUInt32 then { l with autoUpPriority := true, upPriority := kPrHigh }
  else
    { l with
      autoUpPriority := false
      upPriority := if v ≤ kPrVeryLow.toUInt32 then v.toUInt8 else kPrNormal }

/-- The `default` branch: gaps by name or, from older builds, by number. -/
def loadGapTag (l : LoadedMet) (t : Tag) : LoadedMet :=
  let gapValue := ((anyInt t.value).getD 0).toNat
  let nameByte := t.name.headD 0
  if t.nameId=0 ∧ (nameByte=FT_GAPSTART ∨ nameByte=FT_GAPEND) then
    match anyInt t.value with
    | none => l
    | some _ =>
      let index := toUInt t.name.tail
      if nameByte=FT_GAPSTART then
        { l with namedGaps := changeGap index (fun g => { g with first := gapValue }) l.namedGaps }
      else { l with namedGaps := changeGap index (fun g => { g with second := gapValue }) l.namedGaps }
  else if t.nameId=FT_GAPSTART then { l with pendingGapStart := gapValue }
  else if t.nameId=FT_GAPEND then
    if l.pendingGapStart≠UINT64_MAX then
      { l with gapPairs := l.gapPairs++[(l.pendingGapStart, gapValue)], pendingGapStart := UINT64_MAX }
    else l
  else { l with others := l.others++[t] }

/-- One tag; a tag of another type than its branch wants is dropped. -/
def loadTag (newStyle : Bool) (l : LoadedMet) (t : Tag) : LoadedMet :=
  if t.nameId=FT_FILESIZE then
    match anyInt t.value with
    | some v => { l with fileSize := v.toNat }
    | none => l
  else if t.nameId=FT_FILESIZE_HI then
    match intValue t.value with
    | some hi => { l with fileSize := (hi.toNat*2^32) ||| l.fileSize }
    | none => l
  else if t.nameId=FT_LASTSEENCOMPLETE then
    match intValue t.value with
    | some v => { l with lastSeenComplete := v.toNat }
    | none => l
  else if t.nameId=FT_MAXSOURCES then
    match intValue t.value with
    | some v => { l with privateMaxSources := v }
    | none => l
  else if t.nameId=FT_NAMELOCKED then
    match intValue t.value with
    | some v => { l with nameLocked := decide (v≠0) }
    | none => l
  else if t.nameId=FT_WEBSEED then
    match strValue t.value with
    | some url => { l with webSeeds := addWebSeed url l.webSeeds }
    | none => l
  else if t.nameId=FT_DL_PREVIEW then
    match intValue t.value with
    | some v =>
      { l with previewPrio := decide (v &&& 1≠0), pauseOnPreview := decide (v &&& 2≠0) }
    | none => l
  else if t.nameId=FT_TRANSFERRED then
    match anyInt t.value with
    | some v => { l with transferred := v }
    | none => l
  else if t.nameId=FT_CORRUPTED then
    match anyInt t.value with
    | some v => { l with corruptionLoss := v }
    | none => l
  else if t.nameId=FT_COMPRESSION then
    match anyInt t.value with
    | some v => { l with compressionGain := v }
    | none => l
  else if t.nameId=FT_ULPRIORITY then
    match intValue t.value with
    | some v => if newStyle then l else setUpPriorityFromTag v l
    | none => l
  else if t.nameId=FT_DLPRIORITY then
    match intValue t.value with
    | some v => if newStyle then l else setDownPriorityFromTag v l
    | none => l
  else if t.nameId=FT_STATUS then
    match intValue t.value with
    | some v => { l with paused := decide (v≠0) }
    | none => l
  else if t.nameId=FT_CATEGORY then
    match intValue t.value with
    | some v => { l with category := v }
    | none => l
  else if t.nameId=FT_DL_ACTIVE_TIME then
    match intValue t.value with
    | some v => { l with dlActiveTime := v }
    | none => l
  else if t.nameId=FT_CORRUPTEDPARTS then
    match strValue t.value with
    | some parts =>
      { l with corruptedParts :=
          l.corruptedParts++(parts.splitOn QString.comma).filterMap toUShort }
    | none => l
  else if t.nameId=FT_FILENAME ∨ t.nameId=FT_AICH_HASH ∨ t.nameId=FT_AICHHASHSET ∨
      t.nameId=FT_KADNOTECACHE then { l with others := l.others++[t] }
  else l.loadGapTag t

/-- `readTagCount` with `kMaxFileTags`: no more tags than bytes are left. -/
def readTagCount : Reader Nat := do
  let count ← Reader.readUInt32
  let left ← Reader.remaining
  if count > left then Reader.throw ⟨"Implausible tag count"⟩ else pure count

def seekTo (file : List UInt8) (position : Nat) : Reader Unit := fun _ => .ok ((), file.drop position)

/-- The kind of file its first bytes say it is. -/
inductive MetKind
  | partMet (newStyle : Bool)
  | shareaza
  | unknown
  deriving DecidableEq

/-- The version and, for eDonkey's "old part style", the mark at 24. -/
def readKind (file : List UInt8) : Reader MetKind := do
  let version ← Reader.readUInt8
  if version≠PARTFILE_VERSION ∧ version≠PARTFILE_VERSION_LARGEFILE ∧
      version≠PARTFILE_SPLITTEDVERSION then
    pure (if version=0x53 then .shareaza else .unknown)
  else if version=PARTFILE_SPLITTEDVERSION then pure (.partMet true)
  else if 28≤file.length then do
    seekTo file 24
    let mark ← Reader.readUInt32
    seekTo file 1
    pure (.partMet (decide (mark=0x01020000)))
  else pure (.partMet false)

def readHashes : (count : Nat) → Reader (List MD4Hash)
  | 0 => pure []
  | count+1 => do
    let hash ← Digest.read 16
    let hashes ← readHashes count
    pure (hash::hashes)

def readHashSet (l : LoadedMet) : Reader LoadedMet := do
  let hash ← Digest.read 16
  let hashCount ← Reader.readUInt16
  let hashes ← readHashes hashCount
  pure { l with fileHash := hash, md4PartHashes := hashes }

/-- What stands between the version and the tags. -/
def readStart (file : List UInt8) (newStyle : Bool) (l : LoadedMet) : Reader LoadedMet :=
  if newStyle=false then do
    let date ← Reader.readUInt32
    readHashSet { l with lastModified := UInt32.ofNat date }
  else do
    let first ← Reader.readUInt32
    if first=0 then readHashSet l
    else do
      seekTo file 2
      let date ← Reader.readUInt32
      let hash ← Digest.read 16
      pure { l with lastModified := UInt32.ofNat date, fileHash := hash, md4PartHashes := [] }

def readMet (file : List UInt8) (newStyle : Bool) (l : LoadedMet) : Reader LoadedMet := do
  let l ← readStart file newStyle l
  let tagCount ← readTagCount
  let tags ← Tag.readMany true tagCount
  pure (tags.foldl (loadTag newStyle) l)

/-- Named gaps win; their end is the first byte after them. -/
def readGaps (l : LoadedMet) : List (Nat × Nat) :=
  if l.namedGaps=[] then l.gapPairs
  else l.namedGaps.filterMap fun gap =>
    if gap.first≠UINT64_MAX ∧ gap.second≠UINT64_MAX ∧ 0<gap.second then
      some (gap.first, gap.second-1)
    else none

/-- The order of `std::pair`. -/
def pairLe (a b : Nat × Nat) : Bool := decide (a.1<b.1 ∨ a.1=b.1 ∧ a.2≤b.2)

/-- One of the sorted gaps is clamped to the file and merged. The last gap stands first. -/
def placeGap (fileSize : Nat) (gaps : List Interval) (gap : Nat × Nat) : List Interval :=
  let gEnd := if gap.2≥fileSize then fileSize-1 else gap.2
  if fileSize=0 ∨ gap.1≥fileSize ∨ gap.1>gEnd then gaps
  else
    match gaps with
    | [] => [⟨gap.1,gEnd⟩]
    | back::gaps =>
      if gap.1≤back.stop+1 then ⟨back.start,max back.stop gEnd⟩ :: gaps
      else ⟨gap.1,gEnd⟩ :: back::gaps

def mergedGaps (l : LoadedMet) : List Interval :=
  ((l.readGaps.mergeSort pairLe).foldl (placeGap l.fileSize) []).reverse

/-- A `.part` that is shorter than the file has lost its end. -/
def addTail (partLength : Nat) (l : LoadedMet) : LoadedMet :=
  if 0<l.fileSize ∧ partLength<l.fileSize ∧
      isPureGap partLength (l.fileSize-1) l.gapList=false then
    { l with gapList := addGap l.fileSize partLength (l.fileSize-1) l.gapList }
  else l

end LoadedMet

inductive PartFileLoadResult
  | LoadSuccess (l : LoadedMet)
  | FailedCorrupt
  | FailedOther
  | FailedNoAccess
  /-- The import of a Shareaza download takes over. -/
  | importShareaza

/-- `loadPartFile` into `l`; `partLength` is the length of the `.part`, if there is one. -/
def loadPartFile (l : LoadedMet) (partLength : Option Nat) (file : List UInt8) :
    PartFileLoadResult :=
  match LoadedMet.readKind file file with
  | .error _ => .FailedCorrupt
  | .ok (.shareaza, _) => .importShareaza
  | .ok (.unknown, _) => .FailedCorrupt
  | .ok (.partMet newStyle, rest) =>
    match LoadedMet.readMet file newStyle l rest with
    | .error _ => .FailedCorrupt
    | .ok (l, _) =>
      if MAX_EMULE_FILE_SIZE < l.fileSize then .FailedOther
      else
        match partLength with
        | none => .FailedNoAccess
        | some partLength =>
          .LoadSuccess (LoadedMet.addTail partLength { l with gapList := l.mergedGaps })

open Crypto Math Protocol Utils

namespace WrittenTag

/-- A tag that is written whole and reads back. -/
structure Fine (t : WrittenTag) : Prop where
  built : t.tag.Built
  fits : t.tag.Fits t.writer t.encode
  encode : t.encode ≠ .None ∨ ∀ s, t.tag.value ≠ .string s
  notBsob : ∀ data, t.tag.value ≠ .bsob data

variable {t : WrittenTag} {ts : List WrittenTag} {nameId : UInt8} {encode : UTF8Mode} {s : QString}
  {data : List UInt8}

theorem write_of_not_string {w : Tag.Writer} {t : Tag} (h : ∀ s,t.value ≠ .string s)
    (encode encode' : UTF8Mode) : w.write t encode=w.write t encode' := by
  obtain ⟨value,name,nameId⟩ := t
  cases w <;> cases value <;> first | rfl | exact absurd rfl (h _)

theorem rereadTag_of_not_string {w : Tag.Writer} {t : Tag} (h : ∀ s,t.value ≠ .string s)
    (encode encode' : UTF8Mode) : t.rereadTag w encode=t.rereadTag w encode' := by
  obtain ⟨value,name,nameId⟩ := t
  cases value <;> first | rfl | exact absurd rfl (h _)

theorem Fine.not_refused (h : t.Fine) : (t.writer.write t.tag t.encode).1 ≠ .ok false := by
  obtain ⟨writer,encode,value,name,nameId⟩ := t
  obtain ⟨hbuilt,hfits,-,hbsob⟩ := h
  cases value with
  | none => exact absurd rfl hbuilt.1
  | bsob data => exact absurd rfl (hbsob data)
  | string s =>
    cases writer with
    | writeTagToFile =>
      have hlen : ¬(encodeString s encode).length>0xFFFF :=
        Nat.not_lt.mpr (Nat.le_of_lt_succ hfits.2)
      simp [Tag.Writer.write,Tag.writeTagToFile,writeString,hlen]
    | writeNewEd2kTag =>
      simp only [Tag.Writer.write,Tag.writeNewEd2kTag]
      split_ifs <;> simp
  | _ => cases writer <;> simp [Tag.Writer.write,Tag.writeTagToFile,Tag.writeNewEd2kTag]

theorem Fine.readsBack (h : t.Fine) (rest : List UInt8) :
    Tag.read true (t.bytes++rest) = .ok (t.reread, rest) := by
  have hread : t.tag.ReadsBack t.writer t.encode := by
    by_cases hmode : t.encode = .None
    · have hstring := h.encode.resolve_left (fun hne => hne hmode)
      have hfits : t.tag.Fits t.writer .Raw := by
        obtain ⟨hname,hvalue⟩ := h.fits
        refine ⟨hname,?_⟩
        cases hv : t.tag.value with
        | string s => exact absurd hv (hstring s)
        | _ =>
          rw [hv] at hvalue
          exact hvalue
      have hraw : t.tag.ReadsBack t.writer .Raw :=
        Tag.readsBack t.writer (by decide) h.built hfits
      unfold Tag.ReadsBack at hraw ⊢
      rwa [write_of_not_string hstring t.encode .Raw,rereadTag_of_not_string hstring t.encode .Raw]
    · exact Tag.readsBack t.writer hmode h.built h.fits
  rcases hread with hrefused | ⟨-,hread⟩
  · exact absurd (congrArg Prod.fst hrefused) h.not_refused
  · exact hread rest

theorem readMany_written (h : ∀ t∈ts,t.Fine) (rest : List UInt8) :
    Tag.readMany true ts.length (ts.flatMap bytes++rest) = .ok (ts.map reread, rest) := by
  induction ts with
  | nil => rfl
  | cons t ts ih =>
    obtain ⟨ht,hts⟩ := List.forall_mem_cons.mp h
    rw [List.flatMap_cons,List.append_assoc,List.length_cons,Tag.readMany,
      Reader.bind_ok (ht.readsBack _),Reader.bind_ok (ih hts)]
    rfl

theorem fine_int (nameId : UInt8) (v : UInt32) : (int nameId v).Fine :=
  ⟨⟨by simp [int,Tag.ofId],Or.inl rfl⟩,⟨by simp [int,Tag.ofId],trivial⟩,
    Or.inr (by simp [int,Tag.ofId]),by simp [int,Tag.ofId]⟩

theorem fine_int64 (nameId : UInt8) (v : UInt64) : (int64 nameId v).Fine :=
  ⟨⟨by simp [int64,Tag.ofId],Or.inl rfl⟩,⟨by simp [int64,Tag.ofId],trivial⟩,
    Or.inr (by simp [int64,Tag.ofId]),by simp [int64,Tag.ofId]⟩

theorem fine_str (nameId : UInt8) (hmode : encode ≠ .None)
    (h : (encodeString s encode).length<2^16) : (str nameId encode s).Fine :=
  ⟨⟨by simp [str,Tag.ofId],Or.inl rfl⟩,⟨by simp [str,Tag.ofId],h⟩,Or.inl hmode,
    by simp [str,Tag.ofId]⟩

theorem fine_blob (nameId : UInt8) (h : data.length<2^32) : (blob nameId data).Fine :=
  ⟨⟨by simp [blob,Tag.ofId],Or.inl rfl⟩,⟨by simp [blob,Tag.ofId],h⟩,
    Or.inr (by simp [blob,Tag.ofId]),by simp [blob,Tag.ofId]⟩

theorem reread_int64 (nameId : UInt8) {v : UInt64} (h : 0xFFFFFFFF<v) :
    (int64 nameId v).reread=Tag.ofId nameId (.uint64 v) := by
  have hlarge : ¬v.toNat≤0xFFFFFFFF := Nat.not_le.mpr (UInt64.lt_iff_toNat_lt.mp h)
  simp [int64,reread,Tag.rereadTag,Tag.rereadValue,Tag.ofId,Tag.rereadName,hlarge]

theorem bytes_ne_nil (h : t.Fine) : t.bytes≠[] := by
  intro hnil
  have hread := h.readsBack []
  rw [hnil] at hread
  cases hread

theorem length_le_bytes (h : ∀ t∈ts,t.Fine) : ts.length≤(ts.flatMap bytes).length := by
  induction ts with
  | nil => exact Nat.le_refl 0
  | cons t ts ih =>
    obtain ⟨ht,hts⟩ := List.forall_mem_cons.mp h
    have hpos := List.length_pos_iff.mpr (bytes_ne_nil ht)
    have hrest := ih hts
    rw [List.flatMap_cons,List.length_append,List.length_cons]
    omega

end WrittenTag

theorem asciiNumber_length_le {n : Nat} (h : n<2^32) : (asciiNumber n).length≤10 := by
  rw [asciiNumber,List.length_map]
  exact QString.number_length_le (by decide) (by omega)

theorem asciiNumber_ne_nil (n : Nat) : asciiNumber n≠[] := by
  rw [asciiNumber,ne_eq,List.map_eq_nil_iff]
  exact QString.number_ne_nil n

theorem writeGap_spec {largeFile : Bool} {gapIndex : Nat} {gap : Interval} (h : gapIndex<2^32)
    {t : WrittenTag} (ht : t∈PartMet.writeGap largeFile gapIndex gap) :
    t.Fine ∧ t.reread=t.tag := by
  have hname : ∀ b : UInt8, (b::asciiNumber gapIndex).length<2^16 := by
    intro b
    have hlen := asciiNumber_length_le h
    rw [List.length_cons]
    omega
  have hkeep : ∀ (b : UInt8) (v : TagValue),
      Tag.rereadName (Tag.ofName (b::asciiNumber gapIndex) v)=(b::asciiNumber gapIndex, 0) := by
    intro b v
    obtain ⟨c,cs,hdigits⟩ := List.exists_cons_of_ne_nil (asciiNumber_ne_nil gapIndex)
    rw [hdigits]
    rfl
  have hspec : ∀ (b : UInt8) (v : Nat),
      let value := if largeFile then TagValue.uint64 (UInt64.ofNat v) else .uint32 (UInt32.ofNat v)
      let t : WrittenTag := ⟨.writeTagToFile,.None,Tag.ofName (b::asciiNumber gapIndex) value⟩
      t.Fine ∧ t.reread=t.tag := by
    intro b v
    cases largeFile with
    | true =>
      refine ⟨⟨⟨by simp [Tag.ofName],Or.inr rfl⟩,⟨hname b,trivial⟩,Or.inr (by simp [Tag.ofName]),
        by simp [Tag.ofName]⟩,?_⟩
      simp only [WrittenTag.reread,Tag.rereadTag,hkeep]
      rfl
    | false =>
      refine ⟨⟨⟨by simp [Tag.ofName],Or.inr rfl⟩,⟨hname b,trivial⟩,Or.inr (by simp [Tag.ofName]),
        by simp [Tag.ofName]⟩,?_⟩
      simp only [WrittenTag.reread,Tag.rereadTag,hkeep]
      rfl
  rcases List.mem_cons.mp ht with rfl | ht
  · exact hspec FT_GAPSTART gap.start
  · rw [List.mem_singleton.mp ht]
    exact hspec FT_GAPEND (gap.stop+1)

end EmuleQt.Files
