import EmuleQt.Framework.FileTree
import EmuleQt.Usenet.WrittenRanges
import EmuleQt.Utils.QtPath

namespace EmuleQt.Usenet

open Utils Utils.QString

structure NzbSegment where
  messageId : QString
  bytes : Int
  number : Int
  numberText : QString
  position : Int
  deriving DecidableEq

/-- One `<file>` element. -/
structure NzbFileInfo where
  subject : QString
  poster : QString
  date : Int
  groups : List QString
  segments : List NzbSegment
  emptyIdSegments : List NzbSegment
  fileName : QString
  partsTotal : Int
  deriving DecidableEq

structure NzbInfo where
  name : QString
  password : QString
  files : List NzbFileInfo
  metaValues : List (QString × QString)
  filesWithoutSegments : Nat
  deriving DecidableEq

/-- What the rule set finds in a subject line. -/
structure SubjectInfo where
  fileName : QString
  total : Int

/-- What the reader hands out; text comes with its entities resolved, and `other` stands for
comments, instructions and the like. -/
inductive XmlToken
  | startElement (name : QString) (attributes : List (QString × QString))
  | endElement (name : QString)
  | characters (text : QString)
  | other
  deriving DecidableEq

structure XmlEvent where
  token : XmlToken
  line : Nat
  deriving DecidableEq

/-- A document as it is read: its events, and the error that ends them, if it is not well formed. -/
structure XmlDocument where
  events : List XmlEvent
  error : Option (Nat × QString)

/-- `attributes().value(name).toString()`. -/
def attrValue (attributes : List (QString × QString)) (name : QString) : QString :=
  ((attributes.find? fun a => decide (a.1=name)).map Prod.snd).getD []

/-- `QString::toLongLong` within the bounds of the type; 0 for what is no number. -/
def toInteger (bound : Nat) (s : QString) : Int :=
  let s := trimmed s
  let negative := decide (s.head? = some 0x2D)
  let digits := if negative ∨ s.head? = some 0x2B then s.tail else s
  match digits.mapM digit? with
  | none => 0
  | some ds =>
    let value : Int := if negative then -(ofDigits ds : Int) else ofDigits ds
    if ds = [] ∨ value < -(bound : Int) ∨ value ≥ bound then 0 else value

def isMessageIdSpace (u : UInt16) : Bool :=
  decide (u=0x20 ∨ u=0x09 ∨ u=0x0D ∨ u=0x0A)

def normalizeMessageId (text : QString) : QString :=
  let id := (text.dropWhile isMessageIdSpace).rdropWhile isMessageIdSpace
  if id.length ≥ 2 ∧ id.head? = some 0x3C ∧ id.getLast? = some 0x3E then id.tail.dropLast else id

namespace NzbFile

/-- Where the parser is: between elements, or inside one whose text it reads. -/
inductive Mode
  | elements
  | groupText (text : QString)
  | metaText (type text : QString)
  | segmentText (attributes : List (QString × QString)) (text : QString) (hasChild : Bool)
      (depth : Nat)
  | stopped (line : Nat) (error : QString)

structure State where
  out : NzbInfo
  current : NzbFileInfo
  inFile : Bool
  segmentPosition : Nat
  mode : Mode

def emptyFile : NzbFileInfo := ⟨[],[],0,[],[],[],[],0⟩

def finishSegment (attributes : List (QString × QString)) (text : QString) (s : State) : State :=
  let numberText := attrValue attributes (lit "number")
  let segment : NzbSegment :=
    { messageId := normalizeMessageId text
      bytes := toInteger (2^63) (attrValue attributes (lit "bytes"))
      number := toInteger (2^31) numberText
      numberText
      position := -1 }
  let current := s.current
  { s with
    current :=
      if segment.messageId ≠ [] then { current with segments := current.segments++[segment] }
      else
        { current with
          emptyIdSegments := current.emptyIdSegments ++
            [{ segment with position := s.segmentPosition }] }
    segmentPosition := s.segmentPosition+1
    mode := .elements }

/-- `a.compare(b, Qt::CaseInsensitive) == 0` for a lower-case `b` without special letters. -/
def sameFold (a b : QString) : Bool := decide (a.map foldCase=b)

def finishMeta (type value : QString) (s : State) : State :=
  let out := { s.out with metaValues := s.out.metaValues++[(type, value)] }
  { s with
    out :=
      if sameFold type (lit "password") ∧ value ≠ [] then { out with password := value }
      else if sameFold type (lit "name") ∧ value ≠ [] then { out with name := value }
      else out
    mode := .elements }

def finishGroup (text : QString) (s : State) : State :=
  let group := trimmed text
  { s with
    current :=
      if group≠[] then { s.current with groups := s.current.groups++[group] } else s.current
    mode := .elements }

section Parse

variable (rules : QString → SubjectInfo)

def startElement (name : QString) (attributes : List (QString × QString)) (s : State) : State :=
  if name = lit "file" then
    let subject := attrValue attributes (lit "subject")
    let parsed := rules subject
    { s with
      current :=
        { emptyFile with
          subject
          poster := attrValue attributes (lit "poster")
          date := toInteger (2 ^ 63) (attrValue attributes (lit "date"))
          fileName := parsed.fileName
          partsTotal := parsed.total }
      inFile := true
      segmentPosition := 0 }
  else if name = lit "group" ∧ s.inFile then { s with mode := .groupText [] }
  else if name = lit "segment" ∧ s.inFile then { s with mode := .segmentText attributes [] false 0 }
  else if name = lit "meta" then
    { s with mode := .metaText (attrValue attributes (lit "type")) [] }
  else s

def endElement (name : QString) (s : State) : State :=
  if name = lit "file" then
    let out :=
      if s.current.segments ≠ [] then { s.out with files := s.out.files ++ [s.current] }
      else { s.out with filesWithoutSegments := s.out.filesWithoutSegments + 1 }
    { s with out, inFile := false }
  else s

/-- One event. `readElementText` refuses child elements, the text of a segment is read over them. -/
def step (s : State) (e : XmlEvent) : State :=
  match s.mode, e.token with
  | .stopped _ _, _ => s
  | .elements, .startElement name attributes => startElement rules name attributes s
  | .elements, .endElement name => endElement name s
  | .elements, _ => s
  | .groupText text, .characters more => { s with mode := .groupText (text ++ more) }
  | .groupText text, .endElement _ => finishGroup text s
  | .metaText type text, .characters more => { s with mode := .metaText type (text ++ more) }
  | .metaText type text, .endElement _ => finishMeta type text s
  | .groupText _, .startElement _ _ | .metaText _ _, .startElement _ _ =>
    { s with mode := .stopped e.line (lit "Expected character data.") }
  | .groupText _, .other | .metaText _ _, .other => s
  | .segmentText attributes text hasChild depth, .characters more =>
    { s with
      mode := .segmentText attributes (if depth = 0 then text ++ more else text) hasChild depth }
  | .segmentText attributes text _ depth, .startElement _ _ =>
    { s with mode := .segmentText attributes text true (depth + 1) }
  | .segmentText attributes text hasChild depth, .endElement _ =>
    if depth = 0 then finishSegment attributes (if hasChild then [] else text) s
    else { s with mode := .segmentText attributes text hasChild (depth - 1) }
  | .segmentText _ _ _ _, .other => s

/-- A file without files is refused: it is hardly an NZB. -/
def parse (doc : XmlDocument) (out : NzbInfo) : Except QString NzbInfo :=
  let start : State :=
    { out := { out with files := [], metaValues := [], filesWithoutSegments := 0 }
      current := emptyFile
      inFile := false
      segmentPosition := 0
      mode := .elements }
  let s := doc.events.foldl (step rules) start
  let failure : Option (Nat × QString) :=
    match s.mode with
    | .stopped line error => some (line, error)
    | _ => doc.error
  match failure with
  | some (line, error) =>
    .error (arg (arg (lit "Line %1: %2") (number line)) error)
  | none =>
    if s.out.files = [] then .error (lit "No files found — is this really an NZB?")
    else .ok s.out

end Parse

end NzbFile

open Framework Utils Utils.QString

def kUsenetPartSuffix : QString := lit ".usenetpart"

def underscore : UInt16 := 0x5F

/-- What some file system refuses in a name: `/ \ : * ? " < > |` and control characters. -/
def isRefused (u : UInt16) : Bool :=
  decide (u∈[slash,0x5C,colon,0x2A,0x3F,0x22,0x3C,0x3E,pipe] ∨ u.toNat<0x20)

def cleaned (u : UInt16) : UInt16 := if isRefused u then underscore else u

def sanitizeName (raw : QString) : QString :=
  let out := (trimmed (raw.map cleaned)).dropWhile fun u => decide (u = period)
  (if out = [] then lit "file" else out).take 180

namespace NzbFileInfo

/-- The name, or the subject while there is none. -/
def haystack (info : NzbFileInfo) : QString :=
  if info.fileName = [] then info.subject else info.fileName

def isPar2 (info : NzbFileInfo) : Bool := containsFold info.haystack (lit ".par2")

def isAsciiDigit (u : UInt16) : Bool := (digit? u).isSome

/-- `\.vol(\d+)\+(\d+)\.par2` at the front: the second number. -/
def volumeCount (s : QString) : Option QString :=
  let start := (s.drop 4).takeWhile isAsciiDigit
  let rest := (s.drop 4).dropWhile isAsciiDigit
  let count := rest.tail.takeWhile isAsciiDigit
  if startsWithFold s (lit ".vol") ∧ start ≠ [] ∧ rest.head? = some 0x2B ∧ count ≠ [] ∧
      startsWithFold (rest.tail.dropWhile isAsciiDigit) (lit ".par2") then some count
  else none

def par2RecoveryBlocks (info : NzbFileInfo) : Int :=
  match info.haystack.tails.findSome? volumeCount with
  | none => 0
  | some count => toInteger (2 ^ 31) count

end NzbFileInfo

/-- The state of a file of an item. -/
structure QueuedFile extends UsenetFileState where
  tempPath : QString
  articleFileName : QString
  par2FileName : QString
  declaredSize : Int
  done : List Bool
  missing : List Bool
  decodedBytes : Int
  finalized : Bool
  skipped : Bool
  neededForRepair : Bool

structure UsenetQueueItem where
  id : QString
  name : QString
  nzb : NzbInfo
  files : List QueuedFile

namespace QueuedFile

def fresh : QueuedFile := ⟨⟨[]⟩, [], [], [], 0, [], [], 0, false, false, false⟩

def isSkipped (st : QueuedFile) : Bool := st.skipped && !st.neededForRepair

end QueuedFile

/-- `resize` of a list or of a bit array. -/
def resized {α : Type} (n : Nat) (x : α) (xs : List α) : List α :=
  xs.take n ++ List.replicate (n - xs.length) x

/-- `part` and the number of the file, four digits at least. -/
def partName (i : Nat) : QString :=
  arg (lit "part%1") (List.replicate (4-(number i).length) 0x30++number i)

namespace UsenetQueueItem

def scratchBase (i : Nat) (info : NzbFileInfo) : QString :=
  if info.fileName=[] then partName i else sanitizeName info.fileName

def initFileState (itemDir : QString) (i : Nat) (info : NzbFileInfo) (st : QueuedFile) :
    QueuedFile :=
  let st := { st with done := resized info.segments.length false st.done }
  if st.tempPath=[] then
    { st with tempPath := QDir.filePath itemDir (scratchBase i info++kUsenetPartSuffix) }
  else st

def itemDir (tempRoot : QString) (item : UsenetQueueItem) : QString :=
  QDir.filePath tempRoot item.id

def initFileStates (tempRoot : QString) (item : UsenetQueueItem) : UsenetQueueItem :=
  let files := resized item.nzb.files.length QueuedFile.fresh item.files
  { item with
    files := (item.nzb.files.zip files).mapIdx fun i f =>
      initFileState (item.itemDir tempRoot) i f.1 f.2 }

def par2Named (n : QString) : Bool := (lit ".par2").isSuffixOf (n.map foldCase)

def bestFileName (item : UsenetQueueItem) (fileIndex : Nat) : QString :=
  match item.files[fileIndex]?, item.nzb.files[fileIndex]? with
  | some st, some info =>
    if st.par2FileName ≠ [] then st.par2FileName
    else if st.articleFileName = [] then info.fileName
    else if info.isPar2 ∧ ¬par2Named st.articleFileName then
      if par2Named info.fileName then info.fileName else st.articleFileName ++ lit ".par2"
    else st.articleFileName
  | _, _ => []

def sealedName (item : UsenetQueueItem) (fileIndex : Nat) : QString :=
  let best := item.bestFileName fileIndex
  QFileInfo.fileName
    (if best = [] then arg (arg (lit "%1-%2") item.name) (number fileIndex) else best)

end UsenetQueueItem

/-- What `uniqueDestination` tries after the name itself. -/
def numberedName (name : QString) (n : Nat) : QString :=
  let suffix := QFileInfo.suffix name
  arg (arg (arg (lit "%1 (%2)%3") (QFileInfo.completeBaseName name)) (number n))
    (if suffix=[] then [] else period::suffix)

/-- The name `uniqueDestination` settles for. -/
def uniqueName (name : QString) (taken : QString → Bool) : QString :=
  if taken name then
    match (List.range' 1 9999).find? fun n => !taken (numberedName name n) with
    | some n => numberedName name n
    | none => name++lit ".dup"
  else name

def uniqueDestination (dir name : QString) (taken : QString → Bool) : QString :=
  QDir.filePath dir (uniqueName name fun n => taken (QDir.filePath dir n))

/-- The item at work, and the disk. -/
structure ScratchState where
  item : UsenetQueueItem
  disk : FileTree QString (List UInt8)

namespace ScratchState

/-- What happens to the files of an item. -/
inductive Op
  | create (i : Nat)
  | write (i : Nat) (offset : Nat) (data : List UInt8)
  | learn (i : Nat) (articleFileName par2FileName : QString) (declaredSize : Int)
  | sealFile (i : Nat)
  deriving DecidableEq

def Op.file : Op → Nat
  | .create i | .write i _ _ | .learn i _ _ _ | .sealFile i => i

section

variable (cwd : List QString)

/-- `ArticleFileCache::openFile`: for reading and writing. -/
def openFile (path : QString) (disk : FileTree QString (List UInt8)) :
    FileTree QString (List UInt8) :=
  let opened := disk.create (locate cwd path) []
  if (opened.file (locate cwd path)).isSome then opened
  else if disk.dir (locate cwd path).dropLast then disk
  else (disk.mkpath (locate cwd path).dropLast).create (locate cwd path) []

def createTargetFile (path : QString) (disk : FileTree QString (List UInt8)) :
    FileTree QString (List UInt8) :=
  openFile cwd path (disk.mkpath (locate cwd (QFileInfo.absolutePath cwd path)))

/-- Bytes at a place of a file, with zeros up to there. -/
def patched (offset : Nat) (data old : List UInt8) : List UInt8 :=
  resized offset 0 old ++ data ++ old.drop (offset + data.length)

def writeArticle (path : QString) (offset : Nat) (data : List UInt8)
    (disk : FileTree QString (List UInt8)) : FileTree QString (List UInt8) :=
  (openFile cwd path disk).modify (locate cwd path) (patched offset data)

def padToDeclaredSize (st : QueuedFile) (disk : FileTree QString (List UInt8)) :
    FileTree QString (List UInt8) :=
  if st.declaredSize ≤ 0 ∨ st.tempPath = [] then disk
  else
    (disk.create (locate cwd st.tempPath) []).modify (locate cwd st.tempPath) fun b =>
      if (b.length : Int) < st.declaredSize then resized st.declaredSize.toNat 0 b else b

def taken (disk : FileTree QString (List UInt8)) (path : QString) : Bool :=
  disk.present (locate cwd path)

def withFile (i : Nat) (st : QueuedFile) (s : ScratchState) : ScratchState :=
  { s with item := { s.item with files := s.item.files.set i st } }

def sealFile (i : Nat) (s : ScratchState) : ScratchState :=
  match s.item.files[i]? with
  | none => s
  | some st =>
    let disk := padToDeclaredSize cwd st s.disk
    let name := s.item.sealedName i
    let itemDir := QFileInfo.absolutePath cwd st.tempPath
    if st.tempPath = QDir.filePath itemDir name then
      { s with disk }.withFile i { st with finalized := true }
    else
      let sealedPath := uniqueDestination itemDir name (taken cwd disk)
      let renamed :=
        if st.tempPath ≠ sealedPath then
          disk.rename (locate cwd st.tempPath) (locate cwd sealedPath)
        else none
      let st := if renamed.isSome then { st with tempPath := sealedPath } else st
      { s with disk := renamed.getD disk }.withFile i
        { st with
          finalized := true
          written := if st.declaredSize > 0 then [⟨0, st.declaredSize⟩] else st.written }

def step (s : ScratchState) : Op → ScratchState
  | .create i =>
    match s.item.files[i]? with
    | none => s
    | some st => { s with disk := createTargetFile cwd st.tempPath s.disk }
  | .write i offset data =>
    match s.item.files[i]? with
    | none => s
    | some st => { s with disk := writeArticle cwd st.tempPath offset data s.disk }
  | .learn i articleFileName par2FileName declaredSize =>
    match s.item.files[i]? with
    | none => s
    | some st => s.withFile i { st with articleFileName, par2FileName, declaredSize }
  | .sealFile i => s.sealFile cwd i

end

end ScratchState

end EmuleQt.Usenet
