import EmuleQt.IpFilter.IPFilter
import EmuleQt.Net.AddressLiteral

namespace EmuleQt.IpFilter

open Net Utils Utils.QString

def newline : UInt16 := 0x0A
def dash : QString := lit " - "

/-- A `std::string`, a byte a unit. -/
def stringOf (bytes : QString) : String := String.ofList (bytes.map fun u => Char.ofNat u.toNat)

/-- As `%s` prints it: up to the first zero byte. -/
def cStr (bytes : QString) : QString := bytes.takeWhile (· ≠ 0)

/-- `%-15s`. -/
def padRight (text : QString) : QString := text++List.replicate (15-text.length) 0x20

/-- `%3u`. -/
def padLeft (n : Nat) : QString := List.replicate (3-(number n).length) 0x20++number n

/-- A line, before it is cut to the buffer. -/
def lineText (start stop : QString) (level : UInt32) (desc : String) : QString :=
  start++dash++stop++lit " , " ++ padLeft level.toNat++lit " , " ++ cStr (lit desc) ++
    [newline]

def IPFilterEntry.text (e : IPFilterEntry UInt32) : QString :=
  lineText (padRight (ipv4Text e.start)) (padRight (ipv4Text e.stop)) e.level e.desc

def IPFilterEntry.text6 (addr : AddressText) (e : IPFilterEntry V6Key) : QString :=
  lineText (addr.toString (.ipv6 e.start)) (addr.toString (.ipv6 e.stop)) e.level e.desc

def IPFilter.texts (addr : AddressText) (f : IPFilter) : List QString :=
  f.entries.map IPFilterEntry.text ++ f.entries6.map (IPFilterEntry.text6 addr)

/-- `snprintf` leaves 255 bytes of a line in `buf[256]`. -/
def saveToFile (addr : AddressText) (f : IPFilter) : QString :=
  (f.texts addr).flatMap fun text => text.take 255

/-- `readLine(4096)`. -/
def readLine (bytes : QString) : QString × QString :=
  let head := bytes.take 4096
  let n := if newline ∈ head then head.idxOf newline + 1 else head.length
  (bytes.take n, bytes.drop n)

/-- Until the end of the file; a line takes at least one byte. -/
def readLines : (left : Nat) → QString → List QString
  | 0, _ => []
  | left+1, bytes =>
    if bytes=[] then [] else (readLine bytes).1::readLines left (readLine bytes).2

/-- Without the bytes at the end, and without blanks and tabs in front. -/
def strip (atEnd : List UInt16) (text : QString) : QString :=
  (text.rdropWhile (· ∈ atEnd)).dropWhile (· ∈ [0x20, 0x09])

/-- `trimmed` of the filter. -/
def stripped (text : QString) : QString := strip [0x20, 0x09, 0x0D] text

/-- What `sscanf` is asked for: `%3u`, a byte, any blanks, and `%n`. -/
inductive Directive
  | u3
  | byte (u : UInt16)
  | blanks
  | n

def dotted : List Directive := [.u3, .byte 0x2E, .u3, .byte 0x2E, .u3, .byte 0x2E, .u3]

def rangeFormat : List Directive := dotted++[.blanks,.byte 0x2D,.blanks]++dotted

def filterDatFormat : List Directive :=
  rangeFormat++[.blanks,.byte comma,.blanks,.u3,.blanks,.byte comma,.blanks,.n]

/-- `isspace` of the C locale. -/
def isBlank (u : UInt16) : Bool := decide (u=0x20 ∨ (0x09≤u.toNat ∧ u.toNat≤0x0D))

def digitsOf (text : QString) : List Nat :=
  (text.takeWhile fun u => (digit? u).isSome).filterMap digit?

/-- `%3u`: after blanks at most three bytes, a sign among them. -/
def scanU3 (text : QString) : Option (UInt32 × QString) :=
  let text := text.dropWhile isBlank
  let field := text.take 3
  let sign : Nat := if field.head? = some 0x2B ∨ field.head? = some 0x2D then 1 else 0
  let ds := digitsOf (field.drop sign)
  let value := UInt32.ofNat (ofDigits ds)
  if ds=[] then none
  else some (if field.head? = some 0x2D then 0-value else value, text.drop (sign+ds.length))

/-- The numbers that were read, and what is left at a `%n` that was reached. -/
def sscanf : List Directive → QString → List UInt32 × Option QString
  | [], _ => ([], none)
  | .u3 :: format, text =>
    match scanU3 text with
    | some (value, rest) => (value :: (sscanf format rest).1, (sscanf format rest).2)
    | none => ([], none)
  | .byte u :: format, text =>
    if text.head? = some u then sscanf format text.tail else ([], none)
  | .blanks :: format, text => sscanf format (text.dropWhile isBlank)
  | .n :: format, text => ((sscanf format text).1, some text)

def ipOf (a b c d : UInt32) : UInt32 := a <<< 24 ||| b <<< 16 ||| c <<< 8 ||| d

def kDefaultFilterLevel : UInt32 := 100

/-- A range with its level and description. -/
abbrev Found (κ : Type) := κ × κ × UInt32 × QString

def parseFilterDatLine (line : QString) : Option (Found UInt32) :=
  let scanned := sscanf filterDatFormat (cStr line)
  match scanned.1 with
  | u1 :: u2 :: u3 :: u4 :: u5 :: u6 :: u7 :: u8 :: more =>
    some (ipOf u1 u2 u3 u4, ipOf u5 u6 u7 u8,
      match more with
      | [] => (kDefaultFilterLevel, [])
      | level :: _ => (level,
          match scanned.2 with
          | some rest =>
            let descStart := (cStr line).length - rest.length
            if 0 < descStart ∧ descStart < line.length then
              (line.drop descStart).rdropWhile fun u => decide (u < 0x20)
            else []
          | none => []))
  | _ => none

/-- The first marker is taken out. -/
def withoutMarker : QString → QString
  | [] => []
  | u::text =>
    if (lit "PGIPDB").isPrefixOf (u::text) then (u::text).drop 6 else u::withoutMarker text

def parsePeerGuardianLine (line : QString) : Option (Found UInt32) :=
  if colon ∉ line then none
  else
    match (sscanf rangeFormat (cStr (line.rtakeWhile (· ≠ colon)))).1 with
    | [u1, u2, u3, u4, u5, u6, u7, u8] =>
      some (ipOf u1 u2 u3 u4, ipOf u5 u6 u7 u8, kDefaultFilterLevel,
        strip [0x20, 0x09] (withoutMarker (line.rdropWhile (· ≠ colon)).dropLast))
    | _ => none

/-- `atoi`, of a text of digits. -/
def atoi (text : QString) : Int := (min (ofDigits (digitsOf text)) (2 ^ 63 - 1) : Int).bmod (2 ^ 32)

def allDigits (text : QString) : Bool := text≠[] && text.all fun u => (digit? u).isSome

def maskBits (change : UInt8 → UInt8 → UInt8) (k : V6Key) (prefixLen : Nat) : V6Key :=
  (List.range 128).foldl (fun k bit =>
    if bit<prefixLen then k
    else ⟨k.bytes.modify (bit/8) fun b => change b (0x80 >>> UInt8.ofNat (bit%8)),
      by rw [List.length_modify,k.size]⟩) k

def prefixFloor : V6Key → Nat → V6Key := maskBits fun b bit => b &&& ~~~bit
def prefixCeiling : V6Key → Nat → V6Key := maskBits fun b bit => b ||| bit

/-- Where the text has a part for the first time: what is before it and what is after it. -/
def splitAt (part : QString) : QString → Option (QString × QString)
  | [] => none
  | u::text =>
    if part.isPrefixOf (u::text) then some ([], (u::text).drop part.length)
    else (splitAt part text).map fun (before, after) => (u::before, after)

section Parse

variable (addr : AddressText)

def parseV6Literal (text : QString) : Option V6Key :=
  match addr.fromString (trimmed text) with
  | .ipv6 ip => some ip
  | _ => none

def parseV6RangeSpec (spec : QString) : Option (V6Key × V6Key) :=
  let s := stripped spec
  if s = [] then none
  else
    match splitAt [slash] s with
    | some (before, after) => do
      let ip ← parseV6Literal addr before
      let lenText := stripped after
      let prefixLen := atoi lenText
      if allDigits lenText = false ∨ prefixLen < 0 ∨ prefixLen > 128 then none
      else some (prefixFloor ip prefixLen.toNat, prefixCeiling ip prefixLen.toNat)
    | none =>
      match splitAt dash s with
      | some (before, after) => do
        let start ← parseV6Literal addr before
        let stop ← parseV6Literal addr after
        if start ≤ stop then some (start, stop) else none
      | none => (parseV6Literal addr s).map fun ip => (ip, ip)

/-- The range after the first colon that one follows; what is before the colon describes it. -/
def parseSuffix (before : QString) : QString → Option (V6Key × V6Key × QString)
  | [] => none
  | u::text =>
    if u=colon then
      match parseV6RangeSpec addr text with
      | some (start, stop) => some (start, stop, stripped (withoutMarker (stripped before)))
      | none => parseSuffix (before++[u]) text
    else parseSuffix (before++[u]) text

def parseIPv6Line (line : QString) : Option (Found V6Key) :=
  if colon ∉ line then none
  else
    let (spec, level, desc) :=
      match splitAt [comma] line with
      | none => (line, kDefaultFilterLevel, [])
      | some (spec, tail) =>
        let (levelText, desc) :=
          match splitAt [comma] tail with
          | none => (tail, [])
          | some (levelText, desc) => (levelText, stripped desc)
        (spec, if allDigits (stripped levelText) then UInt32.ofInt (atoi (stripped levelText))
          else kDefaultFilterLevel, desc)
    match parseV6RangeSpec addr spec with
    | some (start, stop) => some (start, stop, level, desc)
    | none => (parseSuffix addr [] spec).map fun (start, stop, desc) => (start, stop, level, desc)

/-- `PeerGuardian2` is the format of a binary file. -/
inductive FileType
  | Unknown
  | FilterDat
  | PeerGuardian
  deriving DecidableEq

structure Loading where
  fileType : FileType
  foundRanges : Nat
  filter : IPFilter

/-- The format of a line, after HTML tags are stripped. -/
def detect (line : QString) : FileType × QString :=
  let line := if 0x3E ∈ line ∧ 0x3C ∈ line then line.rtakeWhile (· ≠ 0x3E) else line
  let reads (text : QString) : Bool := (sscanf rangeFormat (cStr text)).1.length = 8
  (if reads line then .FilterDat
    else if colon ∈ line ∧ reads (line.drop (line.idxOf colon + 1)) then .PeerGuardian
    else .Unknown, line)

def parseLine (fileType : FileType) (line : QString) : Option (Found UInt32) :=
  match fileType with
  | .FilterDat => parseFilterDatLine line
  | .PeerGuardian => parsePeerGuardianLine line
  | .Unknown => none

def loadLine (s : Loading) (rawLine : QString) : Loading :=
  let line := strip [0x0A,0x0D,0x20,0x09] rawLine
  if line=[] ∨ line.head? = some 0x23 ∨ line.head? = some slash then s
  else
    match parseIPv6Line addr line with
    | some (start, stop, level, desc) =>
      { s with
        foundRanges := s.foundRanges+1
        filter := s.filter.addIPRange6 start stop level (stringOf desc) }
    | none =>
      if line.length<15 then s
      else
        let (fileType, line) :=
          if s.fileType = .Unknown then detect line else (s.fileType, line)
        match parseLine fileType line with
        | some (start, stop, level, desc) =>
          { fileType
            foundRanges := s.foundRanges+1
            filter := s.filter.addIPRange start stop level (stringOf desc) }
        | none => { s with fileType := if s.foundRanges=0 then .Unknown else fileType }

/-- The ranges of a text file under the default name, whose ending does not tell the format. -/
def loadLines (bytes : QString) : IPFilter :=
  ((readLines bytes.length bytes).foldl (loadLine addr) ⟨.Unknown,0,.empty⟩).filter

def loadFromDefaultFile (bytes : QString) : IPFilter := (loadLines addr bytes).sortAndMerge

end Parse

end EmuleQt.IpFilter
