import EmuleQt.Net.AddressLiteral
import EmuleQt.Protocol.ED2KLink

namespace EmuleQt.Search

open Net Protocol Utils Utils.QString

/-- A `QByteArray` of ASCII characters. -/
def ascii (s : String) : List UInt8 := s.toList.map Char.toUInt8

def quote : UInt8 := 0x22
def backslash : UInt8 := 0x5C

def FT_FILENAME : UInt8 := 0x01
def FT_FILESIZE : UInt8 := 0x02
def FT_FILETYPE : UInt8 := 0x03
def FT_FILEFORMAT : UInt8 := 0x04
def FT_SOURCES : UInt8 := 0x15
def FT_COMPLETE_SOURCES : UInt8 := 0x30
def FT_MEDIA_ARTIST : UInt8 := 0xD0
def FT_MEDIA_ALBUM : UInt8 := 0xD1
def FT_MEDIA_TITLE : UInt8 := 0xD2
def FT_MEDIA_LENGTH : UInt8 := 0xD3
def FT_MEDIA_BITRATE : UInt8 := 0xD4
def FT_MEDIA_CODEC : UInt8 := 0xD5
def FT_FILERATING : UInt8 := 0xF7

def kSearchOpTokenAnd : List UInt8 := 0xAD :: ascii "AND"
def kSearchOpTokenOr : List UInt8 := 0xAD :: ascii "OR"
def kSearchOpTokenNot : List UInt8 := 0xAD :: ascii "NOT"

inductive SearchOperator
  | and | or | not
  deriving DecidableEq

structure SearchAttr where
  num : UInt64 := 0
  str : List UInt8 := []
  tag : UInt8 := FT_FILENAME
  integerOperator : UInt8 := 0
  deriving DecidableEq

/-- A term of the file name. -/
def SearchAttr.name (str : List UInt8) : SearchAttr := { str := str }

def SearchOperator.token : SearchOperator → List UInt8
  | and => kSearchOpTokenAnd
  | or => kSearchOpTokenOr
  | not => kSearchOpTokenNot

/-- An expression as the parser combines it. -/
inductive SearchExpr
  | attr (a : SearchAttr)
  | combined (op : SearchOperator) (result right : SearchExpr)
  deriving DecidableEq

/-- `m_expr`: an operator goes for an attribute and stands before its operands. -/
def SearchExpr.attrs : SearchExpr → List SearchAttr
  | attr a => [a]
  | combined op result right => .name op.token :: (result.attrs ++ right.attrs)

def isOperatorAttr (a : SearchAttr) : Bool :=
  a.str = kSearchOpTokenAnd ∨ a.str = kSearchOpTokenOr ∨ a.str = kSearchOpTokenNot

def kMaxSearchOperators : Nat := 10

inductive TokenType
  | string | and | or | not | opEq | opLt | opLe | opGt | opGe | opNe
  | atSize | atType | atExt | atSources | atComplete | atBitrate | atLength | atCodec | atRating
  | atTitle | atAlbum | atArtist | ed2kLink | lParen | rParen | eof
  deriving DecidableEq

/-- The current token with its text, and what has not been scanned. -/
structure Scan where
  current : TokenType
  str : List UInt8
  pos : List UInt8

/-- The first error, the one the user sees; or more calls and rounds nested than were granted. -/
inductive Failure
  | error (text : QString)
  | tooDeep
  deriving DecidableEq

abbrev Parse := Except Failure

def addError {α : Type} (text : String) : Parse α := .error (.error (lit text))

def addAttrError {α : Type} (attrName : String) : Parse α :=
  .error (.error (arg (lit "Syntax error in '%1' search attribute") (lit attrName)))

def isKeywordChar (c : UInt8) : Bool := c ≠ 0 ∧ c ∉ ascii " ()<>=" ∧ c ≠ quote

def isDigit (c : UInt8) : Bool := 0x30 ≤ c ∧ c ≤ 0x39

def toLowerAscii (c : UInt8) : UInt8 := if 0x41≤c ∧ c≤0x5A then c+0x20 else c

def isAlpha (c : UInt8) : Bool := 0x61≤toLowerAscii c ∧ toLowerAscii c≤0x7A

/-- The input abbreviates a lower-case word to no fewer letters than `minMatch`. -/
def prefixMatch (input : List UInt8) (word : String) (minMatch : Nat) : Bool :=
  minMatch ≤ input.length ∧ input.map toLowerAscii <+: ascii word

def skipSpaces (s : List UInt8) : List UInt8 := s.dropWhile (· = 0x20)

section Tokenizer

def hexDigit? (c : UInt8) : Option UInt8 :=
  if isDigit c then some (c-0x30)
  else if 0x61≤toLowerAscii c ∧ toLowerAscii c≤0x66 then some (toLowerAscii c-0x57)
  else none

def hexDigits : Nat → List UInt8 → List UInt8 × List UInt8
  | n + 1, c :: s =>
    match hexDigit? c with
    | some d => (hexDigits n s).map (d :: ·) id
    | none => ([], c :: s)
  | _, s => ([], s)

def hexEscape (digits : List UInt8) : UInt8 :=
  if digits=[] then 0x78 else digits.foldl (fun val d => 16*val+d) 0

/-- The character an escape stands for. -/
def escaped (c : UInt8) : UInt8 :=
  match (List.zip (ascii "tnfrvab") [0x09, 0x0A, 0x0C, 0x0D, 0x0B, 0x07, 0x08]).lookup c with
  | some e => e
  | none => c

/-- The text of a quoted string, and what follows the closing quote. -/
def quotedText : Nat → List UInt8 → Parse (List UInt8 × List UInt8)
  | 0, _ => .error .tooDeep
  | _ + 1, [] => addError "Unterminated string"
  | depth+1, c::s =>
    if c=quote then .ok ([], s)
    else if c=0x0A then addError "Unterminated string"
    else if c=backslash then
      match s with
      | [] => addError "Unterminated string"
      | e::s =>
        if e=0x0A then quotedText depth s
        else if e=0x78 then
          let (digits, s) := hexDigits 3 s
          (quotedText depth s).map fun (str, s) => (hexEscape digits::str, s)
        else (quotedText depth s).map fun (str, s) => (escaped e::str, s)
    else (quotedText depth s).map fun (str, s) => (c::str, s)

def attributes : List (String × TokenType) :=
  [("size", .atSize), ("type", .atType), ("ext", .atExt), ("availability", .atSources),
    ("sources", .atSources), ("complete", .atComplete), ("bitrate", .atBitrate),
    ("length", .atLength), ("codec", .atCodec), ("rating", .atRating), ("title", .atTitle),
    ("album", .atAlbum), ("artist", .atArtist)]

def scanAttribute (s : List UInt8) : Parse Scan :=
  let name := s.takeWhile isAlpha
  match attributes.find? fun a => prefixMatch name a.1 3 with
  | some a => .ok ⟨a.2, [], s.drop name.length⟩
  | none => .error (.error (arg (lit "Unknown search attribute '%1'") (lit "@" ++ fromUtf8 name)))

def linkText : List UInt8 → List UInt8
  | [] => []
  | [c] => if c = 0x20 ∨ c = 0 then [] else [c]
  | c :: d :: s =>
    if c = 0x7C ∧ d = 0x2F then [c, d]
    else if c = 0x20 ∨ c = 0 then []
    else c :: linkText (d :: s)

def scanED2KLink (r : LinkReader) (s : List UInt8) : Parse Scan :=
  match parseED2KLink r (fromUtf8 (linkText s)) with
  | some (.file link) =>
    .ok ⟨.ed2kLink, ascii "ed2k::" ++ (link.hash.bytes.flatMap hexPair).map UInt16.toUInt8,
      s.drop (linkText s).length⟩
  | _ => addError "Invalid eD2K file link"

/-- Quoted strings keep their quotes, other than in the context of a string. -/
structure ParserEnv where
  links : LinkReader
  keepQuotedStrings : Bool
  /-- How many characters `strtod` reads. -/
  strtod : List UInt8 → Nat
  /-- The number it has read, times a factor, as an integer. -/
  scaled : List UInt8 → Nat → UInt64

variable (env : ParserEnv)

def keywordType (word : List UInt8) : TokenType :=
  if word=ascii "AND" then .and else if word=ascii "OR" then .or
  else if word=ascii "NOT" then .not else .string

mutual

def scanToken : Nat → List UInt8 → Parse Scan
  | 0, _ => .error .tooDeep
  | depth + 1, s =>
    match skipSpaces s with
    | [] => .ok ⟨.eof, [], []⟩
    | c :: s =>
      if c = 0x28 then .ok ⟨.lParen, [], s⟩
      else if c = 0x29 then .ok ⟨.rParen, [], s⟩
      else if c = 0x3D then .ok ⟨.opEq, [], s⟩
      else if c = 0x3C then
        if s.head? = some 0x3D then .ok ⟨.opLe, [], s.tail⟩
        else if s.head? = some 0x3E then .ok ⟨.opNe, [], s.tail⟩
        else .ok ⟨.opLt, [], s⟩
      else if c = 0x3E then
        if s.head? = some 0x3D then .ok ⟨.opGe, [], s.tail⟩ else .ok ⟨.opGt, [], s⟩
      else if c = 0x2D then .ok ⟨.not, [], s⟩
      else if c = quote then scanQuotedString depth false s
      else if c = 0x40 then scanAttribute s
      else if 14 ≤ (c :: s).length ∧ ascii "ed2k://|file|" <+: c :: s then
        scanED2KLink env.links (c :: s)
      else
        let word := (c :: s).takeWhile isKeywordChar
        if word = [] then scanToken depth (c :: s)
        else
          let type := keywordType word
          .ok ⟨type, if type = .string then word else [], (c :: s).drop word.length⟩

def scanQuotedString : Nat → (inStringContext : Bool) → List UInt8 → Parse Scan
  | 0, _, _ => .error .tooDeep
  | depth + 1, inStringContext, s => do
    let (str, s) ← quotedText (s.length + 1) s
    if str = [] then scanToken depth s
    else if env.keepQuotedStrings && !inStringContext then
      return ⟨.string, quote :: str ++ [quote], s⟩
    else return ⟨.string, str, s⟩

end

end Tokenizer

section Values

variable (env : ParserEnv)

def readComparisonOp : TokenType → Option UInt8
  | .opEq => some 0
  | .opGt => some 1
  | .opLt => some 2
  | .opGe => some 3
  | .opLe => some 4
  | .opNe => some 5
  | _ => none

/-- A number, times the factor of the suffix that follows it. -/
def scanNumber (suffixes : List (UInt8 × Nat)) (noSuffix : Nat) (s : List UInt8) :
    Option (UInt64 × List UInt8) :=
  let s := skipSpaces s
  if s.head?.any isDigit then
    let (val, rest) := s.splitAt (env.strtod s)
    match rest.head?.bind fun c => suffixes.lookup c with
    | some factor => some (env.scaled val factor, rest.tail)
    | none => some (env.scaled val noSuffix, rest)
  else none

def scanSizeNumber : List UInt8 → Option (UInt64 × List UInt8) :=
  scanNumber env (List.zip (ascii "BbKkMmGg")
    [1, 1, 1024, 1024, 1024 ^ 2, 1024 ^ 2, 1024 ^ 3, 1024 ^ 3]) (1024 ^ 2)

def scanPlainNumber : List UInt8 → Option (UInt64 × List UInt8) :=
  scanNumber env (List.zip (ascii "kmg") [1000, 1000000, 1000000000]) 1

/-- The digits in front as an `unsigned`, when a text begins with digits. -/
def digitsOf (s : List UInt8) : Option (UInt32 × List UInt8) :=
  match s.takeWhile isDigit with
  | [] => none
  | ds => some (ds.foldl (fun v d => 10*v+(d-0x30).toUInt32) 0, s.drop ds.length)

/-- Digits behind a colon. -/
def colonDigits : List UInt8 → Option (UInt32 × List UInt8)
  | c::s => if c=0x3A then digitsOf s else none
  | [] => none

def scanLengthNumber (s : List UInt8) : Option (UInt64 × List UInt8) :=
  let s := skipSpaces s
  match (do
    let (v1, p) ← digitsOf s
    let (v2, p2) ← colonDigits p
    match colonDigits p2 with
    | some (v3, p3) => some ((v3 + v2 * 60 + v1 * 3600).toUInt64, p3)
    | none => some ((v2 + v1 * 60).toUInt64, p2)) with
  | some result => some result
  | none => scanNumber env (List.zip (ascii "smh") [1, 60, 3600]) 1 s

def fileTypes : List (String × Nat × String) :=
  [("audio", 3, "Audio"), ("video", 3, "Video"), ("image", 3, "Image"), ("img", 3, "Image"),
    ("document", 3, "Doc"), ("program", 3, "Pro"), ("archive", 3, "Arc"), ("iso", 3, "Iso"),
    ("cd", 2, "Iso")]

def scanTypeValue (s : List UInt8) : Option (List UInt8 × List UInt8) :=
  let s := skipSpaces s
  let word := s.takeWhile isAlpha
  (fileTypes.find? fun t => prefixMatch word t.1 t.2.1).map fun t =>
    (ascii t.2.2, s.drop word.length)

def scanStringValue (attrName : String) (depth : Nat) (s : List UInt8) :
    Parse (List UInt8 × List UInt8) :=
  let s := skipSpaces s
  if s.head? = some quote then
    (scanQuotedString env depth true s.tail).map fun tok => (tok.str, tok.pos)
  else
    let word := s.takeWhile isKeywordChar
    if word = [] then addAttrError attrName else .ok (word, s.drop word.length)

end Values

section Parser

variable (env : ParserEnv)

def canStartPrimary : TokenType → Bool
  | .string | .ed2kLink | .atSize | .atType | .atExt | .atSources | .atComplete | .atBitrate
  | .atLength | .atCodec | .atRating | .atTitle | .atAlbum | .atArtist | .lParen => true
  | _ => false

def parseNumericAttr (tag : UInt8) (attrName : String)
    (scan : List UInt8 → Option (UInt64 × List UInt8)) (depth : Nat) (p : Scan) :
    Parse (SearchExpr × Scan) := do
  let p ← scanToken env depth p.pos
  match readComparisonOp p.current, scan p.pos with
  | some op, some (num, s) =>
    return (.attr { num := num, tag := tag, integerOperator := op }, ← scanToken env depth s)
  | _, _ => addAttrError attrName

def parseStringAttr (tag : UInt8) (attrName : String)
    (scan : List UInt8 → Parse (List UInt8 × List UInt8)) (depth : Nat) (p : Scan) :
    Parse (SearchExpr × Scan) := do
  let p ← scanToken env depth p.pos
  if p.current = .opEq then
    let (str, s) ← scan p.pos
    return (.attr { str := str, tag := tag }, ← scanToken env depth s)
  else addAttrError attrName

def typeValue (s : List UInt8) : Parse (List UInt8 × List UInt8) :=
  match scanTypeValue s with
  | some found => .ok found
  | none => addAttrError "@type"

def parseAttributeExpr (depth : Nat) (p : Scan) : Parse (SearchExpr × Scan) :=
  let numeric tag name scan := parseNumericAttr env tag name scan depth p
  let text tag name := parseStringAttr env tag name (scanStringValue env name depth) depth p
  match p.current with
  | .string | .ed2kLink => do return (.attr (.name p.str), ← scanToken env depth p.pos)
  | .atSize => numeric FT_FILESIZE "@size" (scanSizeNumber env)
  | .atSources => numeric FT_SOURCES "@sources" (scanPlainNumber env)
  | .atComplete => numeric FT_COMPLETE_SOURCES "@complete" (scanPlainNumber env)
  | .atRating => numeric FT_FILERATING "@rating" (scanPlainNumber env)
  | .atBitrate => numeric FT_MEDIA_BITRATE "@bitrate" (scanPlainNumber env)
  | .atLength => numeric FT_MEDIA_LENGTH "@length" (scanLengthNumber env)
  | .atType => parseStringAttr env FT_FILETYPE "@type" typeValue depth p
  | .atExt => text FT_FILEFORMAT "@ext"
  | .atCodec => text FT_MEDIA_CODEC "@codec"
  | .atTitle => text FT_MEDIA_TITLE "@title"
  | .atAlbum => text FT_MEDIA_ALBUM "@album"
  | .atArtist => text FT_MEDIA_ARTIST "@artist"
  | .not => addError "Missing left side for NOT operator"
  | .and => addError "Missing left side for AND operator"
  | .or => addError "Missing left side for OR operator"
  | _ => addError "Failed to parse search expression"

mutual

def parseAndExpr : Nat → Scan → Parse (SearchExpr × Scan)
  | 0, _ => .error .tooDeep
  | depth + 1, p => do
    let (result, p) ← parseOrExpr depth p
    andRest depth result p

/-- The rounds of its loop; terms side by side are joined as well. -/
def andRest : Nat → SearchExpr → Scan → Parse (SearchExpr × Scan)
  | 0, _, _ => .error .tooDeep
  | depth+1, result, p => do
    let explicitAnd := decide (p.current = .and)
    let p ← if explicitAnd then scanToken env depth p.pos else pure p
    if canStartPrimary p.current then
      let (right, p) ← parseOrExpr depth p
      andRest depth (.combined .and result right) p
    else if explicitAnd then addError "Missing right side for AND operator"
    else return (result, p)

def parseOrExpr : Nat → Scan → Parse (SearchExpr × Scan)
  | 0, _ => .error .tooDeep
  | depth + 1, p => do
    let (result, p) ← parseNotExpr depth p
    orRest depth result p

def orRest : Nat → SearchExpr → Scan → Parse (SearchExpr × Scan)
  | 0, _, _ => .error .tooDeep
  | depth+1, result, p =>
    if p.current = .or then do
      let p ← scanToken env depth p.pos
      if canStartPrimary p.current then
        let (right, p) ← parseNotExpr depth p
        orRest depth (.combined .or result right) p
      else addError "Missing right side for OR operator"
    else .ok (result, p)

def parseNotExpr : Nat → Scan → Parse (SearchExpr × Scan)
  | 0, _ => .error .tooDeep
  | depth + 1, p => do
    let (result, p) ← parsePrimary depth p
    notRest depth result p

def notRest : Nat → SearchExpr → Scan → Parse (SearchExpr × Scan)
  | 0, _, _ => .error .tooDeep
  | depth+1, result, p =>
    if p.current = .not then do
      let p ← scanToken env depth p.pos
      if canStartPrimary p.current then
        let (right, p) ← parsePrimary depth p
        notRest depth (.combined .not result right) p
      else addError "Missing right side for NOT operator"
    else .ok (result, p)

def parsePrimary : Nat → Scan → Parse (SearchExpr × Scan)
  | 0, _ => .error .tooDeep
  | depth + 1, p =>
    if p.current = .lParen then do
      let p ← scanToken env depth p.pos
      if p.current = .rParen ∨ p.current = .eof then addError "Missing expression for '(' ')'"
      else
        let (result, p) ← parseAndExpr depth p
        if p.current = .rParen then return (result, ← scanToken env depth p.pos)
        else addError "Missing closing ')'"
    else parseAttributeExpr env depth p

end

def parseSearchExpression (depth : Nat) (input : QString) : Parse (Option SearchExpr) := do
  let p ← scanToken env depth (toUtf8 input)
  if p.current = .eof then return none
  else
    let (expr, p) ←
      if p.current = .ed2kLink then
        (scanToken env depth p.pos).map fun next => (.attr (.name p.str), next)
      else parseAndExpr env depth p
    if p.current ≠ .eof then addError "Failed to parse search expression"
    else if kMaxSearchOperators < expr.attrs.countP isOperatorAttr then
      addError "Expression too complex"
    else return some expr

end Parser

end EmuleQt.Search
