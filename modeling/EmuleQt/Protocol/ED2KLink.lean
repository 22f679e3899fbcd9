import EmuleQt.Net.HostPort
import EmuleQt.Utils.Opcodes
import EmuleQt.Utils.OtherFunctions

namespace EmuleQt.Protocol

open Crypto Net Utils Utils.QString

def kMaxLinkSources : Nat := 64
def kMaxHttpCacheLinkBytes : Nat := 4096

structure ED2KLinkSource where
  hostname : QString
  port : UInt16
  address : Address
  url : QString
  deriving DecidableEq

structure ED2KLinkFormat where
  partHashes : Bool
  aichHash : Bool
  sources : Bool
  html : Bool

structure ED2KFileLink where
  name : QString
  size : UInt64
  hash : MD4Hash
  aichHash : AICHHash
  hasValidAICHHash : Bool
  hashset : Option (List UInt8)
  partHashes : List MD4Hash
  hostnameSources : List ED2KLinkSource
  deriving DecidableEq

def ED2KFileLink.blank : ED2KFileLink :=
  ⟨[], 0, Digest.zero 16, Digest.zero kAICHHashSize, false, none, [], []⟩

structure ED2KServerLink where
  address : QString
  port : UInt16
  address6 : QString
  deriving DecidableEq

structure ED2KHttpCacheLink where
  name : QString
  baseUrl : QString
  secret : QString
  keyId : QString
  deriving DecidableEq

inductive ED2KLink
  | file (link : ED2KFileLink)
  | server (link : ED2KServerLink)
  | serverList (address : QString)
  | nodesList (address : QString)
  | search (searchTerm : QString)
  | httpCache (link : ED2KHttpCacheLink)
  deriving DecidableEq

/-- What parsing asks of Qt and of the clock, and the parsers of the other kinds of links. -/
structure LinkReader where
  addr : AddressText
  /-- Host and port of a valid URL of http or https. -/
  httpUrl : QString → Option (QString × UInt16)
  /-- Six characters are no date, or the midnight it begins with has passed. -/
  dateExpired : QString → Bool
  parseMagnetLink : QString → Option ED2KLink
  parseServerLink : List QString → Option ED2KServerLink
  parseHttpCacheLink : List QString → Option ED2KHttpCacheLink

/-- `QStringList::join`. -/
def joined (sep : UInt16) (tokens : List QString) : QString := [sep].intercalate tokens

section ToLink

variable (addr : AddressText)

def ED2KLinkSource.host (src : ED2KLinkSource) : QString :=
  if src.address.isNull then src.hostname else addr.toString src.address

def sourceToken (src : ED2KLinkSource) : QString := formatHostPort (src.host addr) src.port

/-- A source that a link names: URL sources are not re-emitted. -/
def ED2KLinkSource.isEmitted (src : ED2KLinkSource) : Bool :=
  !(decide (src.port=0) || decide (src.url≠[]))

/-- The source block: IPv6 in a parameter of its own before the classic one. -/
def sourceBlock (sources : List ED2KLinkSource) : QString :=
  let emitted := sources.filter (·.isEmitted)
  let v6Tokens := (emitted.filter (·.address.isIPv6)).map (sourceToken addr)
  let v4Tokens := (emitted.filter (!·.address.isIPv6)).map (sourceToken addr)
  (if v6Tokens ≠ [] then arg (lit "|s6=%1") (joined comma v6Tokens) else []) ++
    (if v4Tokens ≠ [] then arg (lit "|sources,%1") (joined comma v4Tokens) else []) ++
    (if v6Tokens ≠ [] ∨ v4Tokens ≠ [] then lit "|/" else [])

def ED2KFileLink.toLink (link : ED2KFileLink) (fmt : ED2KLinkFormat) : QString :=
  (if fmt.html then lit "<a href=\"" else []) ++
    arg (arg (arg (lit "ed2k://|file|%1|%2|%3|")
      (urlEncode (stripInvalidFilenameChars link.name))) (number link.size.toNat))
      (md4str link.hash) ++
    (if fmt.partHashes && decide (link.partHashes ≠ []) then
      lit "p=" ++ joined colon (link.partHashes.map fun h => encodeBase16 h.bytes) ++ [pipe]
    else []) ++
    (if fmt.aichHash && link.hasValidAICHHash then
      arg (lit "h=%1|") (encodeBase32 link.aichHash.bytes)
    else []) ++
    [slash] ++
    (if fmt.sources && decide (link.hostnameSources ≠ []) then
      sourceBlock addr link.hostnameSources
    else []) ++
    (if fmt.html then arg (lit "\">%1</a>") (stripInvalidFilenameChars link.name) else [])

end ToLink

section Parse

variable (r : LinkReader)

/-- `split` with `Qt::SkipEmptyParts`. -/
def splitSkipEmpty (sep : UInt16) (s : QString) : List QString := (s.splitOn sep).filter (· ≠ [])

def isLowID (id : Nat) : Bool := decide (id < 0x01000000)

/-- The source of a token, none for one that is skipped. -/
def linkSource (ipv6Only : Bool) (token : QString) : Option ED2KLinkSource :=
  let hp :=
    match parseHostPort r.addr token 0 with
    | some hp => some hp
    | none =>
      match parseHostPort r.addr token 4662 with
      | none => none
      | some hp => if (r.addr.fromString hp.host).isIPv6 then some hp else none
  match hp with
  | none => none
  | some hp =>
    let address := r.addr.fromString hp.host
    if ipv6Only && !address.isIPv6 then none
    else if address.isIPv4 && isLowID address.toNetworkUint32 then none
    else some ⟨hp.host,hp.port,address,[]⟩

def appendLinkSources (ipv6Only : Bool) : List QString → ED2KFileLink → ED2KFileLink
  | [], link => link
  | token :: rest, link =>
    if kMaxLinkSources ≤ link.hostnameSources.length then link
    else
      match linkSource r ipv6Only token with
      | none => appendLinkSources ipv6Only rest link
      | some src =>
        appendLinkSources ipv6Only rest
          { link with hostnameSources := link.hostnameSources ++ [src] }

def isValidLinkFileSize (size : Nat) : Bool := decide (0 < size ∧ size ≤ MAX_EMULE_FILE_SIZE)

def appendUrlSource (link : ED2KFileLink) (sourceUrl : QString) : ED2KFileLink :=
  if kMaxLinkSources ≤ link.hostnameSources.length then link
  else
    match r.httpUrl sourceUrl with
    | none => link
    | some (host, port) =>
      { link with hostnameSources :=
          link.hostnameSources ++ [⟨host, port, r.addr.fromString host, sourceUrl⟩] }

def sourcesBlockExpired (head : QString) : Bool :=
  if 0x40 ∉ head then false
  else
    let digits := head.drop (head.idxOf 0x40 + 1)
    if digits.length ≠ 6 then true else r.dateExpired digits

def appendPartHashes (link : ED2KFileLink) (hashStr : QString) : ED2KFileLink :=
  let partHashes := (splitSkipEmpty colon hashStr).filterMap strmd4
  { link with
    partHashes
    hashset :=
      if partHashes=[] then link.hashset
      else some (link.hash.bytes++writeUInt16 (partHashes.length%2^16) ++
        partHashes.flatMap (·.bytes)) }

def appendAICHHash (link : ED2KFileLink) (hashB32 : QString) : ED2KFileLink :=
  match decodeBase32 hashB32 kAICHHashSize with
  | none => link
  | some raw =>
    if h : raw.length=kAICHHashSize then
      { link with aichHash := ⟨raw,h⟩, hasValidAICHHash := true }
    else link

/-- One parameter after the hash. -/
def parseFileParam (link : ED2KFileLink) (param : QString) : ED2KFileLink :=
  if param=[] ∨ param=[slash] then link
  else if startsWithFold param (lit "p=") then appendPartHashes link (param.drop 2)
  else if startsWithFold param (lit "h=") then appendAICHHash link (param.drop 2)
  else if startsWithFold param (lit "s=") then appendUrlSource r link (param.drop 2)
  else if startsWithFold param (lit "s6=") then
    appendLinkSources r true (splitSkipEmpty comma (param.drop 3)) link
  else if startsWithFold param (lit "sources") then
    if comma ∈ param ∧ sourcesBlockExpired r (param.take (param.idxOf comma))=false then
      appendLinkSources r false (splitSkipEmpty comma (param.drop (param.idxOf comma+1))) link
    else link
  else link

def parseFileLink (parts : List QString) : Option ED2KFileLink :=
  match parts with
  | _ :: nameText :: sizeText :: hashText :: params =>
    let name := urlDecode nameText
    if name = [] then none
    else
      match toULongLong sizeText, strmd4 hashText with
      | some size, some hash =>
        if isValidLinkFileSize size then
          some (params.foldl (parseFileParam r)
            { ED2KFileLink.blank with name, size := UInt64.ofNat size, hash })
        else none
      | _, _ => none
  | _ => none

/-- `replace` of `%7C` by a bar. -/
def replaceEncodedBars : QString → QString
  | u::a::b::rest =>
    if u=percent ∧ a=0x37 ∧ foldCase b=0x63 then pipe::replaceEncodedBars rest
    else u::replaceEncodedBars (a::b::rest)
  | u::rest => u::rest
  | [] => []

def normalizeEd2kLink (text : QString) : QString :=
  if containsFold text (lit "ed2k://%7c") then replaceEncodedBars text else text

def nonEmpty? (s : QString) : Option QString := if s=[] then none else some s

def parseED2KLink (rawUri : QString) : Option ED2KLink :=
  if rawUri = [] then none
  else
    let uri := normalizeEd2kLink (trimmed rawUri)
    if startsWithFold uri (lit "magnet:") then r.parseMagnetLink uri
    else if startsWithFold uri (lit "ed2k://|") = false then none
    else
      let parts := (uri.drop 8).splitOn pipe
      let type := toLower (parts.headD [])
      if type = lit "file" then (parseFileLink r parts).map .file
      else if type = lit "server" then (r.parseServerLink parts).map .server
      else if type = lit "serverlist" then
        (parts[1]?.bind nonEmpty?).map .serverList
      else if type = lit "nodeslist" then (parts[1]?.bind nonEmpty?).map .nodesList
      else if type = lit "httpcache" then
        if (toUtf8 uri).length ≤ kMaxHttpCacheLinkBytes then
          (r.parseHttpCacheLink parts).map .httpCache
        else none
      else if type = lit "search" then
        (parts[1]?.bind nonEmpty?).map fun term => .search (urlDecode term)
      else none

end Parse

end EmuleQt.Protocol
