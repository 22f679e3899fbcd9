import EmuleQt.Framework.Keyed
import EmuleQt.Kademlia.Entry

namespace EmuleQt.Kademlia

open Framework Net Utils

def KADEMLIAMAXINDEX : Nat := 50000
def KADEMLIAMAXENTRIES : Nat := 60000
def KADEMLIAMAXSOURCEPERFILE : Nat := 1000
def KADEMLIAMAXNOTESPERFILE : Nat := 150

def kCleanInterval : Nat := 1800

structure Source (α : Type) where
  sourceID : UInt128
  entryList : List α
  deriving DecidableEq

/-- `KeyHash` with its `mapSource`, and `SrcHash` with its `sourceList`. -/
structure Hash (α : Type) where
  keyID : UInt128
  sources : List (Source α)
  deriving DecidableEq


/-- The maps are lists; each key stands in one place of them. -/
structure Indexed where
  totalIndexSource : Nat
  totalIndexKeyword : Nat
  totalIndexNotes : Nat
  nextClean : Nat
  nextForcedClean : Nat
  keywords : List (Hash KeyEntry)
  sources : List (Hash Entry)
  notes : List (Hash Entry)
  dataLoaded : Bool
  globalPublishIPs : Tracking

/-- What the caller gets: `outLoad` is 0 where it is left alone. -/
structure Answer where
  accepted : Bool
  outLoad : UInt8
  deriving DecidableEq

def load (count perMax : Nat) : UInt8 := UInt8.ofNat (count * 100 / perMax)

section CleanIndex

variable {α σ : Type} (visit : α → σ → Option α × σ)

def cleanSource (source : Source α) (s : σ) : Option (Source α) × σ :=
  let (entries, s) := sweep visit source.entryList s
  (if entries.isEmpty then none else some { source with entryList := entries }, s)

def cleanHash (hash : Hash α) (s : σ) : Option (Hash α) × σ :=
  let (inner, s) := sweep (cleanSource visit) hash.sources s
  (if inner.isEmpty then none else some { hash with sources := inner }, s)

def cleanIndex : List (Hash α) → σ → List (Hash α) × σ := sweep (cleanHash visit)

end CleanIndex

/-- The counter and the tracking, or the counter alone, go with the entries that are deleted. -/
def visitKeyEntry (now : Nat) (e : KeyEntry) (s : Nat × Tracking) :
    Option KeyEntry × (Nat × Tracking) :=
  if e.lifetime>0 ∧ e.lifetime<now then (none, (s.1-1, e.destroy s.2))
  else
    let (e, g) := e.cleanUpTrackedPublishers now s.2
    (some e, (s.1, g))

def visitEntry (now : Nat) (e : Entry) (counter : Nat) : Option Entry × Nat :=
  if e.lifetime>0 ∧ e.lifetime<now then (none, counter-1) else (some e, counter)

structure SourcePolicy where
  isSamePublisher : (stored incoming : Entry) → Bool
  isPublishable : (now : Nat) → Entry → Bool

def kSourcePolicy : SourcePolicy where
  isSamePublisher stored incoming := decide (stored.address = incoming.address) &&
    (decide (stored.tcpPort = incoming.tcpPort) || decide (stored.udpPort = incoming.udpPort))
  isPublishable now e := !e.address.isNull && decide (e.tcpPort ≠ 0) && decide (e.udpPort ≠ 0) &&
    decide (e.getTagCount ≠ 0) && decide (now ≤ e.lifetime)

def kNotePolicy : SourcePolicy where
  isSamePublisher stored incoming := decide (stored.address = incoming.address) ||
    decide (stored.sourceID = incoming.sourceID)
  isPublishable _ e := !e.address.isNull && decide (e.getTagCount ≠ 0)

/-- Which of the two indexes `addSourceEntry` works on. -/
inductive SourceKind
  | source | note
  deriving DecidableEq

namespace SourceKind

def policy : SourceKind → SourcePolicy
  | source => kSourcePolicy
  | note => kNotePolicy

def perFileMax : SourceKind → Nat
  | source => KADEMLIAMAXSOURCEPERFILE
  | note => KADEMLIAMAXNOTESPERFILE

def lifetimeSecs : SourceKind → Nat
  | source => KADEMLIAREPUBLISHTIMES
  | note => KADEMLIAREPUBLISHTIMEN

def index : SourceKind → Indexed → List (Hash Entry)
  | source, s => s.sources
  | note, s => s.notes

def counter : SourceKind → Indexed → Nat
  | source, s => s.totalIndexSource
  | note, s => s.totalIndexNotes

def set (k : SourceKind) (index : List (Hash Entry)) (counter : Nat) (s : Indexed) : Indexed :=
  match k with
  | source => { s with sources := index, totalIndexSource := counter }
  | note => { s with notes := index, totalIndexNotes := counter }

end SourceKind

/-- Does the bucket belong to the publisher? -/
def Source.owned (policy : SourcePolicy) (entry : Entry) (source : Source Entry) : Bool :=
  match source.entryList with
  | [] => false
  | front :: _ => policy.isSamePublisher front entry

/-- The first bucket of the publisher takes the new entry; how many it had. -/
def replaceOwn (policy : SourcePolicy) (sourceID : UInt128) (entry : Entry) :
    List (Source Entry) → Option (Nat × List (Source Entry))
  | [] => none
  | source::sources =>
    if source.owned policy entry then
      some (source.entryList.length, ⟨sourceID,[entry]⟩ :: sources)
    else
      (replaceOwn policy sourceID entry sources).map fun (n, rest) => (n, source::rest)

/-- The file has buckets already: its own is replaced, the oldest is recycled, or a new one is
made. -/
def insertSource (policy : SourcePolicy) (perFileMax : Nat) (full : Bool) (sourceID : UInt128)
    (entry : Entry) (sources : List (Source Entry)) (counter : Nat) :
    Answer × List (Source Entry) × Nat :=
  match replaceOwn policy sourceID entry sources with
  | some (removed, sources') =>
    (⟨true,load sources.length perFileMax⟩, sources', counter-removed+1)
  | none =>
    if sources.length≥perFileMax then
      let removed := (sources.getLast?.map fun oldest => oldest.entryList.length).getD 0
      (⟨true,100⟩, ⟨sourceID,[entry]⟩ :: sources.dropLast, counter-removed+1)
    else if full then (⟨false,100⟩, sources, counter)
    else (⟨true,load sources.length perFileMax⟩, ⟨sourceID,[entry]⟩ :: sources, counter+1)

/-- The merge of a publish with what the keyword holds for its source; none when the keyword is
hot and only new files get in. -/
def insertKeyEntry (lower : QString → QString) (now : Nat) (sourceID : UInt128) (entry : KeyEntry)
    (sources : List (Source KeyEntry)) (g : Tracking) :
    Option (List (Source KeyEntry) × Nat × Tracking) :=
  match lookupKey Source.sourceID sourceID sources with
  | some source =>
    if !source.entryList.isEmpty && decide (sources.length>KADEMLIAMAXINDEX-5000) then none
    else
      let old := source.entryList.find? fun e => decide (e.size=entry.size)
      let rest := source.entryList.eraseP fun e => decide (e.size=entry.size)
      let (entry, left, g) := entry.mergeIPsAndFilenames lower now old g
      let g := (left.map fun old => old.destroy g).getD g
      some (upsert Source.sourceID sourceID (fun _ => { source with entryList := rest++[entry] })
        sources, if old.isNone then 1 else 0, g)
  | none =>
    let (entry, _, g) := entry.mergeIPsAndFilenames lower now none g
    some (upsert Source.sourceID sourceID (fun _ => ⟨sourceID,[entry]⟩) sources, 1, g)

namespace Indexed

/-- An index in memory, or one whose files are about to be loaded. -/
def create (now : Nat) (dataLoaded : Bool) : Indexed :=
  ⟨0, 0, 0, kCleanInterval + now, 0, [], [], [], dataLoaded, fun _ => 0⟩

def cleanLocked (now : Nat) (s : Indexed) : Indexed :=
  if now < s.nextClean then s
  else
    let (keywords, totalIndexKeyword, globalPublishIPs) :=
      cleanIndex (visitKeyEntry now) s.keywords (s.totalIndexKeyword, s.globalPublishIPs)
    let (sources, totalIndexSource) := cleanIndex (visitEntry now) s.sources s.totalIndexSource
    let (notes, totalIndexNotes) := cleanIndex (visitEntry now) s.notes s.totalIndexNotes
    { s with
      nextClean := kCleanInterval + now
      keywords, totalIndexKeyword, globalPublishIPs
      sources, totalIndexSource
      notes, totalIndexNotes }

def clean (now : Nat) (force : Bool) (s : Indexed) : Indexed :=
  if !s.dataLoaded then s else cleanLocked now (if force then { s with nextClean := 0 } else s)

/-- A full index first gets rid of what has expired, once a minute at most. -/
def forcedClean (k : SourceKind) (now : Nat) (fromFile : Bool) (s : Indexed) : Indexed :=
  if k.counter s≥KADEMLIAMAXENTRIES ∧ !fromFile ∧ now≥s.nextForcedClean then
    cleanLocked now { s with nextForcedClean := now+60, nextClean := 0 }
  else s

/-- The publish with the lifetime it is stored under. -/
def stampSource (k : SourceKind) (now : Nat) (fromFile : Bool) (entry : Entry) : Entry :=
  if fromFile then entry else { entry with lifetime := k.lifetimeSecs+now }

/-- What `addSourceEntry` does with a record that is worth storing, after the cleaning. -/
def storeSource (k : SourceKind) (keyID sourceID : UInt128) (entry : Entry) (s : Indexed) :
    Answer × Indexed :=
  let full := decide (k.counter s≥KADEMLIAMAXENTRIES)
  match lookupKey Hash.keyID keyID (k.index s) with
  | none =>
    if full then (⟨false,100⟩, s)
    else (⟨true,1⟩,
      k.set (upsert Hash.keyID keyID (fun _ => ⟨keyID,[⟨sourceID,[entry]⟩]⟩) (k.index s))
        (k.counter s+1) s)
  | some hash =>
    let (answer, sources, counter) :=
      insertSource k.policy k.perFileMax full sourceID entry hash.sources (k.counter s)
    (answer,
      k.set (upsert Hash.keyID keyID (fun _ => ⟨keyID,sources⟩) (k.index s)) counter s)

def addSourceEntry (k : SourceKind) (now : Nat) (keyID sourceID : UInt128) (entry : Entry)
    (fromFile : Bool) (s : Indexed) : Answer × Indexed :=
  let entry := stampSource k now fromFile entry
  if !k.policy.isPublishable now entry then (⟨false, 0⟩, s)
  else storeSource k keyID sourceID entry (forcedClean k now fromFile s)

def addSources (now : Nat) (keyID sourceID : UInt128) (entry : Entry) (s : Indexed) :
    Answer × Indexed :=
  if !s.dataLoaded then (⟨false, 0⟩, s) else addSourceEntry .source now keyID sourceID entry false s

def addNotes (now : Nat) (keyID sourceID : UInt128) (entry : Entry) (s : Indexed) :
    Answer × Indexed :=
  if !s.dataLoaded then (⟨false, 0⟩, s) else addSourceEntry .note now keyID sourceID entry false s

section AddKeyword

variable (lower : QString → QString)

def stampKeyEntry (now : Nat) (fromFile : Bool) (entry : KeyEntry) : KeyEntry :=
  if fromFile then entry else { entry with lifetime := KADEMLIAREPUBLISHTIMEK+now }

/-- Nothing malformed is indexed. -/
def unservable (now : Nat) (entry : KeyEntry) : Bool :=
  decide (entry.size = 0 ∨ getCommonFileName entry.fileNames = [] ∨ entry.getTagCount = 0 ∨
    entry.lifetime < now)

def addKeywordLocked (now : Nat) (keyID sourceID : UInt128) (entry : KeyEntry) (fromFile : Bool)
    (s : Indexed) : Answer × Indexed :=
  if s.totalIndexKeyword > KADEMLIAMAXENTRIES then (⟨false, 100⟩, s)
  else
    let entry := stampKeyEntry now fromFile entry
    if unservable now entry then (⟨false, 0⟩, s)
    else
      let found := lookupKey Hash.keyID keyID s.keywords
      let sources := (found.map fun keyHash => keyHash.sources).getD []
      if sources.length > KADEMLIAMAXINDEX then (⟨false, 100⟩, s)
      else
        match insertKeyEntry lower now sourceID entry sources s.globalPublishIPs with
        | none => (⟨false, 100⟩, s)
        | some (sources, new, g) =>
          (⟨true, load sources.length KADEMLIAMAXINDEX⟩,
            { s with
              keywords := upsert Hash.keyID keyID (fun _ => ⟨keyID, sources⟩) s.keywords
              totalIndexKeyword := s.totalIndexKeyword + new
              globalPublishIPs := g })

def addKeyword (now : Nat) (keyID sourceID : UInt128) (entry : KeyEntry) (s : Indexed) :
    Answer × Indexed :=
  if !s.dataLoaded then (⟨false, 0⟩, s)
  else addKeywordLocked lower now keyID sourceID entry false s

end AddKeyword

/-- A publish of a source or of a note, or a source read from the file. -/
structure SourcePublish where
  kind : SourceKind
  now : Nat
  keyID : UInt128
  sourceID : UInt128
  entry : Entry
  fromFile : Bool

namespace SourcePublish

/-- The record as it is stored. -/
def stored (p : SourcePublish) : Entry := stampSource p.kind p.now p.fromFile p.entry

def publishable (p : SourcePublish) : Bool := p.kind.policy.isPublishable p.now p.stored

def add (p : SourcePublish) (s : Indexed) : Answer × Indexed :=
  addSourceEntry p.kind p.now p.keyID p.sourceID p.entry p.fromFile s

end SourcePublish

/-- What can happen to an index. A keyword publish brings an entry without publishers; one from
the file brings its own. -/
inductive Op
  | addKeyword (now : Nat) (keyID sourceID : UInt128) (entry : KeyEntry)
  | addSources (now : Nat) (keyID sourceID : UInt128) (entry : Entry)
  | addNotes (now : Nat) (keyID sourceID : UInt128) (entry : Entry)
  | loadKeyword (now : Nat) (keyID sourceID : UInt128) (entry : KeyEntry)
  | loadSource (now : Nat) (keyID sourceID : UInt128) (entry : Entry)
  | finishLoad
  | clean (now : Nat) (force : Bool)

/-- An entry of the file has its publishers counted before it is inserted; when it is refused it
goes, and they with it. -/
def loadKeyword (lower : QString → QString) (now : Nat) (keyID sourceID : UInt128)
    (entry : KeyEntry) (s : Indexed) : Indexed :=
  let (answer, s) := addKeywordLocked lower now keyID sourceID entry true
    { s with globalPublishIPs := entry.track s.globalPublishIPs }
  if answer.accepted then s
  else { s with globalPublishIPs := entry.destroy s.globalPublishIPs }

def step (lower : QString → QString) (s : Indexed) : Op → Indexed
  | .addKeyword now keyID sourceID entry =>
    (addKeyword lower now keyID sourceID { entry with publishingIPs := none } s).2
  | .addSources now keyID sourceID entry => (addSources now keyID sourceID entry s).2
  | .addNotes now keyID sourceID entry => (addNotes now keyID sourceID entry s).2
  | .loadKeyword now keyID sourceID entry => loadKeyword lower now keyID sourceID entry s
  | .loadSource now keyID sourceID entry =>
    (addSourceEntry .source now keyID sourceID entry true s).2
  | .finishLoad => { s with dataLoaded := true }
  | .clean now force => s.clean now force

/-- The publish that an operation makes of the index in the state it meets. -/
def Op.sourcePublish (s : Indexed) : Op → Option SourcePublish
  | .addSources now keyID sourceID entry =>
    if s.dataLoaded then some ⟨.source,now,keyID,sourceID,entry,false⟩ else none
  | .addNotes now keyID sourceID entry =>
    if s.dataLoaded then some ⟨.note,now,keyID,sourceID,entry,false⟩ else none
  | .loadSource now keyID sourceID entry => some ⟨.source,now,keyID,sourceID,entry,true⟩
  | _ => none

end Indexed

end EmuleQt.Kademlia
