import EmuleQt.Framework.Sweep
import EmuleQt.Net.Address
import EmuleQt.Protocol.Tag

namespace EmuleQt.Kademlia

open Crypto Framework Net Protocol Utils

/-- As it is read and written: 16 raw bytes. -/
abbrev UInt128 := Digest 16

def FT_FILENAME : UInt8 := 0x01
def FT_FILESIZE : UInt8 := 0x02
def FT_DESCRIPTION : UInt8 := 0x0B
def TAG_PUBLISHINFO : UInt8 := 0x33
def TAG_KADAICHHASHPUB : UInt8 := 0x36
def TAG_KADAICHHASHRESULT : UInt8 := 0x37
def FT_FILERATING : UInt8 := 0xF7
def FT_SERVERIP : UInt8 := 0xFB
def FT_SOURCEUPORT : UInt8 := 0xFC
def FT_SOURCEPORT : UInt8 := 0xFD
def FT_SOURCEIP : UInt8 := 0xFE
def FT_SOURCETYPE : UInt8 := 0xFF

/-- In seconds. -/
def KADEMLIAREPUBLISHTIMES : Nat := 18000
def KADEMLIAREPUBLISHTIMEN : Nat := 86400
def KADEMLIAREPUBLISHTIMEK : Nat := 86400
def KADEMLIAMAXFILENAMESPERKEY : Nat := 32
def kMaxPublishers : Nat := 100

structure FileNameEntry where
  fileName : QString
  popularityIndex : UInt32
  deriving DecidableEq

structure Entry where
  address : Address
  tcpPort : UInt16
  udpPort : UInt16
  keyID : UInt128
  sourceID : UInt128
  size : UInt64
  lifetime : Nat
  source : Bool
  fileNames : List FileNameEntry
  tags : List Tag
  deriving DecidableEq

def tagNameMatches (tag : Tag) (tagName : List UInt8) : Bool :=
  match tagName, tag.name with
  | [id], [] => decide (tag.nameId = id)
  | _, name => decide (name = tagName)

section FileNames

variable (lower : QString → QString)

def getCommonFileName (names : List FileNameEntry) : QString :=
  let best := names.foldl (fun best entry =>
    match best with
    | none => some entry
    | some b => if entry.popularityIndex > b.popularityIndex then some entry else some b) none
  best.elim [] (·.fileName)

/-- `std::ranges::min_element` finds the first of the least popular names. -/
def eraseLeast (names : List FileNameEntry) (least : FileNameEntry) : List FileNameEntry :=
  names.eraseP fun n => decide (n.popularityIndex=least.popularityIndex)

def leastPopular (names : List FileNameEntry) : Option FileNameEntry :=
  names.foldl (fun least entry =>
    match least with
    | none => some entry
    | some l => if entry.popularityIndex<l.popularityIndex then some entry else some l) none

/-- `rounds` is how many names are too many. -/
def addFileNameFrom (name : FileNameEntry) (force : Bool) :
    (rounds : Nat) → List FileNameEntry → List FileNameEntry
  | 0, names => names++[name]
  | rounds+1, names =>
    match leastPopular names with
    | none => names++[name]
    | some least =>
      if !force && decide (name.popularityIndex≤least.popularityIndex) then names
      else addFileNameFrom name force rounds (eraseLeast names least)

def addFileNameCapped (names : List FileNameEntry) (name : FileNameEntry) (force : Bool) :
    List FileNameEntry :=
  addFileNameFrom name force (names.length + 1 - KADEMLIAMAXFILENAMESPERKEY) names

/-- Whether two names differ in case at most, as `kadTagStrToLower` has it. -/
def sameName (a b : QString) : Bool := decide (lower a=lower b)

def bumpName (name : QString) : List FileNameEntry → List FileNameEntry
  | [] => []
  | n::ns =>
    if sameName lower n.fileName name then { n with popularityIndex := n.popularityIndex+1 } :: ns
    else n::bumpName name ns

def setFileName (name : QString) (names : List FileNameEntry) : List FileNameEntry :=
  if name = [] then names
  else if names.any fun n => sameName lower n.fileName name then bumpName lower name names
  else addFileNameCapped names ⟨name, 1⟩ true

/-- The old entry's names with the one name of the new entry among them. -/
def mergeFileNames (fastRefresh : Bool) (new old : List FileNameEntry) : List FileNameEntry :=
  let currentName := new.headD ⟨[],0⟩
  let known := fun n : FileNameEntry => sameName lower currentName.fileName n.fileName
  let merged := old.map fun n =>
    if known n then { n with popularityIndex := n.popularityIndex+if fastRefresh then 0 else 1 }
    else n
  if !old.any known && decide (currentName.fileName≠[]) then
    addFileNameCapped merged currentName true
  else merged

end FileNames

namespace Entry

/-- What `new Entry()` holds. -/
def create : Entry := ⟨.none, 0, 0, .zero 16, .zero 16, 0, 0, false, [], []⟩

def tagLookupKey (tag : Tag) : List UInt8 :=
  if tag.name = [] ∧ tag.nameId ≠ 0 then [tag.nameId] else tag.name

def addTag (e : Entry) (tag : Tag) : Bool × Entry :=
  let key := tagLookupKey tag
  if key = [TAG_PUBLISHINFO] ∨ key = [TAG_KADAICHHASHRESULT] then (false, e)
  else if key = [FT_SOURCEIP] ∧ e.tags.any fun t => tagNameMatches t [FT_SOURCEIP] then (false, e)
  else (true, { e with tags := e.tags ++ [tag] })

def getTagCount (e : Entry) : Nat :=
  e.tags.length + (if e.fileNames ≠ [] then 1 else 0) + if e.size > 0 then 1 else 0

end Entry

/-- Hashes with the number of publishers that report each; a slot is never erased. -/
structure AICHHashes where
  aichHashes : List (List UInt8)
  aichHashPopularity : List UInt8
  deriving DecidableEq

def kNoAICHHash : UInt16 := 0xFFFF

namespace AICHHashes

def addRemoveAICHHash (a : AICHHashes) (hash : List UInt8) (add : Bool) : UInt16 × AICHHashes :=
  match a.aichHashes.idxOf? hash with
  | some i =>
    (UInt16.ofNat i, { a with aichHashPopularity := a.aichHashPopularity.modify i fun n =>
      if add then if n < 255 then n + 1 else n else if n > 0 then n - 1 else n })
  | none =>
    if !add then (kNoAICHHash, a)
    else (UInt16.ofNat a.aichHashes.length,
      ⟨a.aichHashes ++ [hash], a.aichHashPopularity ++ [1]⟩)

/-- A publisher at the index lets go of its hash. -/
def release (a : AICHHashes) (idx : UInt16) : AICHHashes :=
  if idx = kNoAICHHash then a
  else
    match a.aichHashes[idx.toNat]? with
    | none => a
    | some hash => (a.addRemoveAICHHash hash false).2

/-- A publisher at the index now reports `newHash`; the empty one stands for none. -/
def report (a : AICHHashes) (idx : UInt16) (newHash : List UInt8) : UInt16 × AICHHashes :=
  if newHash ≠ [] then
    if idx = kNoAICHHash then a.addRemoveAICHHash newHash true
    else
      match a.aichHashes[idx.toNat]? with
      | none => (idx, a)
      | some hash =>
        if hash ≠ newHash then (a.addRemoveAICHHash hash false).2.addRemoveAICHHash newHash true
        else (idx, a)
  else if idx = kNoAICHHash then (idx, a)
  else
    match a.aichHashes[idx.toNat]? with
    | none => (idx, a)
    | some hash => (kNoAICHHash, (a.addRemoveAICHHash hash false).2)

end AICHHashes

structure PublishingIP where
  lastPublish : Nat
  ip : Address
  aichHashIdx : UInt16
  deriving DecidableEq

def PublishingIP.expired (now : Nat) (p : PublishingIP) : Bool :=
  decide (KADEMLIAREPUBLISHTIMEK + p.lastPublish ≤ now)

structure KeyEntry extends Entry, AICHHashes where
  publishingIPs : Option (List PublishingIP)
  deriving DecidableEq

/-- `s_globalPublishIPs`: publishers for each /24 block. -/
abbrev Tracking := UInt32 → Nat

def subnet (ip : Address) : UInt32 := ip.toUint32 &&& 0xFFFFFF00

def adjustGlobalPublishTracking (g : Tracking) (ip : Address) (increase : Bool) : Tracking :=
  Function.update g (subnet ip) (if increase then g (subnet ip) + 1 else g (subnet ip) - 1)

namespace KeyEntry

/-- What `new KeyEntry()` holds. -/
def create : KeyEntry :=
  { Entry.create with aichHashes := [], aichHashPopularity := [], publishingIPs := none }

/-- Publishers read from the file are counted as they are read. -/
def track (e : KeyEntry) (g : Tracking) : Tracking :=
  (e.publishingIPs.getD []).foldl (fun g p => adjustGlobalPublishTracking g p.ip true) g

/-- The destructor gives the publishers back. -/
def destroy (e : KeyEntry) (g : Tracking) : Tracking :=
  (e.publishingIPs.getD []).foldl (fun g p => adjustGlobalPublishTracking g p.ip false) g

/-- The publisher already has a record in the list the new entry takes over: it goes to the back. -/
def refreshPublisher (e : KeyEntry) (ips : List PublishingIP) (cur : PublishingIP)
    (newHash : List UInt8) (now : Nat) : KeyEntry :=
  let (idx, aich) := e.toAICHHashes.report cur.aichHashIdx newHash
  { e with
    toAICHHashes := aich
    publishingIPs := some (ips.eraseP (fun p => decide (p.ip=e.address)) ++
      [{ cur with lastPublish := now, aichHashIdx := idx }]) }

/-- A publisher without a record gets one, and the oldest of more than a hundred goes. -/
def recordPublisher (e : KeyEntry) (ips : List PublishingIP) (newHash : List UInt8) (now : Nat)
    (g : Tracking) : KeyEntry × Tracking :=
  let (idx, aich) := if newHash=[] then (kNoAICHHash, e.toAICHHashes)
    else e.toAICHHashes.addRemoveAICHHash newHash true
  let ips := ips++[⟨now,e.address,idx⟩]
  let g := adjustGlobalPublishTracking g e.address true
  match ips with
  | oldest::rest =>
    if ips.length>kMaxPublishers then
      ({ e with toAICHHashes := aich.release oldest.aichHashIdx, publishingIPs := some rest },
        adjustGlobalPublishTracking g oldest.ip false)
    else ({ e with toAICHHashes := aich, publishingIPs := some ips }, g)
  | [] => ({ e with toAICHHashes := aich, publishingIPs := some ips }, g)

def mergeIPsAndFilenames (lower : QString → QString) (now : Nat) (e : KeyEntry)
    (old : Option KeyEntry) (g : Tracking) : KeyEntry × Option KeyEntry × Tracking :=
  if e.publishingIPs.isSome then (e, old, g)
  else
    let newHash := e.aichHashes.headD []
    let e := { e with aichHashes := [], aichHashPopularity := [] }
    match old.bind (·.publishingIPs) with
    | none =>
      let (e, g) := e.recordPublisher [] newHash now g
      (e, old, g)
    | some ips =>
      let names := (old.map (·.fileNames)).getD []
      let e := { e with toAICHHashes := (old.map KeyEntry.toAICHHashes).getD ⟨[], []⟩ }
      let left := old.map fun o => { o with publishingIPs := none }
      match ips.find? fun p => decide (p.ip = e.address) with
      | some cur =>
        let fastRefresh := decide (now < KADEMLIAREPUBLISHTIMES - 3600 + cur.lastPublish)
        let e := e.refreshPublisher ips cur newHash now
        ({ e with fileNames := mergeFileNames lower fastRefresh e.fileNames names }, left, g)
      | none =>
        let e := { e with fileNames := mergeFileNames lower false e.fileNames names }
        let (e, g) := e.recordPublisher ips newHash now g
        (e, left, g)

/-- An expired record gives back its hash and its count. -/
def visitPublisher (now : Nat) (p : PublishingIP) (s : AICHHashes × Tracking) :
    Option PublishingIP × (AICHHashes × Tracking) :=
  if p.expired now then
    (none, (s.1.release p.aichHashIdx, adjustGlobalPublishTracking s.2 p.ip false))
  else (some p, s)

def cleanUpTrackedPublishers (now : Nat) (e : KeyEntry) (g : Tracking) : KeyEntry × Tracking :=
  match e.publishingIPs with
  | none => (e, g)
  | some ips =>
    let (kept, aich, g) := sweep (visitPublisher now) ips (e.toAICHHashes, g)
    ({ e with toAICHHashes := aich, publishingIPs := some kept }, g)

end KeyEntry

theorem addRemoveAICHHash_false (a : AICHHashes) (hash : List UInt8) :
    (a.addRemoveAICHHash hash false).2.aichHashes=a.aichHashes := by
  unfold AICHHashes.addRemoveAICHHash
  cases a.aichHashes.idxOf? hash <;> rfl

theorem release_hashes (a : AICHHashes) (idx : UInt16) :
    (a.release idx).aichHashes=a.aichHashes := by
  unfold AICHHashes.release
  split_ifs
  · rfl
  · cases a.aichHashes[idx.toNat]? with
    | none => rfl
    | some hash => exact addRemoveAICHHash_false a hash

theorem recordPublisher_toEntry (e : KeyEntry) (ips : List PublishingIP) (newHash : List UInt8)
    (now : Nat) (g : Tracking) : (e.recordPublisher ips newHash now g).1.toEntry=e.toEntry := by
  unfold KeyEntry.recordPublisher
  dsimp only
  split
  · split_ifs <;> rfl
  · rfl

end EmuleQt.Kademlia
