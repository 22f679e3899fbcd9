import EmuleQt.Kademlia.Indexed
import EmuleQt.Kademlia.KadIO

namespace EmuleQt.Kademlia

open Crypto Math Net Protocol Utils

def kSearchTolerance : Nat := 0x1000000
def kMaxNoteDescriptionLen : Nat := 512

/-- `isInt() ? intValue() : isInt64(false) ? int64Value() : 0` -/
def sizeTagValue (tag : Tag) : UInt64 :=
  match tag.value with
  | .uint32 v => UInt64.ofNat v.toNat
  | .uint64 v => v
  | _ => 0

/-- The string of a file name tag. -/
def fileNameTag? (tag : Tag) : Option QString :=
  match tag.value with
  | .string name => if tag.nameId=FT_FILENAME then some name else none
  | _ => none

/-- A BSOB, or a BLOB in its place, of the size of an AICH hash. -/
def aichTag? (tag : Tag) : Option AICHHash :=
  match tag.value with
  | .bsob data | .blob data => if h : data.length=kAICHHashSize then some ⟨data,h⟩ else none
  | _ => none

/-- The hash a keyword publish reports: the first of its AICH tags that is good. -/
def reportedHash (tags : List Tag) : Option AICHHash :=
  tags.findSome? fun tag =>
    if fileNameTag? tag=none ∧ tag.nameId≠FT_FILESIZE ∧
        Entry.tagLookupKey tag=[TAG_KADAICHHASHPUB] then aichTag? tag
    else none

section Handlers

variable (lower : QString → QString)

namespace Entry

/-- The first name that is not empty stays. -/
def offerFileName (name : QString) (e : Entry) : Entry :=
  if getCommonFileName e.fileNames=[] then
    { e with fileNames := setFileName lower name e.fileNames }
  else e

/-- The first size that is not 0 stays. -/
def offerSize (tag : Tag) (e : Entry) : Entry :=
  if e.size=0 then { e with size := sizeTagValue tag } else e

end Entry

/-- One tag of a keyword publish. -/
def publishKeyTag (e : KeyEntry) (tag : Tag) : KeyEntry :=
  match fileNameTag? tag with
  | some name => { e with toEntry := e.toEntry.offerFileName lower name }
  | none =>
    if tag.nameId=FT_FILESIZE then { e with toEntry := e.toEntry.offerSize tag }
    else if Entry.tagLookupKey tag=[TAG_KADAICHHASHPUB] then
      match aichTag? tag with
      | none => e
      | some hash =>
        if e.aichHashes.length=0 then
          { e with toAICHHashes := (e.toAICHHashes.addRemoveAICHHash hash.bytes true).2 }
        else e
    else { e with toEntry := (e.toEntry.addTag tag).2 }

theorem publishKeyTag_cases (e : KeyEntry) (tag : Tag) :
    (∃ hash, reportedHash [tag]=some hash ∧ publishKeyTag lower e tag =
      if e.aichHashes.length=0 then
        { e with toAICHHashes := (e.toAICHHashes.addRemoveAICHHash hash.bytes true).2 }
      else e) ∨
    (reportedHash [tag]=none ∧
      ((∃ name, publishKeyTag lower e tag =
          { e with toEntry := e.toEntry.offerFileName lower name }) ∨
        publishKeyTag lower e tag = { e with toEntry := e.toEntry.offerSize tag } ∨
        publishKeyTag lower e tag=e ∨
        publishKeyTag lower e tag = { e with toEntry := (e.toEntry.addTag tag).2 })) := by
  unfold publishKeyTag reportedHash
  rw [List.findSome?_cons]
  cases hname : fileNameTag? tag with
  | some name =>
    exact Or.inr ⟨rfl,Or.inl ⟨name,rfl⟩⟩
  | none =>
    by_cases hsize : tag.nameId=FT_FILESIZE
    · rw [if_pos hsize,if_neg (fun h => h.2.1 hsize)]
      exact Or.inr ⟨rfl,Or.inr (Or.inl rfl)⟩
    · rw [if_neg hsize]
      by_cases hkey : Entry.tagLookupKey tag=[TAG_KADAICHHASHPUB]
      · rw [if_pos hkey,if_pos ⟨rfl,hsize,hkey⟩]
        cases aichTag? tag with
        | none => exact Or.inr ⟨rfl,Or.inr (Or.inr (Or.inl rfl))⟩
        | some hash => exact Or.inl ⟨hash,rfl,rfl⟩
      · rw [if_neg hkey,if_neg (fun h => hkey h.2.2)]
        exact Or.inr ⟨rfl,Or.inr (Or.inr (Or.inr rfl))⟩

/-- The entry of a keyword publish from the address. -/
def publishedKey (keyID sourceID : UInt128) (ip : UInt32) (tags : List Tag) : KeyEntry :=
  let blank : Entry := { Entry.create with keyID, sourceID, address := Address.fromHostOrder ip }
  tags.foldl (publishKeyTag lower) { KeyEntry.create with toEntry := blank }

/-- One tag of a source publish; the flag is `addUDPPortTag`. None is an exception that no
handler of ours catches. -/
def publishSourceTag (refused : UInt32 → Bool) (s : Entry × Bool) (tag : Tag) :
    Option (Entry × Bool) :=
  let (e, addUDPPortTag) := s
  if tag.nameId=FT_SOURCETYPE then
    if e.source then some s
    else
      let e := (e.addTag (.ofId FT_SOURCEIP (.uint32 e.address.toUint32))).2
      some ({ (e.addTag tag).2 with source := true }, addUDPPortTag)
  else if tag.nameId=FT_SOURCEPORT then
    if e.tcpPort≠0 then some s
    else
      match tag.value with
      | .uint32 v =>
        some (({ e with tcpPort := UInt16.ofNat v.toNat }.addTag tag).2, addUDPPortTag)
      | .uint64 v =>
        some (({ e with tcpPort := UInt16.ofNat v.toNat }.addTag tag).2, addUDPPortTag)
      | _ => none
  else if tag.nameId=FT_SOURCEUPORT then
    match tag.value with
    | .uint32 v =>
      if addUDPPortTag ∧ v≠0 then
        some (({ e with udpPort := UInt16.ofNat v.toNat }.addTag tag).2, false)
      else some s
    | _ => some s
  else if tag.nameId=FT_SERVERIP then
    match tag.value with
    | .uint32 buddyIP =>
      if refused buddyIP then some ({ e with source := false }, addUDPPortTag)
      else some ((e.addTag tag).2, addUDPPortTag)
    | _ => some s
  else if tag.nameId=FT_FILESIZE then some (e.offerSize tag, addUDPPortTag)
  else if tag.nameId=FT_SOURCEIP then some s
  else some ((e.addTag tag).2, addUDPPortTag)

/-- What one tag can do to the entry of a source publish. -/
theorem publishSourceTag_cases {refused : UInt32 → Bool} {e e' : Entry} {flag flag' : Bool}
    {tag : Tag} (h : publishSourceTag refused (e, flag) tag=some (e', flag')) :
    (e'=e ∧ flag'=flag) ∨
    (tag.nameId=FT_SOURCETYPE ∧ e.source=false ∧ flag'=flag ∧
      e' = { ((e.addTag (.ofId FT_SOURCEIP (.uint32 e.address.toUint32))).2.addTag tag).2 with
        source := true }) ∨
    (tag.nameId=FT_SOURCEPORT ∧ e.tcpPort=0 ∧ flag'=flag ∧ ∃ v : Nat,
      ((∃ w : UInt32, tag.value = .uint32 w ∧ w.toNat=v) ∨
        ∃ w : UInt64, tag.value = .uint64 w ∧ w.toNat=v) ∧
      e'=({ e with tcpPort := UInt16.ofNat v }.addTag tag).2) ∨
    (tag.nameId=FT_SOURCEUPORT ∧ flag=true ∧ flag'=false ∧ ∃ v : UInt32,
      tag.value = .uint32 v ∧ v≠0 ∧
      e'=({ e with udpPort := UInt16.ofNat v.toNat }.addTag tag).2) ∨
    (tag.nameId=FT_SERVERIP ∧ flag'=flag ∧
      (e' = { e with source := false } ∨ e'=(e.addTag tag).2)) ∨
    (tag.nameId=FT_FILESIZE ∧ flag'=flag ∧ e'=e.offerSize tag) ∨
    (tag.nameId≠FT_SOURCETYPE ∧ tag.nameId≠FT_SOURCEPORT ∧ tag.nameId≠FT_SOURCEUPORT ∧
      tag.nameId≠FT_FILESIZE ∧ tag.nameId≠FT_SOURCEIP ∧ flag'=flag ∧
      e'=(e.addTag tag).2) := by
  unfold publishSourceTag at h
  dsimp only at h
  by_cases htype : tag.nameId=FT_SOURCETYPE
  · rw [if_pos htype] at h
    cases hsource : e.source with
    | true =>
      rw [hsource,if_pos rfl] at h
      obtain ⟨rfl,rfl⟩ := Prod.mk.inj (Option.some.inj h)
      exact Or.inl ⟨rfl,rfl⟩
    | false =>
      rw [hsource,if_neg (by decide)] at h
      obtain ⟨rfl,rfl⟩ := Prod.mk.inj (Option.some.inj h)
      exact Or.inr (Or.inl ⟨htype,rfl,rfl,rfl⟩)
  rw [if_neg htype] at h
  by_cases hport : tag.nameId=FT_SOURCEPORT
  · rw [if_pos hport] at h
    by_cases htcp : e.tcpPort=0
    · rw [if_neg (not_not.mpr htcp)] at h
      cases hvalue : tag.value with
      | uint32 v =>
        rw [hvalue] at h
        obtain ⟨rfl,rfl⟩ := Prod.mk.inj (Option.some.inj h)
        exact Or.inr (Or.inr (Or.inl ⟨hport,htcp,rfl,v.toNat,Or.inl ⟨v,rfl,rfl⟩,rfl⟩))
      | uint64 v =>
        rw [hvalue] at h
        obtain ⟨rfl,rfl⟩ := Prod.mk.inj (Option.some.inj h)
        exact Or.inr (Or.inr (Or.inl ⟨hport,htcp,rfl,v.toNat,Or.inr ⟨v,rfl,rfl⟩,rfl⟩))
      | _ => simp [hvalue] at h
    · rw [if_pos htcp] at h
      obtain ⟨rfl,rfl⟩ := Prod.mk.inj (Option.some.inj h)
      exact Or.inl ⟨rfl,rfl⟩
  rw [if_neg hport] at h
  by_cases huport : tag.nameId=FT_SOURCEUPORT
  · rw [if_pos huport] at h
    cases hvalue : tag.value with
    | uint32 v =>
      rw [hvalue] at h
      dsimp only at h
      split_ifs at h with hflag
      · obtain ⟨rfl,rfl⟩ := Prod.mk.inj (Option.some.inj h)
        exact Or.inr (Or.inr (Or.inr (Or.inl ⟨huport,hflag.1,rfl,v,rfl,hflag.2,rfl⟩)))
      · obtain ⟨rfl,rfl⟩ := Prod.mk.inj (Option.some.inj h)
        exact Or.inl ⟨rfl,rfl⟩
    | _ =>
      rw [hvalue] at h
      obtain ⟨rfl,rfl⟩ := Prod.mk.inj (Option.some.inj h)
      exact Or.inl ⟨rfl,rfl⟩
  rw [if_neg huport] at h
  by_cases hserver : tag.nameId=FT_SERVERIP
  · rw [if_pos hserver] at h
    cases hvalue : tag.value with
    | uint32 v =>
      rw [hvalue] at h
      dsimp only at h
      refine Or.inr (Or.inr (Or.inr (Or.inr (Or.inl ⟨hserver,?_⟩))))
      split_ifs at h
      · obtain ⟨rfl,rfl⟩ := Prod.mk.inj (Option.some.inj h)
        exact ⟨rfl,Or.inl rfl⟩
      · obtain ⟨rfl,rfl⟩ := Prod.mk.inj (Option.some.inj h)
        exact ⟨rfl,Or.inr rfl⟩
    | _ =>
      rw [hvalue] at h
      obtain ⟨rfl,rfl⟩ := Prod.mk.inj (Option.some.inj h)
      exact Or.inl ⟨rfl,rfl⟩
  rw [if_neg hserver] at h
  split_ifs at h with hsize hip
  · obtain ⟨rfl,rfl⟩ := Prod.mk.inj (Option.some.inj h)
    exact Or.inr (Or.inr (Or.inr (Or.inr (Or.inr (Or.inl ⟨hsize,rfl,rfl⟩)))))
  · obtain ⟨rfl,rfl⟩ := Prod.mk.inj (Option.some.inj h)
    exact Or.inl ⟨rfl,rfl⟩
  · obtain ⟨rfl,rfl⟩ := Prod.mk.inj (Option.some.inj h)
    exact Or.inr (Or.inr (Or.inr (Or.inr (Or.inr (Or.inr
      ⟨htype,hport,huport,hsize,hip,rfl,rfl⟩)))))

/-- The entry of a source publish; a publisher that gave no UDP port gets the one we saw. -/
def publishedSource (refused : UInt32 → Bool) (now : Nat) (keyID sourceID : UInt128) (ip : UInt32)
    (udpPort : UInt16) (tags : List Tag) : Option Entry :=
  let blank : Entry := { Entry.create with
    keyID, sourceID, udpPort
    address := Address.fromHostOrder ip
    lifetime := KADEMLIAREPUBLISHTIMES+now }
  (tags.foldlM (publishSourceTag refused) (blank, true)).map fun (e, addUDPPortTag) =>
    if addUDPPortTag then
      (e.addTag (.ofId FT_SOURCEUPORT (.uint32 (UInt32.ofNat e.udpPort.toNat)))).2
    else e

/-- One tag of a note: name, size, comment and rating are all there is. -/
def publishNoteTag (e : Entry) (tag : Tag) : Entry :=
  match fileNameTag? tag with
  | some name => e.offerFileName lower name
  | none =>
    if tag.nameId=FT_FILESIZE then e.offerSize tag
    else
      match tag.value with
      | .string s =>
        if tag.nameId=FT_DESCRIPTION then
          (e.addTag (.ofId FT_DESCRIPTION (.string (s.take kMaxNoteDescriptionLen)))).2
        else e
      | .uint32 _ => if tag.nameId=FT_FILERATING then (e.addTag tag).2 else e
      | _ => e

def publishedNote (keyID sourceID : UInt128) (ip : UInt32) (udpPort : UInt16) (tags : List Tag) :
    Entry :=
  let blank : Entry := { Entry.create with
    keyID, sourceID, udpPort, address := Address.fromHostOrder ip }
  tags.foldl (publishNoteTag lower) blank

end Handlers

/-- What a publish handler asks the rest of the program: our own ID and reachability, and the
buddies that the IP filter or the ban list refuses. -/
structure Listener where
  lower : QString → QString
  isFirewalledUDP : Bool
  kadId : Option UInt128
  refused : UInt32 → Bool

/-- A packet of one of the three publish opcodes. -/
inductive PublishOpcode
  | KADEMLIA2_PUBLISH_KEY_REQ | KADEMLIA2_PUBLISH_SOURCE_REQ | KADEMLIA2_PUBLISH_NOTES_REQ
  deriving DecidableEq

namespace Listener

variable (listener : Listener)

/-- The top 32 bits of the distance. -/
def distanceChunk (a b : UInt128) : Nat := leValue (a.bytes.take 4) ^^^ leValue (b.bytes.take 4)

def shouldAcceptPublish (keyID : UInt128) (ip : UInt32) : Bool :=
  !listener.isFirewalledUDP && listener.kadId.elim false fun kadId =>
    decide (distanceChunk kadId keyID ≤ kSearchTolerance) || (Address.fromHostOrder ip).isLan

/-- A source ID and its tags. -/
def readSourceTags : Reader (UInt128 × List Tag) := do
  let sourceID ← Digest.read 16
  let tags ← readKadTagList
  pure (sourceID, tags)

/-- What a keyword publish brings before its data end or fail to parse. -/
def readKeyPublishes : (count : Nat) → List UInt8 → List (UInt128 × List Tag)
  | 0, _ => []
  | count+1, data =>
    if data=[] then []
    else
      match readSourceTags data with
      | .ok (publish, rest) => publish::readKeyPublishes count rest
      | .error _ => []

def process_KADEMLIA2_PUBLISH_KEY_REQ (now : Nat) (ip : UInt32) (data : List UInt8)
    (s : Indexed) : Indexed :=
  if data.length < 32 then s
  else
    match Digest.read 16 data with
    | .error _ => s
    | .ok (keyID, rest) =>
      if !listener.shouldAcceptPublish keyID ip then s
      else
        match Reader.readUInt16 rest with
        | .error _ => s
        | .ok (count, rest) =>
          (readKeyPublishes count rest).foldl (fun s (sourceID, tags) =>
            (s.addKeyword listener.lower now keyID sourceID
              (publishedKey listener.lower keyID sourceID ip tags)).2) s

/-- The head of a source or a note publish. -/
def readPublish (data : List UInt8) : Option (UInt128 × UInt128 × List Tag) :=
  if data.length<32 then none
  else
    match Digest.read 16 data with
    | .error _ => none
    | .ok (keyID, rest) =>
      match readSourceTags rest with
      | .error _ => none
      | .ok ((sourceID, tags), _) => some (keyID, sourceID, tags)

def process_KADEMLIA2_PUBLISH_SOURCE_REQ (now : Nat) (ip : UInt32) (udpPort : UInt16)
    (data : List UInt8) (s : Indexed) : Indexed :=
  match readPublish data with
  | none => s
  | some (keyID, sourceID, tags) =>
    if !listener.shouldAcceptPublish keyID ip then s
    else
      match publishedSource listener.refused now keyID sourceID ip udpPort tags with
      | none => s
      | some entry => if entry.source then (s.addSources now keyID sourceID entry).2 else s

def process_KADEMLIA2_PUBLISH_NOTES_REQ (now : Nat) (ip : UInt32) (udpPort : UInt16)
    (data : List UInt8) (s : Indexed) : Indexed :=
  match readPublish data with
  | none => s
  | some (keyID, sourceID, tags) =>
    if !listener.shouldAcceptPublish keyID ip then s
    else (s.addNotes now keyID sourceID
      (publishedNote listener.lower keyID sourceID ip udpPort tags)).2

end Listener

end EmuleQt.Kademlia
