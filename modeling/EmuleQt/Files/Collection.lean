import EmuleQt.Files.PartMet
import EmuleQt.Protocol.ED2KLink

namespace EmuleQt.Files

open Crypto Protocol Utils Utils.QString

def FT_FILETYPE : UInt8 := 0x03
def FT_FILEHASH : UInt8 := 0x28
def FT_COLLECTIONAUTHOR : UInt8 := 0x31
def FT_COLLECTIONAUTHORKEY : UInt8 := 0x32
def FT_FILECOMMENT : UInt8 := 0xF6
def FT_FILERATING : UInt8 := 0xF7

def kMaxWireTags : Nat := 256
def kCollectionFileVersion1 : Nat := 0x01
def kCollectionFileVersion2 : Nat := 0x02

/-- `readTagCount` with `kMaxWireTags`. -/
def readWireTagCount : Reader Nat := do
  let count ← Reader.readUInt32
  let left ← Reader.remaining
  if kMaxWireTags<count ∨ left<count then Reader.throw ⟨"Implausible tag count"⟩
  else pure count

/-- `setFileName` with invalid characters replaced. -/
def replaceInvalidChars (name : QString) : QString :=
  name.map fun u => if isInvalidFilenameChar u then 0x2D else u

structure CollectionFile where
  fileHash : MD4Hash
  fileSize : UInt64
  fileName : QString
  fileType : QString
  aichHash : Option AICHHash
  tags : List Tag

/-- What the constructor from a file reads of it. -/
structure SharedFile where
  fileHash : MD4Hash
  fileSize : UInt64
  fileName : QString
  fileType : QString
  aichHash : Option AICHHash
  comment : QString
  rating : UInt32

/-- Same name and same type. -/
def sameTag (existing tag : Tag) : Bool :=
  decide ((existing.nameId≠0 ∧ existing.nameId=tag.nameId ∨
    existing.name≠[] ∧ tag.name≠[] ∧ existing.name=tag.name) ∧
    existing.value.type=tag.value.type)

def addTagUnique (tag : Tag) : List Tag → List Tag
  | [] => [tag]
  | existing :: tags =>
    if sameTag existing tag then tag :: tags else existing :: addTagUnique tag tags

namespace CollectionFile

def blank : CollectionFile := ⟨Digest.zero 16, 0, [], [], none, []⟩

section Constructors

-- `getFileTypeByName` goes by the extension.
variable (fileTypeByName : QString → QString)

def setFileName (cf : CollectionFile) (name : QString) : CollectionFile :=
  let fileName := replaceInvalidChars name
  { cf with fileName := fileName, fileType := fileTypeByName fileName }

/-- One tag of an entry. -/
def loadTag (cf : CollectionFile) (tag : Tag) : CollectionFile :=
  if tag.nameId=FT_FILEHASH then
    match tag.value with
    | .hash h => { cf with fileHash := h }
    | _ => cf
  else if tag.nameId=FT_FILESIZE then
    match tag.value with
    | .uint32 v => { cf with fileSize := v.toUInt64 }
    | .uint64 v => { cf with fileSize := v }
    | _ => cf
  else if tag.nameId=FT_FILENAME then
    match tag.value with
    | .string s => cf.setFileName fileTypeByName s
    | _ => cf
  else if tag.nameId=FT_FILETYPE then
    match tag.value with
    | .string s => { cf with fileType := s }
    | _ => cf
  else if tag.nameId=FT_AICH_HASH then
    match tag.value with
    | .string s =>
      match decodeBase32 s kAICHHashSize with
      | some raw =>
        if h : raw.length=kAICHHashSize then { cf with aichHash := some ⟨raw,h⟩ } else cf
      | none => cf
    | _ => cf
  else { cf with tags := addTagUnique tag cf.tags }

/-- `CollectionFile(FileDataIO&)` -/
def read : Reader CollectionFile := do
  let tagCount ← readWireTagCount
  let tags ← Tag.readMany true tagCount
  pure (tags.foldl (loadTag fileTypeByName) blank)

/-- `CollectionFile(const AbstractFile*)` -/
def ofFile (file : SharedFile) : CollectionFile :=
  let cf := { blank with fileHash := file.fileHash, fileSize := file.fileSize }
  let cf := cf.setFileName fileTypeByName file.fileName
  let cf := if file.fileType=[] then cf else { cf with fileType := file.fileType }
  let tags := if file.comment=[] then []
    else addTagUnique (Tag.ofId FT_FILECOMMENT (.string file.comment)) []
  { cf with
    aichHash := file.aichHash
    tags := if file.rating=0 then tags
      else addTagUnique (Tag.ofId FT_FILERATING (.uint32 file.rating)) tags }

def initFromLink (r : LinkReader) (link : QString) : Option CollectionFile :=
  match parseED2KLink r link with
  | some (.file fileLink) =>
    let cf := { blank with fileHash := fileLink.hash, fileSize := fileLink.size }
    let cf := cf.setFileName fileTypeByName fileLink.name
    some { cf with aichHash := if fileLink.hasValidAICHHash then some fileLink.aichHash else none }
  | _ => none

/-- What the constructors make. -/
inductive Made : CollectionFile → Prop
  | read {s s' : List UInt8} {cf : CollectionFile} (h : read fileTypeByName s = .ok (cf, s')) :
    Made cf
  | ofFile (file : SharedFile) : Made (ofFile fileTypeByName file)
  | initFromLink {r : LinkReader} {link : QString} {cf : CollectionFile}
    (h : initFromLink fileTypeByName r link = some cf) : Made cf

end Constructors

def sizeTag (cf : CollectionFile) : WrittenTag :=
  if 0xFFFFFFFF<cf.fileSize then .int64 FT_FILESIZE cf.fileSize
  else .int FT_FILESIZE cf.fileSize.toUInt32

/-- The tags of an entry in the order of the file. -/
def infoTags (cf : CollectionFile) : List WrittenTag :=
  [⟨.writeNewEd2kTag,.None,Tag.ofId FT_FILEHASH (.hash cf.fileHash)⟩,cf.sizeTag,
    .str FT_FILENAME .Raw cf.fileName] ++
    (if cf.fileType=[] then [] else [.str FT_FILETYPE .Raw cf.fileType]) ++
    (cf.aichHash.toList.map fun h => .str FT_AICH_HASH .Raw (encodeBase32 h.bytes)) ++
    cf.tags.map fun t => ⟨.writeNewEd2kTag,.Raw,t⟩

def writeCollectionInfo (cf : CollectionFile) : List UInt8 :=
  writeUInt32 cf.infoTags.length ++ cf.infoTags.flatMap WrittenTag.bytes

end CollectionFile

/-- Where `std::map` puts an entry; one under the same hash stays. -/
def insertFile (cf : CollectionFile) : List CollectionFile → List CollectionFile
  | [] => [cf]
  | f::files =>
    if cf.fileHash=f.fileHash then f::files
    else if cf.fileHash.bytes<f.fileHash.bytes then cf::f::files
    else f::insertFile cf files

/-- The order of the map's keys. -/
def hashLt (a b : CollectionFile) : Prop := a.fileHash.bytes<b.fileHash.bytes

theorem mem_insertFile {cf f : CollectionFile} {files : List CollectionFile}
    (h : f∈insertFile cf files) : f=cf ∨ f∈files := by
  induction files with
  | nil => exact .inl (List.mem_singleton.mp h)
  | cons g files ih =>
    rw [insertFile] at h
    split at h
    · exact .inr h
    split at h
    · exact List.mem_cons.mp h
    · rcases List.mem_cons.mp h with rfl | h
      · exact .inr List.mem_cons_self
      · exact (ih h).imp_right (List.mem_cons_of_mem _)

theorem pairwise_insertFile {cf : CollectionFile} {files : List CollectionFile}
    (h : files.Pairwise hashLt) : (insertFile cf files).Pairwise hashLt := by
  induction files with
  | nil => exact List.pairwise_singleton _ _
  | cons f files ih =>
    obtain ⟨hf,hfiles⟩ := List.pairwise_cons.mp h
    rw [insertFile]
    split
    case isTrue => exact h
    case isFalse hne =>
      split
      case isTrue hlt =>
        refine List.pairwise_cons.mpr ⟨fun g hg => ?_,h⟩
        rcases List.mem_cons.mp hg with rfl | hg
        · exact hlt
        · exact List.lt_trans hlt (hf g hg)
      case isFalse hnot =>
        have hgt : hashLt f cf := by
          have hbytes : cf.fileHash.bytes≠f.fileHash.bytes := fun heq => hne (Digest.ext heq)
          rcases Std.lt_trichotomy cf.fileHash.bytes f.fileHash.bytes with hlt | heq | hgt
          · exact absurd hlt hnot
          · exact absurd heq hbytes
          · exact hgt
        refine List.pairwise_cons.mpr ⟨fun g hg => ?_,ih hfiles⟩
        rcases mem_insertFile hg with rfl | hg
        · exact hgt
        · exact hf g hg

/-- `std::map<QByteArray, std::unique_ptr<CollectionFile>>` under the hashes. -/
structure FileMap where
  entries : List CollectionFile
  ordered : entries.Pairwise hashLt

namespace FileMap

def empty : FileMap := ⟨[], List.Pairwise.nil⟩

def emplace (files : FileMap) (cf : CollectionFile) : FileMap :=
  ⟨insertFile cf files.entries, pairwise_insertFile files.ordered⟩

end FileMap

structure Collection where
  name : QString
  authorName : QString
  authorKey : List UInt8
  files : FileMap
  textFormat : Bool

/-- What the collection asks of OpenSSL, Qt and the other parts of the program. -/
structure CollectionEnv where
  SignKey : Type
  /-- `EVP_DigestSign` with SHA-1, `none` when a call of it fails. -/
  sign : SignKey → List UInt8 → Option (List UInt8)
  /-- `CollectionKeys::verifySignature` of message, signature and key. -/
  verify : (message signature key : List UInt8) → Bool
  fileTypeByName : QString → QString
  linkReader : LinkReader
  /-- The trimmed lines `QTextStream` reads. -/
  textLines : List UInt8 → List QString

namespace Collection

section Operations

variable (env : CollectionEnv)

/-- One tag of the header. -/
def headerTag (c : Collection) (tag : Tag) : Collection :=
  if tag.nameId=FT_FILENAME then
    match tag.value with
    | .string s => { c with name := s }
    | _ => c
  else if tag.nameId=FT_COLLECTIONAUTHOR then
    match tag.value with
    | .string s => { c with authorName := s }
    | _ => c
  else if tag.nameId=FT_COLLECTIONAUTHORKEY then
    match tag.value with
    | .blob data => { c with authorKey := data }
    | _ => c
  else c

/-- The header tags are taken over one by one; `none` after an exception. -/
def loadHeaderTags : (count : Nat) → Collection → List UInt8 → Collection × Option (List UInt8)
  | 0, c, s => (c, some s)
  | count+1, c, s =>
    match Tag.read true s with
    | .error _ => (c, none)
    | .ok (tag, s') => loadHeaderTags count (c.headerTag tag) s'

/-- Header and number of files. -/
def loadHeader (c : Collection) (s : List UInt8) : Collection × Option (Nat × List UInt8) :=
  match readWireTagCount s with
  | .error _ => (c, none)
  | .ok (headerTagCount, s) =>
    match loadHeaderTags headerTagCount c s with
    | (c, none) => (c, none)
    | (c, some s) =>
      match Reader.readUInt32 s with
      | .error _ => (c, none)
      | .ok (fileCount, s) => (c, some (fileCount, s))

/-- The entries up to the first damaged one: the files, what is left to read, and whether the
list was cut. -/
def loadEntries : (count : Nat) → FileMap → List UInt8 → FileMap × List UInt8 × Bool
  | 0, files, s => (files, s, false)
  | count+1, files, s =>
    match CollectionFile.read env.fileTypeByName s with
    | .error _ => (files, s, true)
    | .ok (cf, s') =>
      loadEntries count
        (if 0<cf.fileSize ∧ cf.fileName≠[] then files.emplace cf else files) s'

def verifySignature (c : Collection) (data : List UInt8) (signedLen : Nat) : Bool :=
  if c.authorKey = [] ∨ signedLen = 0 ∨ data.length ≤ signedLen then false
  else env.verify (data.take signedLen) (data.drop signedLen) c.authorKey

/-- `initFromFile` from the version on; `mem` are the bytes the memory file holds. -/
def loadBinary (c : Collection) (data mem s : List UInt8) : Bool × Collection :=
  match c.loadHeader s with
  | (c, none) => (false, { c with files := .empty, authorName := [], authorKey := [] })
  | (c, some (fileCount, s)) =>
    let (files, rest, truncated) := loadEntries env fileCount c.files s
    let c := { c with files := files }
    let c :=
      if c.authorKey=[] then { c with authorName := [] }
      else if truncated || !c.verifySignature env data (mem.length-rest.length) then
        { c with authorKey := [], authorName := [] }
      else c
    (!c.files.entries.isEmpty, c)

/-- A comment or an empty line is no link. -/
def loadText (c : Collection) (data : List UInt8) (displayName : QString) : Bool × Collection :=
  let links := (env.textLines data).filter fun line => line≠[] ∧ line.head? ≠ some 0x23
  let found := links.filterMap (CollectionFile.initFromLink env.fileTypeByName env.linkReader)
  let c := { c with
    files := found.foldl FileMap.emplace c.files
    name := displayName
    textFormat := true }
  (!c.files.entries.isEmpty, c)

/-- `initFromFile` of a file that can be opened; `displayName` is its name without the
collection's extension. The size of the memory file has 32 bits. -/
def initFromFile (c : Collection) (data : List UInt8) (displayName : QString) :
    Bool × Collection :=
  let c := { c with files := .empty, authorName := [], authorKey := [] }
  if data.length < 8 then c.loadText env data displayName
  else
    let mem := data.take (data.length % 2 ^ 32)
    match Reader.readUInt32 mem with
    | .error _ => (false, c)
    | .ok (version, s) =>
      if version = kCollectionFileVersion1 ∨ version = kCollectionFileVersion2 then
        c.loadBinary env data mem s
      else c.loadText env data displayName

/-- The name always, the author and the key if there is a key. -/
def headerTags (c : Collection) : List WrittenTag :=
  .str FT_FILENAME .Raw c.name ::
    if c.authorKey=[] then []
    else [.str FT_COLLECTIONAUTHOR .Raw c.authorName,.blob FT_COLLECTIONAUTHORKEY c.authorKey]

/-- Version 2 if a file exceeds 4 GB. -/
def version (c : Collection) : Nat :=
  if c.files.entries.any fun cf => decide (0xFFFFFFFF < cf.fileSize) then kCollectionFileVersion2
  else kCollectionFileVersion1

/-- The bytes that are signed. -/
def payload (c : Collection) : List UInt8 :=
  writeUInt32 c.version ++ (writeUInt32 (if c.authorKey = [] then 1 else 3) ++
    (c.headerTags.flatMap WrittenTag.bytes ++ (writeUInt32 c.files.entries.length ++
      c.files.entries.flatMap CollectionFile.writeCollectionInfo)))

/-- The bytes on disk; `none` when signing fails. -/
def writeBinary (c : Collection) (signKey : Option env.SignKey) : Option (List UInt8) :=
  match signKey with
  | none => some c.payload
  | some key => (env.sign key c.payload).map (c.payload ++ ·)

end Operations

end Collection

end EmuleQt.Files
