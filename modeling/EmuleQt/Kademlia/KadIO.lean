import EmuleQt.Protocol.Tag

namespace EmuleQt.Kademlia

open Crypto Math Protocol Utils

def readBsob : Reader (List UInt8) := do
  let len ← Reader.readUInt8
  Reader.read len

def writeBsob (data : List UInt8) : List UInt8 :=
  let len := data.length % 2 ^ 8
  writeUInt8 len ++ data.take len

def readStringUTF8 : Reader QString := do
  let len ← Reader.readUInt16
  if len = 0 then pure []
  else do
    let raw ← Reader.read len
    pure (QString.fromUtf8 raw)

def writeStringUTF8 (str : QString) : List UInt8 :=
  let utf8 := QString.toUtf8 str
  writeUInt16 utf8.length ++ utf8

def readKadTagValue (type : Nat) : Reader TagValue :=
  if type=TAGTYPE_STRING then do
    let val ← readStringUTF8
    pure (.string val)
  else if type=TAGTYPE_UINT64 then do
    let val ← Reader.readUInt64
    pure (.uint64 (UInt64.ofNat val))
  else if type=TAGTYPE_UINT32 then do
    let val ← Reader.readUInt32
    pure (.uint32 (UInt32.ofNat val))
  else if type=TAGTYPE_UINT16 then do
    let val ← Reader.readUInt16
    pure (.uint32 (UInt32.ofNat val))
  else if type=TAGTYPE_UINT8 then do
    let val ← Reader.readUInt8
    pure (.uint32 (UInt32.ofNat val))
  else if type=TAGTYPE_FLOAT32 then do
    let val ← Digest.read 4
    pure (.float val)
  else if type=TAGTYPE_HASH then do
    let hash ← Digest.read 16
    pure (.hash hash)
  else if type=TAGTYPE_BSOB then do
    let bsob ← readBsob
    pure (.bsob bsob)
  else Reader.throw ⟨"Kad: unsupported tag type"⟩

/-- A name of one byte is the numeric id. -/
def kadTagOf (name : List UInt8) (value : TagValue) : Tag :=
  match name with
  | [id] => .ofId id value
  | _ => .ofName name value

def readKadTag : Reader Tag := do
  let type ← Reader.readUInt8
  let nameLen ← Reader.readUInt16
  let name ← Reader.read nameLen
  let value ← readKadTagValue type
  pure (kadTagOf name value)

/-- The name on the wire: a numeric id as one byte. -/
def kadTagName (tag : Tag) : List UInt8 :=
  if tag.name=[] ∧ tag.nameId>0 then [tag.nameId] else tag.name

def writeKadTagHead (type : Nat) (tagName : List UInt8) : List UInt8 :=
  writeUInt8 type++(writeUInt16 tagName.length++tagName)

/-- An integer in the smallest of the types that hold it. -/
def writeKadInt (tagName : List UInt8) (val : Nat) : List UInt8 :=
  if val≤0xFF then writeKadTagHead TAGTYPE_UINT8 tagName++writeUInt8 val
  else if val≤0xFFFF then writeKadTagHead TAGTYPE_UINT16 tagName++writeUInt16 val
  else if val≤0xFFFFFFFF then writeKadTagHead TAGTYPE_UINT32 tagName++writeUInt32 val
  else writeKadTagHead TAGTYPE_UINT64 tagName++writeUInt64 val

def writeKadTagBsob (tagName bsobData : List UInt8) : List UInt8 :=
  writeKadTagHead TAGTYPE_BSOB tagName ++ writeBsob bsobData

def writeKadTag (tag : Tag) : List UInt8 :=
  let tagName := kadTagName tag
  match tag.value with
  | .string s => writeKadTagHead TAGTYPE_STRING tagName ++ writeStringUTF8 s
  | .uint32 v => writeKadInt tagName v.toNat
  | .uint64 v => writeKadInt tagName v.toNat
  | .float f => writeKadTagHead TAGTYPE_FLOAT32 tagName ++ f.bytes
  | .hash h => writeKadTagHead TAGTYPE_HASH tagName ++ h.bytes
  | .bsob data => writeKadTagBsob tagName data
  | .none | .blob _ => writeKadTagHead TAGTYPE_UINT32 tagName ++ writeUInt32 0

/-- `count` tags in a row. -/
def readKadTags : (count : Nat) → Reader (List Tag)
  | 0 => pure []
  | count+1 => do
    let tag ← readKadTag
    let tags ← readKadTags count
    pure (tag::tags)

def readKadTagList : Reader (List Tag) := do
  let count ← Reader.readUInt8
  readKadTags count

def writeKadTagList (tags : List Tag) : List UInt8 :=
  writeUInt8 tags.length ++ tags.flatMap writeKadTag

/-- Text with room in its length field, in which no surrogate is alone and which begins with no
byte order mark. -/
def Readable (s : QString) : Prop :=
  (QString.toUtf8 s).length < 2 ^ 16 ∧ ∃ cs : List Char, s = cs.flatMap utf16 ∧
    cs.head? ≠ some '\uFEFF'

theorem fromUtf8_nil : QString.fromUtf8 []=[] := by
  simp [QString.fromUtf8,QString.decodeUtf8,EmuleQt.Math.utf8Chars,QString.kBom]

theorem readStringUTF8_write (s : QString) (rest : List UInt8) :
    let utf8 := QString.toUtf8 s
    let len := utf8.length%2^16
    readStringUTF8 (writeStringUTF8 s++rest) =
      .ok (QString.fromUtf8 (utf8.take len), utf8.drop len++rest) := by
  dsimp only
  unfold readStringUTF8 writeStringUTF8
  generalize QString.toUtf8 s=utf8
  have hlen : Reader.readUInt16 (writeUInt16 utf8.length++(utf8++rest)) =
      .ok (utf8.length%2^16, utf8++rest) := Reader.readUInt_leBytes_mod 2 _ _
  rw [List.append_assoc,Reader.bind_ok hlen]
  split_ifs with hzero
  · rw [hzero,List.take_zero,List.drop_zero,fromUtf8_nil]
    rfl
  · have hread : Reader.read (utf8.length%2^16) (utf8++rest) =
        .ok (utf8.take (utf8.length%2^16), utf8.drop (utf8.length%2^16)++rest) := by
      have hle := Nat.mod_le utf8.length (2^16)
      have hsplit : utf8++rest=utf8.take (utf8.length%2^16) ++
          (utf8.drop (utf8.length%2^16)++rest) := by
        rw [← List.append_assoc,List.take_append_drop]
      conv_lhs => rw [hsplit]
      exact Reader.read_append (by rw [List.length_take,Nat.min_eq_left hle]) _
    rw [Reader.bind_ok hread]
    rfl

end EmuleQt.Kademlia
