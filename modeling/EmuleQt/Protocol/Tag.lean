import EmuleQt.Crypto.Digest
import EmuleQt.Utils.QtString

namespace EmuleQt.Protocol

open Crypto Utils

def TAGTYPE_NONE : Nat := 0x00
def TAGTYPE_HASH : Nat := 0x01
def TAGTYPE_STRING : Nat := 0x02
def TAGTYPE_UINT32 : Nat := 0x03
def TAGTYPE_FLOAT32 : Nat := 0x04
def TAGTYPE_BOOL : Nat := 0x05
def TAGTYPE_BOOLARRAY : Nat := 0x06
def TAGTYPE_BLOB : Nat := 0x07
def TAGTYPE_UINT16 : Nat := 0x08
def TAGTYPE_UINT8 : Nat := 0x09
def TAGTYPE_BSOB : Nat := 0x0A
def TAGTYPE_UINT64 : Nat := 0x0B
def TAGTYPE_STR1 : Nat := 0x11
def TAGTYPE_STR22 : Nat := 0x26

/-- `m_value` and `m_type`, which no constructor and no setter lets disagree; a float is its
four bytes. -/
inductive TagValue
  | none
  | uint32 (v : UInt32)
  | uint64 (v : UInt64)
  | string (s : QString)
  | float (bytes : Digest 4)
  | hash (h : MD4Hash)
  | blob (data : List UInt8)
  | bsob (data : List UInt8)
  deriving DecidableEq

def TagValue.type : TagValue → Nat
  | none => TAGTYPE_NONE
  | uint32 _ => TAGTYPE_UINT32
  | uint64 _ => TAGTYPE_UINT64
  | string _ => TAGTYPE_STRING
  | float _ => TAGTYPE_FLOAT32
  | hash _ => TAGTYPE_HASH
  | blob _ => TAGTYPE_BLOB
  | bsob _ => TAGTYPE_BSOB

structure Tag where
  value : TagValue
  name : List UInt8
  nameId : UInt8
  deriving DecidableEq

namespace Tag

/-- The constructors from a numeric name; `makeBsob` for a BSOB. -/
def ofId (nameId : UInt8) (value : TagValue) : Tag := ⟨value,[],nameId⟩

/-- The constructors from a string name. -/
def ofName (name : List UInt8) (value : TagValue) : Tag := ⟨value,name,0⟩

/-- What the constructors and `makeBsob` build. -/
def Built (t : Tag) : Prop := t.value ≠ .none ∧ (t.name = [] ∨ t.nameId = 0)

/-- Type byte and name: the type, the name and its id. -/
def readHead : Reader (Nat × List UInt8 × UInt8) := do
  let type ← Reader.readUInt8
  if type &&& 0x80≠0 then do
    let nameId ← Reader.readUInt8
    pure (type &&& 0x7F, [], UInt8.ofNat nameId)
  else do
    let nameLen ← Reader.readUInt16
    if nameLen=1 then do
      let nameId ← Reader.readUInt8
      pure (type, [], UInt8.ofNat nameId)
    else if nameLen>0 then do
      let name ← Reader.read nameLen
      pure (type, name, 0)
    else pure (type, [], 0)

def readValue (optUTF8 : Bool) (type : Nat) : Reader TagValue :=
  if type=TAGTYPE_STRING then do
    let s ← readString optUTF8
    pure (.string s)
  else if type=TAGTYPE_UINT32 then do
    let v ← Reader.readUInt32
    pure (.uint32 (UInt32.ofNat v))
  else if type=TAGTYPE_UINT64 then do
    let v ← Reader.readUInt64
    pure (.uint64 (UInt64.ofNat v))
  else if type=TAGTYPE_UINT16 then do
    let v ← Reader.readUInt16
    pure (.uint32 (UInt32.ofNat v))
  else if type=TAGTYPE_UINT8 then do
    let v ← Reader.readUInt8
    pure (.uint32 (UInt32.ofNat v))
  else if type=TAGTYPE_FLOAT32 then do
    let f ← Digest.read 4
    pure (.float f)
  else if type=TAGTYPE_HASH then do
    let h ← Digest.read 16
    pure (.hash h)
  else if type=TAGTYPE_BLOB then do
    let blobLen ← Reader.readUInt32
    let left ← Reader.remaining
    if blobLen > left then Reader.throw ⟨"Tag blob length exceeds remaining data"⟩
    else do
      let data ← Reader.read blobLen
      pure (.blob data)
  else if type=TAGTYPE_BSOB then do
    let bsobLen ← Reader.readUInt8
    let data ← Reader.read bsobLen
    pure (.blob data)
  else if type=TAGTYPE_BOOL then do
    Reader.skip 1
    pure .none
  else if type=TAGTYPE_BOOLARRAY then do
    let bits ← Reader.readUInt16
    Reader.skip (bits / 8+1)
    pure .none
  else if TAGTYPE_STR1≤type ∧ type≤TAGTYPE_STR22 then do
    let s ← readStringOf optUTF8 (type-TAGTYPE_STR1+1)
    pure (.string s)
  else pure .none

/-- `Tag(FileDataIO&, bool)` -/
def read (optUTF8 : Bool) : Reader Tag := do
  let (type, name, nameId) ← readHead
  let value ← readValue optUTF8 type
  pure ⟨value, name, nameId⟩

/-- `count` tags in a row. -/
def readMany (optUTF8 : Bool) : (count : Nat) → Reader (List Tag)
  | 0 => pure []
  | count+1 => do
    let t ← read optUTF8
    let ts ← readMany optUTF8 count
    pure (t::ts)

/-- `m_nameId != 0 && m_name.isEmpty()` -/
def numeric (t : Tag) : Bool := decide (t.nameId ≠ 0 ∧ t.name = [])

def writeStringName (t : Tag) : List UInt8 := writeUInt16 t.name.length++t.name

def writeTagToFile (t : Tag) (encode : UTF8Mode) : Except FileException Bool × List UInt8 :=
  let head := writeUInt8 t.value.type ++
    if t.numeric then writeUInt16 1 ++ writeUInt8 t.nameId.toNat else t.writeStringName
  match t.value with
  | .string s =>
    match writeString s encode with
    | (.ok (), out) => (.ok true, head ++ out)
    | (.error e, out) => (.error e, head ++ out)
  | .uint32 v => (.ok true, head ++ writeUInt32 v.toNat)
  | .uint64 v => (.ok true, head ++ writeUInt64 v.toNat)
  | .float f => (.ok true, head ++ f.bytes)
  | .hash h => (.ok true, head ++ h.bytes)
  | .blob data => (.ok true, head ++ (writeUInt32 data.length ++ data))
  | .none => (.ok false, head)
  | .bsob _ => (.ok false, head)

def writeNameAndType (t : Tag) (wireType : Nat) : List UInt8 :=
  if t.numeric then writeUInt8 (wireType ||| 0x80) ++ writeUInt8 t.nameId.toNat
  else writeUInt8 wireType ++ t.writeStringName

/-- An integer in the shortest of the fields that hold it. -/
def writeInt (t : Tag) (v : Nat) : List UInt8 :=
  if v≤0xFF then t.writeNameAndType TAGTYPE_UINT8++writeUInt8 v
  else if v≤0xFFFF then t.writeNameAndType TAGTYPE_UINT16++writeUInt16 v
  else if v≤0xFFFFFFFF then t.writeNameAndType TAGTYPE_UINT32++writeUInt32 v
  else t.writeNameAndType TAGTYPE_UINT64++writeUInt64 v

def writeNewEd2kTag (t : Tag) (encode : UTF8Mode) : Except FileException Bool × List UInt8 :=
  match t.value with
  | .string s =>
    let raw := encodeString s encode
    let rawLen := raw.length % 2 ^ 32
    if 1 ≤ rawLen ∧ rawLen ≤ 16 then
      (.ok true, t.writeNameAndType (TAGTYPE_STR1 + rawLen - 1) ++ raw.take rawLen)
    else
      (.ok true, t.writeNameAndType TAGTYPE_STRING ++ (writeUInt16 rawLen ++ raw.take rawLen))
  | .uint32 v => (.ok true, t.writeInt v.toNat)
  | .uint64 v => (.ok true, t.writeInt v.toNat)
  | .float f => (.ok true, t.writeNameAndType TAGTYPE_FLOAT32 ++ f.bytes)
  | .hash h => (.ok true, t.writeNameAndType TAGTYPE_HASH ++ h.bytes)
  | .blob data =>
    (.ok true, t.writeNameAndType TAGTYPE_BLOB ++ (writeUInt32 data.length ++ data))
  | .none => (.ok false, [])
  | .bsob _ => (.ok false, [])

end Tag

end EmuleQt.Protocol
