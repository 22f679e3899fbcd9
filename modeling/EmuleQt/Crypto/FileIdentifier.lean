import EmuleQt.Crypto.AICHHashSet

namespace EmuleQt.Crypto

open Utils

structure FileIdentifier where
  fileSize : Nat
  md4Hash : MD4Hash
  aichHash : AICHHash
  hasValidAICHHash : Bool
  md4HashSet : List MD4Hash
  aichPartHashSet : List AICHHash
  deriving DecidableEq

/-- Reading into an identifier; what is stored before an exception stays. -/
def IdReader (α : Type) : Type :=
  FileIdentifier → List UInt8 → Except FileException (α × List UInt8) × FileIdentifier

namespace IdReader

instance : Monad IdReader where
  pure a := fun id s => (.ok (a, s), id)
  bind x f := fun id s =>
    match x id s with
    | (.ok (a, s'), id') => f a id' s'
    | (.error e, id') => (.error e, id')

def lift {α : Type} (x : Reader α) : IdReader α := fun id s => (x s, id)

def get : IdReader FileIdentifier := fun id s => (.ok (id, s), id)

def modify (f : FileIdentifier → FileIdentifier) : IdReader Unit := fun id s => (.ok ((), s), f id)

/-- A member function that answers and may change the identifier. -/
def call (f : FileIdentifier → Bool × FileIdentifier) : IdReader Bool :=
  fun id s => (.ok ((f id).1, s), (f id).2)

variable {α β : Type} {f : α → IdReader β}

@[simp] theorem pure_apply (a : α) (id : FileIdentifier) (s : List UInt8) :
    (pure a : IdReader α) id s=(.ok (a, s), id) := rfl

@[simp] theorem get_bind (f : FileIdentifier → IdReader β) (id : FileIdentifier) (s : List UInt8) :
    (get >>= f) id s=f id id s := rfl

@[simp] theorem modify_bind (g : FileIdentifier → FileIdentifier) (f : Unit → IdReader β)
    (id : FileIdentifier) (s : List UInt8) :
    (modify g >>= f) id s=f () (g id) s := rfl

theorem bind_ok {x : IdReader α} {id id' : FileIdentifier} {s s' : List UInt8} {a : α}
    (h : x id s=(.ok (a, s'), id')) :
    (x >>= f) id s=f a id' s' := by
  change (match x id s with
    | (.ok (a, s'), id') => f a id' s'
    | (.error e, id') => (.error e, id'))=_
  rw [h]

theorem lift_bind_ok {x : Reader α} {s s' : List UInt8} {a : α} (h : x s = .ok (a, s'))
    (id : FileIdentifier) : (lift x >>= f) id s=f a id s' :=
  bind_ok (congrArg (·, id) h)

theorem lift_bind_error {x : Reader α} {s : List UInt8} {e : FileException} (h : x s = .error e)
    (id : FileIdentifier) :
    (lift x >>= f) id s=(.error e, id) := by
  change (match (x s, id) with
    | (.ok (a, s'), id') => f a id' s'
    | (.error e, id') => (.error e, id'))=_
  rw [h]

end IdReader

/-- A loop of `count` hashes, each stored as it is read. -/
def pushHashes {n : Nat} (push : Digest n → FileIdentifier → FileIdentifier) :
    (count : Nat) → IdReader Unit
  | 0 => pure ()
  | count+1 => do
    let h ← IdReader.lift (Digest.read n)
    IdReader.modify (push h)
    pushHashes push count

/-- `count` hashes read into a temporary. -/
def skipHashes (n : Nat) : (count : Nat) → Reader Unit
  | 0 => pure ()
  | count+1 => do
    let _ ← Digest.read n
    skipHashes n count

def hashesBytes {n : Nat} (hashes : List (Digest n)) : List UInt8 := hashes.flatMap Digest.bytes

/-- `(fileSize + PARTSIZE - 1) / PARTSIZE` on uint64. -/
def partsOf (fileSize : Nat) : Nat := (fileSize+PARTSIZE-1)%2^64/PARTSIZE

/-- `findHash` for a part, and its hash written to the node found. -/
def placePart (startPos size : Nat) (h : AICHHash) (t : AICHHashTree) : Option AICHHashTree :=
  let f := t.findHash AICHHashTree.maxLevels startPos size
  f.found.map fun path => f.tree.modify (fun n => { n with hash := h, hashValid := true }) path

/-- The loop of `verifyAICHHashSet` over the parts; none when a part has no node. -/
def placeParts (fileSize : Nat) : (part : Nat) → List AICHHash → AICHHashTree → Option AICHHashTree
  | _, [], t => some t
  | part, h::hashes, t =>
    match placePart (part*PARTSIZE)
        (AICHRecoveryHashSet.partSizeAt fileSize (part*PARTSIZE)) h t with
    | none => none
    | some t => placeParts fileSize (part+1) hashes t

namespace FileIdentifier

def getTheoreticalMD4PartHashCount (id : FileIdentifier) : Nat :=
  if id.fileSize = 0 then 0
  else
    let result := id.fileSize / PARTSIZE % 2 ^ 16
    (result + (decide (result > 0)).toNat) % 2 ^ 16

def hasExpectedMD4HashCount (id : FileIdentifier) : Bool :=
  decide (id.getTheoreticalMD4PartHashCount = id.md4HashSet.length % 2 ^ 16)

def getTheoreticalAICHPartHashCount (id : FileIdentifier) : Nat :=
  if id.fileSize ≤ PARTSIZE then 0 else partsOf id.fileSize % 2 ^ 16

def hasExpectedAICHHashCount (id : FileIdentifier) : Bool :=
  decide (id.getTheoreticalAICHPartHashCount = id.aichPartHashSet.length % 2 ^ 16)

def deleteMD4Hashset (id : FileIdentifier) : FileIdentifier := { id with md4HashSet := [] }

def getMD4PartHash (id : FileIdentifier) (part : Nat) : Option MD4Hash := id.md4HashSet[part]?

def writeMD4HashsetToFile (id : FileIdentifier) : List UInt8 :=
  id.md4Hash.bytes ++ writeUInt16 id.md4HashSet.length ++
    hashesBytes (id.md4HashSet.take (id.md4HashSet.length % 2 ^ 16))

def writeAICHHashsetToFile (id : FileIdentifier) : List UInt8 :=
  id.aichHash.bytes ++ writeUInt16 id.aichPartHashSet.length ++
    hashesBytes (id.aichPartHashSet.take (id.aichPartHashSet.length % 2 ^ 16))

/-- What `writeHashSetsToPacket` leaves of its `md4` argument. -/
def writesMD4 (id : FileIdentifier) (md4 : Bool) : Bool :=
  md4 && decide (id.getTheoreticalMD4PartHashCount≠0) && id.hasExpectedMD4HashCount

def writesAICH (id : FileIdentifier) (aich : Bool) : Bool :=
  aich && decide (id.getTheoreticalAICHPartHashCount≠0) &&
    (id.hasExpectedAICHHashCount && id.hasValidAICHHash)

def writeHashSetsToPacket (id : FileIdentifier) (md4 aich : Bool) : List UInt8 :=
  let md4 := id.writesMD4 md4
  let aich := id.writesAICH aich
  writeUInt8 ((if md4 then 1 else 0) + if aich then 2 else 0) ++
    (if md4 then id.writeMD4HashsetToFile else []) ++
    (if aich then id.writeAICHHashsetToFile else [])

section Hashing

-- `QCryptographicHash::Md4`, and SHA-1 over two child hashes.
variable (md4Of : List UInt8 → MD4Hash) (hashPair : AICHHash → AICHHash → AICHHash)

def calculateMD4HashByHashSet (verifyOnly deleteOnVerifyFail : Bool) (id : FileIdentifier) :
    Bool × FileIdentifier :=
  if id.md4HashSet.length ≤ 1 then (false, id)
  else
    let computed := md4Of (hashesBytes id.md4HashSet)
    if verifyOnly then
      if computed ≠ id.md4Hash then
        (false, if deleteOnVerifyFail then id.deleteMD4Hashset else id)
      else (true, id)
    else (true, { id with md4Hash := computed })

def loadMD4HashsetFromFile (verifyExistingHash : Bool) : IdReader Bool := do
  let checkId ← IdReader.lift (Digest.read 16)
  IdReader.modify deleteMD4Hashset
  let parts ← IdReader.lift Reader.readUInt16
  let id ← IdReader.get
  if verifyExistingHash &&
      (decide (id.md4Hash ≠ checkId) || decide (parts ≠ id.getTheoreticalMD4PartHashCount)) then
    pure false
  else do
    pushHashes (fun h id => { id with md4HashSet := id.md4HashSet ++ [h] }) parts
    IdReader.modify fun id => if verifyExistingHash then id else { id with md4Hash := checkId }
    let id ← IdReader.get
    -- the redundant set of a single part is dropped
    if id.md4HashSet.length = 1 then do
      IdReader.modify deleteMD4Hashset
      pure true
    else if id.md4HashSet = [] then pure true
    else IdReader.call (calculateMD4HashByHashSet md4Of true true)

def verifyAICHHashSet (id : FileIdentifier) : Bool × FileIdentifier :=
  if id.fileSize = 0 ∨ id.hasValidAICHHash = false then (false, id)
  else if !id.hasExpectedAICHHashCount then (false, id)
  else
    let tmpSet := (AICHRecoveryHashSet.create id.fileSize).setMasterHash id.aichHash .HashSetComplete
    let partCount := partsOf id.fileSize % 2 ^ 32
    if partCount ≤ 1 then (true, id)
    else
      match placeParts id.fileSize 0 (id.aichPartHashSet.take partCount) tmpSet.hashTree with
      | none => (false, id)
      | some t =>
        if !(t.verifyHashTree hashPair false).1 then (false, { id with aichPartHashSet := [] })
        else (true, id)

def loadAICHHashsetFromFile (verify : Bool) : IdReader Bool := do
  IdReader.modify fun id => { id with aichPartHashSet := [] }
  let masterHash ← IdReader.lift (Digest.read kAICHHashSize)
  let id ← IdReader.get
  if id.hasValidAICHHash && decide (masterHash ≠ id.aichHash) then pure false
  else do
    let count ← IdReader.lift Reader.readUInt16
    pushHashes (fun h id => { id with aichPartHashSet := id.aichPartHashSet ++ [h] }) count
    IdReader.modify fun id =>
      if id.getTheoreticalAICHPartHashCount = 0 then { id with aichPartHashSet := [] } else id
    if verify then IdReader.call (verifyAICHHashSet hashPair) else pure true

/-- The MD4 set of a packet: what becomes of the `md4` flag, none when the read gives up. -/
def readMD4FromPacket (md4Present md4 : Bool) : IdReader (Option Bool) :=
  if md4Present && !md4 then do
    let _ ← IdReader.lift (Digest.read 16)
    let count ← IdReader.lift Reader.readUInt16
    IdReader.lift (skipHashes 16 count)
    pure (some md4)
  else if !md4Present then pure (some false)
  else do
    let loaded ← loadMD4HashsetFromFile md4Of true
    pure (if loaded then some md4 else none)

/-- The AICH set of a packet, with the flags the caller gets. -/
def readAICHFromPacket (md4 aichPresent aich : Bool) : IdReader (Bool × Bool × Bool) := do
  let id ← IdReader.get
  if aichPresent && !aich then do
    let count ← IdReader.lift Reader.readUInt16
    IdReader.lift (Reader.skip (count*kAICHHashSize))
    pure (true, md4, aich)
  else if !aichPresent || !id.hasValidAICHHash then pure (true, md4, false)
  else do
    let loaded ← loadAICHHashsetFromFile hashPair true
    if loaded then pure (true, md4, aich)
    else if md4 then do
      IdReader.modify deleteMD4Hashset
      pure (false, false, false)
    else pure (false, md4, false)

/-- The result, then the flags `md4` and `aich`. -/
def readHashSetsFromPacket (md4 aich : Bool) : IdReader (Bool × Bool × Bool) := do
  let byOptions ← IdReader.lift Reader.readUInt8
  let md4Present := decide (byOptions &&& 0x01 > 0)
  let aichPresent := decide (byOptions &&& 0x02 > 0)
  match ← readMD4FromPacket md4Of md4Present md4 with
  | none => pure (false, false, false)
  | some md4 => readAICHFromPacket hashPair md4 aichPresent aich

end Hashing

end FileIdentifier

end EmuleQt.Crypto
