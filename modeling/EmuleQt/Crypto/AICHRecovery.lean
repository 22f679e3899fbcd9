import EmuleQt.Crypto.AICHHashSet

namespace EmuleQt.Crypto

open Utils

def blockCount (size : Nat) : Nat := size / EMBLOCKSIZE + (decide (size % EMBLOCKSIZE ≠ 0)).toNat

namespace AICHRecoveryHashSet

def isLargeFile (s : AICHRecoveryHashSet) : Bool := decide (s.root.dataSize > OLD_MAX_EMULE_FILE_SIZE)

/-- The node of a part and the hashes its recovery data has: one for each level above the
part, one for each block. Looking it up makes the missing nodes on the way. -/
def partLevel (s : AICHRecoveryHashSet) (partStartPos partSize : Nat) : AICHHashTree.FindHash :=
  s.hashTree.findHash AICHHashTree.maxLevels partStartPos partSize

/-- `static_cast<uint16>((level - 1) + blocks)` -/
def hashesOfPart (level partSize : Nat) : Nat := (level-1+blockCount partSize)%2^16

section Hashing

variable (hashPair : AICHHash → AICHHash → AICHHash)

/-- Bytes of an entry of known2_64.met behind its master hash. -/
def loadEntry (s : AICHRecoveryHashSet) (entry : List UInt8) : Bool × AICHRecoveryHashSet :=
  let blocks := blockCount PARTSIZE*(s.root.dataSize/PARTSIZE) +
    blockCount (s.root.dataSize%PARTSIZE)
  match Reader.readUInt32 entry with
  | .error _ => (false, s)
  | .ok (hashCount, hashes) =>
    if hashCount≠blocks%2^32 then (false, s)
    else
      match s.hashTree.loadLowestLevelHashes 64 hashes with
      | .error _ => (false, s)
      | .ok ((false, t), _) => (false, s.setHashTree t)
      | .ok ((true, t), _) =>
        match t.reCalculateHash hashPair false with
        | (false, t) => (false, s.setHashTree t)
        | (true, t) => (decide (t.hash=s.getMasterHash), s.setHashTree t)

/-- The walk over the entries of known2_64.met, from the one `entries` starts with. -/
def loadScan (s : AICHRecoveryHashSet) (entries : List UInt8) : Bool × AICHRecoveryHashSet :=
  if entries=[] then (false, s)
  else
    match _hd : Digest.read kAICHHashSize entries with
    | .error _ => (false, s)
    | .ok (currentHash, entry) =>
      if s.getMasterHash=currentHash then loadEntry hashPair s entry
      else
        match _h : Reader.readUInt32 entry with
        | .error _ => (false, s)
        | .ok (hashCount, hashes) =>
          if hashCount*kAICHHashSize>hashes.length then (false, s)
          else s.loadScan (hashes.drop (hashCount*kAICHHashSize))
termination_by entries.length
decreasing_by
  obtain ⟨-,rfl,hlen⟩ := Digest.read_ok _hd
  obtain ⟨-,rfl,-⟩ := Reader.readUInt_ok _h
  simp only [List.length_drop,kAICHHashSize] at hlen ⊢
  omega

def kKnown2MetVersion : Nat := 0x02

/-- `loadHashSet` with the bytes of known2_64.met, none when it cannot be opened, and the
position the index has for the master hash. -/
def loadHashSet (known2 : Option (List UInt8)) (stored : AICHHash → Option Nat)
    (s : AICHRecoveryHashSet) : Bool × AICHRecoveryHashSet :=
  if s.status ≠ .HashSetComplete then (false, s)
  else if s.hasValidMasterHash = false ∨ s.root.dataSize = 0 then (false, s)
  else
    match known2 with
    | none => (false, s)
    | some file =>
      match Reader.readUInt8 file with
      | .error _ => (false, s)
      | .ok (header, entries) =>
        if header ≠ kKnown2MetVersion then (false, s)
        else
          match stored s.getMasterHash with
          | none => loadScan hashPair s entries
          | some expectedPos =>
            if expectedPos ≥ file.length then loadScan hashPair s entries
            else
              match Digest.read kAICHHashSize (file.drop expectedPos) with
              | .error _ => (false, s)
              | .ok (currentHash, entry) =>
                if entries = [] then (false, s)
                else if s.getMasterHash = currentHash then loadEntry hashPair s entry
                -- the index was stale
                else loadScan hashPair s entries

/-- The recovery data of a part, made from a loaded set. -/
def writePart (dbgDontLoad : Bool) (partStartPos partSize : Nat) (s : AICHRecoveryHashSet) :
    Bool × List UInt8 × AICHRecoveryHashSet :=
  let f := s.partLevel partStartPos partSize
  let s := s.setHashTree f.tree
  let hashesToWrite := hashesOfPart f.level partSize
  let use32Bit := s.isLargeFile
  let (written, hashes) := s.hashTree.createPartRecoveryData use32Bit partStartPos partSize 0
  let result := written &&
    decide (hashes.length=hashesToWrite*(kAICHHashSize+if use32Bit then 4 else 2))
  let s := if result then s else s.setStatus .Error
  let s := if dbgDontLoad then s else s.freeHashSet
  let count := writeUInt16 hashesToWrite
  (result, (if use32Bit then writeUInt16 0 else [])++count++hashes ++
    (if use32Bit then [] else writeUInt16 0), s)

/-- `createPartRecoveryData` with `loadHashSet` against the stored sets: the result, the
bytes written and the set left. -/
def createPartRecoveryData (load : AICHRecoveryHashSet → Bool × AICHRecoveryHashSet)
    (dbgDontLoad : Bool) (partStartPos : Nat) (s : AICHRecoveryHashSet) :
    Bool × List UInt8 × AICHRecoveryHashSet :=
  if s.status ≠ .HashSetComplete then (false, [], s)
  else if s.root.dataSize ≤ EMBLOCKSIZE then (false, [], s)
  else
    match if dbgDontLoad then (true, s) else load s with
    | (false, s) => (false, [], s.setStatus .Error)
    | (true, s) =>
      writePart dbgDontLoad partStartPos (partSizeAt s.root.dataSize partStartPos) s

end Hashing

/-- How a loop of `readRecoveryData` over its hashes ends. -/
inductive HashLoop
  | done (rest : List UInt8)
  | refused
  | thrown (e : FileException)

/-- `count` identifiers of `w` bytes, each with its hash; a refused one ends the loop. -/
def readHashes (w : Nat) (refuse : Nat → Bool) :
    (count : Nat) → AICHHashTree → List UInt8 → AICHHashTree × HashLoop
  | 0, t, s => (t, .done s)
  | count+1, t, s =>
    match Reader.readUInt w s with
    | .error e => (t, .thrown e)
    | .ok (hashIdent, s) =>
      if refuse hashIdent then (t, .refused)
      else
        match t.setHash hashIdent false s with
        | .error e => (t, .thrown e)
        | .ok ((false, t), _) => (t, .refused)
        | .ok ((true, t), s) => readHashes w refuse count t s

/-- Never overwrite the master hash. -/
def refuse16 (hashIdent : Nat) : Bool := hashIdent=1

def refuse32 (hashIdent : Nat) : Bool := hashIdent=1 || hashIdent>0x400000

section Hashing

variable (hashPair : AICHHash → AICHHash → AICHHash)

/-- `verifyHashTree(true)` on the set. -/
def verifyDeletingBad (s : AICHRecoveryHashSet) : Bool × AICHRecoveryHashSet :=
  ((s.hashTree.verifyHashTree hashPair true).1,
    s.setHashTree (s.hashTree.verifyHashTree hashPair true).2)

/-- A loop broke off: the error path verifies and answers false. -/
def afterLoop (s : AICHRecoveryHashSet) (loop : AICHHashTree × HashLoop)
    (next : AICHRecoveryHashSet → List UInt8 → Except FileException Bool × AICHRecoveryHashSet) :
    Except FileException Bool × AICHRecoveryHashSet :=
  let s := s.setHashTree loop.1
  match loop.2 with
  | .thrown e => (.error e, s)
  | .refused => (.ok false, (s.verifyDeletingBad hashPair).2)
  | .done rest => next s rest

/-- The end of `readRecoveryData`, with hashes read or not. -/
def finishRecovery (partStartPos partSize : Nat) (s : AICHRecoveryHashSet)
    (hashesAvailable : Nat) : Except FileException Bool × AICHRecoveryHashSet :=
  if hashesAvailable=0 then (.ok false, s)
  else
    match s.verifyDeletingBad hashPair with
    | (false, s) => (.ok false, s)
    | (true, s) =>
      (.ok ((blockPositions partSize).all fun partPos =>
        match s.hashTree.findExistingHash AICHHashTree.maxLevels (partStartPos+partPos)
            (min EMBLOCKSIZE (partSize-partPos)) with
        | none => false
        | some node => node.hashValid), s)

/-- `readRecoveryData` from the first count on, with the part's node looked up. -/
def readPacket (partStartPos partSize hashesToRead : Nat) (input : List UInt8)
    (s : AICHRecoveryHashSet) : Except FileException Bool × AICHRecoveryHashSet :=
  match Reader.readUInt16 input with
  | .error e => (.error e, s)
  | .ok (count16, input) =>
    if input.length<hashesToRead*(kAICHHashSize+2) ∨
        hashesToRead ≠ count16 ∧ count16 ≠ 0 then (.ok false, s)
    else
      afterLoop hashPair s (readHashes 2 refuse16 count16 s.hashTree input) fun s input =>
        if count16=0 ∧ input.length ≥ 2 then
          match Reader.readUInt16 input with
          | .error e => (.error e, s)
          | .ok (count32, input) =>
            if input.length<hashesToRead*(kAICHHashSize+4) ∨
                hashesToRead ≠ count32 ∧ count32 ≠ 0 then (.ok false, s)
            else
              -- the loop runs to `hashesToRead`, also when the packet says it has none
              afterLoop hashPair s (readHashes 4 refuse32 hashesToRead s.hashTree input)
                fun s _ => finishRecovery hashPair partStartPos partSize s count32
        -- what may follow is an unused count
        else finishRecovery hashPair partStartPos partSize s count16

/-- The node of the part looked up, then the packet. -/
def readForPart (partStartPos partSize : Nat) (input : List UInt8) (f : AICHHashTree.FindHash)
    (s : AICHRecoveryHashSet) : Except FileException Bool × AICHRecoveryHashSet :=
  readPacket hashPair partStartPos partSize (hashesOfPart f.level partSize) input
    (s.setHashTree f.tree)

def readRecoveryData (partStartPos : Nat) (input : List UInt8) (s : AICHRecoveryHashSet) :
    Except FileException Bool × AICHRecoveryHashSet :=
  if s.status ≠ .Verified ∧ s.status ≠ .Trusted then (.ok false, s)
  else
    readForPart hashPair partStartPos (partSizeAt s.root.dataSize partStartPos) input
      (s.partLevel partStartPos (partSizeAt s.root.dataSize partStartPos)) s

end Hashing

end AICHRecoveryHashSet

end EmuleQt.Crypto
