import EmuleQt.Crypto.Digest
import EmuleQt.Utils.Opcodes
import EmuleQt.Framework.Run
import EmuleQt.Net.Address
import Mathlib.Algebra.BigOperators.Group.List.Basic

namespace EmuleQt.Crypto

open Utils

/-- The data of one tree node; `baseSize` is `m_baseSize`, true for PARTSIZE. -/
structure AICHNode where
  dataSize : Nat
  hash : AICHHash
  isLeftBranch : Bool
  hashValid : Bool
  baseSize : Bool
  deriving DecidableEq

/-- A `unique_ptr<AICHHashTree>` with all it owns. -/
inductive AICHHashTree
  | null
  | node (n : AICHNode) (left right : AICHHashTree)
  deriving DecidableEq

namespace AICHNode

def create (dataSize : Nat) (isLeftBranch : Bool) (baseSize : Nat) : AICHNode :=
  ⟨dataSize, default, isLeftBranch, false, decide (PARTSIZE ≤ baseSize)⟩

def getBaseSize (n : AICHNode) : Nat := if n.baseSize then PARTSIZE else EMBLOCKSIZE

def nBlocks (n : AICHNode) : Nat :=
  n.dataSize / n.getBaseSize + (decide (n.dataSize % n.getBaseSize ≠ 0)).toNat

def nLeft (n : AICHNode) : Nat := (n.nBlocks + n.isLeftBranch.toNat) / 2 * n.getBaseSize

def nRight (n : AICHNode) : Nat := n.dataSize - n.nLeft

end AICHNode

namespace AICHHashTree

def isNull : AICHHashTree → Bool
  | null => true
  | node _ _ _ => false

def hash : AICHHashTree → AICHHash
  | null => default
  | node n _ _ => n.hash

/-- `t && t->m_hashValid` -/
def hashValid : AICHHashTree → Bool
  | null => false
  | node n _ _ => n.hashValid

def newNode (dataSize : Nat) (isLeftBranch : Bool) : AICHHashTree :=
  node (AICHNode.create dataSize isLeftBranch
    (if dataSize≤PARTSIZE then EMBLOCKSIZE else PARTSIZE)) null null

/-- `if (!m_child) m_child = make_unique(..)` -/
def orNew (t : AICHHashTree) (dataSize : Nat) (isLeftBranch : Bool) : AICHHashTree :=
  match t with
  | null => newNode dataSize isLeftBranch
  | node n l r => node n l r

/-- Where `findHash` ends: the tree with the nodes made on the way, the branches
(true for left) down to the node it points at, and the level count. -/
structure FindHash where
  tree : AICHHashTree
  found : Option (List Bool)
  level : Nat

/-- `levels` of the 22 the source allows are left; `++*level` gives `22 - (levels - 1)`. -/
def findHash : (levels : Nat) → (startPos size : Nat) → AICHHashTree → FindHash
  | 0, _, _, t => ⟨t, none, 23⟩
  | k + 1, _, _, null => ⟨null, none, 22 - k⟩
  | k + 1, startPos, size, node n l r =>
    if startPos + size > n.dataSize ∨ size > n.dataSize then ⟨node n l r, none, 22 - k⟩
    else if startPos = 0 ∧ size = n.dataSize then ⟨node n l r, some [], 22 - k⟩
    else if n.dataSize ≤ n.getBaseSize then ⟨node n l r, none, 22 - k⟩
    else if startPos < n.nLeft then
      if startPos + size > n.nLeft then ⟨node n l r, none, 22 - k⟩
      else
        let f := findHash k startPos size (l.orNew n.nLeft true)
        ⟨node n f.tree r, f.found.map (true :: ·), f.level⟩
    else if startPos - n.nLeft + size > n.nRight then ⟨node n l r, none, 22 - k⟩
    else
      let f := findHash k (startPos - n.nLeft) size (r.orNew n.nRight false)
      ⟨node n l f.tree, f.found.map (false :: ·), f.level⟩

/-- The level count starts at 0. -/
def maxLevels : Nat := 22

def findExistingHash : (levels : Nat) → (startPos size : Nat) → AICHHashTree → Option AICHNode
  | 0, _, _, _ => none
  | _ + 1, _, _, null => none
  | k + 1, startPos, size, node n l r =>
    if startPos + size > n.dataSize ∨ size > n.dataSize then none
    else if startPos = 0 ∧ size = n.dataSize then (if n.hashValid then some n else none)
    else if n.dataSize ≤ n.getBaseSize then none
    else if startPos < n.nLeft then
      if startPos + size > n.nLeft then none
      else if !l.hashValid then none
      else findExistingHash k startPos size l
    else if startPos - n.nLeft + size > n.nRight then none
    else if !r.hashValid then none
    else findExistingHash k (startPos - n.nLeft) size r

/-- Write through a pointer given by its branches from the root. -/
def modify (f : AICHNode → AICHNode) : List Bool → AICHHashTree → AICHHashTree
  | _, null => null
  | [], node n l r => node (f n) l r
  | true :: path, node n l r => node n (modify f path l) r
  | false :: path, node n l r => node n l (modify f path r)

section Hashing

-- `hashAlg`: reset, add the two hashes, finish.
variable (hashPair : AICHHash → AICHHash → AICHHash)

def reCalculateHash (dontReplace : Bool) : AICHHashTree → Bool × AICHHashTree
  | null => (true, null)
  | node n l r =>
    if l.isNull != r.isNull then (false, node n l r)
    else if l.isNull then (true, node n l r)
    else
      match reCalculateHash dontReplace l with
      | (false, l') => (false, node n l' r)
      | (true, l') =>
        match reCalculateHash dontReplace r with
        | (false, r') => (false, node n l' r')
        | (true, r') =>
          if dontReplace && n.hashValid then (true, node n l' r')
          else if r'.hashValid && l'.hashValid then
            (true, node { n with hash := hashPair l'.hash r'.hash, hashValid := true } l' r')
          else (n.hashValid, node n l' r')

def size : AICHHashTree → Nat
  | null => 0
  | node _ l r => l.size + r.size + 1

theorem reCalculateHash_size (dontReplace : Bool) (t : AICHHashTree) :
    (reCalculateHash hashPair dontReplace t).2.size=t.size := by
  induction t with
  | null => rfl
  | node n l r ihl ihr =>
    rw [reCalculateHash]
    by_cases hone : (l.isNull != r.isNull)=true
    · rw [if_pos hone]
    by_cases hleaf : l.isNull=true
    · rw [if_neg hone,if_pos hleaf]
    rw [if_neg hone,if_neg hleaf]
    rcases hl : reCalculateHash hashPair dontReplace l with ⟨okl,l'⟩
    rcases hr : reCalculateHash hashPair dontReplace r with ⟨okr,r'⟩
    rw [hl] at ihl
    cases okl with
    | false => simpa [size] using ihl
    | true =>
      cases okr with
      | false => simp_all [size]
      | true => dsimp only; split_ifs <;> simp_all [size]

/-- `if (m_child && !m_child->m_hashValid) m_child->reCalculateHash(hashAlg, true)` -/
def fillMissing (t : AICHHashTree) : AICHHashTree :=
  if t.isNull || t.hashValid then t else (reCalculateHash hashPair true t).2

theorem fillMissing_size (t : AICHHashTree) : (fillMissing hashPair t).size=t.size := by
  unfold fillMissing
  split_ifs
  · rfl
  · exact reCalculateHash_size hashPair true t

/-- `m_left.reset(); m_right.reset();` when bad trees go. -/
def prune (deleteBadTrees : Bool) (n : AICHNode) (l r : AICHHashTree) : AICHHashTree :=
  if deleteBadTrees then node n null null else node n l r

/-- `if (m_child && !m_child->m_hashValid) m_child.reset()` when bad trees go. -/
def dropInvalid (deleteBadTrees : Bool) (t : AICHHashTree) : AICHHashTree :=
  if deleteBadTrees && !t.hashValid then null else t

def verifyHashTree (deleteBadTrees : Bool) : AICHHashTree → Bool × AICHHashTree
  | null => (false, null)
  | node n l r =>
    if !n.hashValid then (false, prune deleteBadTrees n l r)
    else if (fillMissing hashPair r).hashValid != (fillMissing hashPair l).hashValid then
      -- one branch can never be verified
      (false, prune deleteBadTrees n (fillMissing hashPair l) (fillMissing hashPair r))
    else if (fillMissing hashPair r).hashValid && (fillMissing hashPair l).hashValid then
      if n.hash ≠ hashPair (fillMissing hashPair l).hash (fillMissing hashPair r).hash then
        (false, prune deleteBadTrees n (fillMissing hashPair l) (fillMissing hashPair r))
      else
        match verifyHashTree deleteBadTrees (fillMissing hashPair l) with
        | (false, l') => (false, node n l' (fillMissing hashPair r))
        | (true, l') =>
          match verifyHashTree deleteBadTrees (fillMissing hashPair r) with
          | (ok, r') => (ok, node n l' r')
    else
      (true, node n (dropInvalid deleteBadTrees (fillMissing hashPair l))
        (dropInvalid deleteBadTrees (fillMissing hashPair r)))
termination_by t => t.size
decreasing_by
  all_goals simp only [fillMissing_size, size]; omega

end Hashing

/-- `hashIdent <<= 1; hashIdent |= m_isLeftBranch;` on a uint32. -/
def shiftIdent (hashIdent : Nat) (isLeftBranch : Bool) : Nat :=
  hashIdent*2%2^32+isLeftBranch.toNat

def writeIdent (use32Bit : Bool) (hashIdent : Nat) : List UInt8 :=
  if use32Bit then writeUInt32 hashIdent else writeUInt16 hashIdent

def writeHash (hashIdent : Nat) (use32Bit : Bool) : AICHHashTree → List UInt8
  | null => []
  | node n _ _ => writeIdent use32Bit (shiftIdent hashIdent n.isLeftBranch) ++ n.hash.bytes

def writeLowestLevelHashes (noIdent use32Bit : Bool) :
    (hashIdent : Nat) → AICHHashTree → Bool × List UInt8
  | _, null => (false, [])
  | hashIdent, node n l r =>
    let hashIdent := shiftIdent hashIdent n.isLeftBranch
    if l.isNull && r.isNull then
      if n.dataSize ≤ n.getBaseSize ∧ n.hashValid = true then
        (true, (if noIdent then [] else writeIdent use32Bit hashIdent) ++ n.hash.bytes)
      else (false, [])
    else if l.isNull || r.isNull then (false, [])
    else
      match writeLowestLevelHashes noIdent use32Bit hashIdent l with
      | (false, out) => (false, out)
      | (true, out) =>
        match writeLowestLevelHashes noIdent use32Bit hashIdent r with
        | (ok, out') => (ok, out ++ out')

def createPartRecoveryData (use32Bit : Bool) :
    (startPos size : Nat) → (hashIdent : Nat) → AICHHashTree → Bool × List UInt8
  | _, _, _, null => (false, [])
  | startPos, size, hashIdent, node n l r =>
    if startPos + size > n.dataSize ∨ size > n.dataSize then (false, [])
    else if startPos = 0 ∧ size = n.dataSize then
      writeLowestLevelHashes false use32Bit hashIdent (node n l r)
    else if n.dataSize ≤ n.getBaseSize then (false, [])
    else
      let hashIdent := shiftIdent hashIdent n.isLeftBranch
      if l.isNull || r.isNull then (false, [])
      else if startPos < n.nLeft then
        if startPos + size > n.nLeft ∨ r.hashValid = false then (false, [])
        else
          let rest := createPartRecoveryData use32Bit startPos size hashIdent l
          (rest.1, writeHash hashIdent use32Bit r ++ rest.2)
      else if startPos - n.nLeft + size > n.nRight ∨ l.hashValid = false then (false, [])
      else
        let rest := createPartRecoveryData use32Bit (startPos - n.nLeft) size hashIdent r
        (rest.1, writeHash hashIdent use32Bit l ++ rest.2)

/-- `levels` bounds the recursion; a tree over a 64-bit size has fewer than 64. -/
def loadLowestLevelHashes : (levels : Nat) → AICHHashTree → Reader (Bool × AICHHashTree)
  | 0, t => pure (false, t)
  | _, null => pure (false, null)
  | levels + 1, node n l r =>
    if n.dataSize ≤ n.getBaseSize then do
      let h ← Digest.read kAICHHashSize
      pure (true, node { n with hash := h, hashValid := true } l r)
    else do
      let (okLeft, l') ← loadLowestLevelHashes levels (l.orNew n.nLeft true)
      if okLeft then do
        let (okRight, r') ← loadLowestLevelHashes levels (r.orNew n.nRight false)
        pure (okRight, node n l' r')
      else pure (false, node n l' (r.orNew n.nRight false))

/-- First call of `setHash`: the level of the leading bit, which is shifted to bit 31. -/
def leadingLevel : (level : Nat) → (hashIdent : Nat) → Option (Nat × Nat)
  | 0, hashIdent => if 2^31≤hashIdent then some (0, hashIdent) else none
  | level+1, hashIdent =>
    if 2^31≤hashIdent then some (level+1, hashIdent)
    else leadingLevel level (hashIdent*2%2^32)

def setHashAt : (level : Nat) → (hashIdent : Nat) → (allowOverwrite : Bool) →
    AICHHashTree → Reader (Bool × AICHHashTree)
  | _, _, _, null => pure (false, null)
  | 0, _, allowOverwrite, node n l r =>
    if n.hashValid && !allowOverwrite then do
      Reader.skip kAICHHashSize
      pure (true, node n l r)
    else do
      let h ← Digest.read kAICHHashSize
      pure (true, node { n with hash := h, hashValid := true } l r)
  | level+1, hashIdent, _, node n l r =>
    if n.dataSize≤n.getBaseSize then pure (false, node n l r)
    else
      let hashIdent := hashIdent*2 % 2^32
      -- the recursive calls leave allowOverwrite at its default
      if 2^31≤hashIdent then do
        let (ok, l') ← setHashAt level hashIdent true (l.orNew n.nLeft true)
        pure (ok, node n l' r)
      else do
        let (ok, r') ← setHashAt level hashIdent true (r.orNew n.nRight false)
        pure (ok, node n l r')

def setHash (hashIdent : Nat) (allowOverwrite : Bool) (t : AICHHashTree) :
    Reader (Bool × AICHHashTree) :=
  match leadingLevel 31 hashIdent with
  | none => pure (false, t)
  | some (level, hashIdent) => setHashAt level hashIdent allowOverwrite t

end AICHHashTree

open Framework Net Utils

inductive EAICHStatus
  | Error | Empty | Untrusted | Trusted | Verified | HashSetComplete
  deriving DecidableEq

/-- A root some peers named, and the voter keys that stand for them. -/
structure AICHUntrustedHash where
  hash : AICHHash
  signingIPs : List Nat
  deriving DecidableEq

namespace AICHUntrustedHash

def addSigningIP (uh : AICHUntrustedHash) (voter : Nat) (testOnly : Bool) :
    Bool × AICHUntrustedHash :=
  if voter ∈ uh.signingIPs then (false, uh)
  else if testOnly then (true, uh)
  else (true, { uh with signingIPs := uh.signingIPs ++ [voter] })

def voterKey : Address → Nat
  | .ipv6 ip => (ip.bytes.take 6).foldl (fun prefix48 b => prefix48 * 2 ^ 8 + b.toNat) 0 ||| 2 ^ 63
  | a => a.toNetworkUint32 &&& 0x00F0FFFF

end AICHUntrustedHash

/-- `m_hashTree` is a value, so the root node is always there. -/
structure AICHRecoveryHashSet where
  root : AICHNode
  left : AICHHashTree
  right : AICHHashTree
  status : EAICHStatus
  untrustedHashes : List AICHUntrustedHash
  deriving DecidableEq

namespace AICHRecoveryHashSet

def hashTree (s : AICHRecoveryHashSet) : AICHHashTree := .node s.root s.left s.right

def setHashTree (s : AICHRecoveryHashSet) : AICHHashTree → AICHRecoveryHashSet
  | .null => s
  | .node n l r => { s with root := n, left := l, right := r }

def setFileSize (s : AICHRecoveryHashSet) (size : Nat) : AICHRecoveryHashSet :=
  { s with root := { s.root with
      dataSize := size
      baseSize := decide (PARTSIZE ≤ if size ≤ PARTSIZE then EMBLOCKSIZE else PARTSIZE) } }

/-- The constructor. -/
def create (fileSize : Nat) : AICHRecoveryHashSet :=
  let s : AICHRecoveryHashSet := ⟨AICHNode.create 0 true PARTSIZE, .null, .null, .Empty, []⟩
  if fileSize ≠ 0 then s.setFileSize fileSize else s

def setStatus (s : AICHRecoveryHashSet) (status : EAICHStatus) : AICHRecoveryHashSet :=
  { s with status }

def getMasterHash (s : AICHRecoveryHashSet) : AICHHash := s.root.hash

def hasValidMasterHash (s : AICHRecoveryHashSet) : Bool := s.root.hashValid

def setMasterHash (s : AICHRecoveryHashSet) (hash : AICHHash) (newStatus : EAICHStatus) :
    AICHRecoveryHashSet :=
  { s with root := { s.root with hash, hashValid := true }, status := newStatus }

def freeHashSet (s : AICHRecoveryHashSet) : AICHRecoveryHashSet :=
  { s with left := .null, right := .null }

/-- The block positions `0, EMBLOCKSIZE, ..` below `partSize`. -/
def blockPositions (partSize : Nat) : List Nat :=
  (List.range ((partSize+EMBLOCKSIZE-1)/EMBLOCKSIZE)).map (· * EMBLOCKSIZE)

/-- `min(PARTSIZE, fileSize - partStartPos)`, the difference taken on uint64. -/
def partSizeAt (fileSize partStartPos : Nat) : Nat :=
  min PARTSIZE ((fileSize+2^64-partStartPos)%2^64)

def kMinUniqueIPsToTrust : Nat := 10
def kMinPercentageToTrust : Nat := 92

/-- The loop that looks for the root and gives it the vote. -/
def addVote (hash : AICHHash) (voter : Nat) :
    List AICHUntrustedHash → Bool × List AICHUntrustedHash
  | [] => (false, [])
  | uh::rest =>
    if uh.hash=hash then (true, (uh.addSigningIP voter false).2::rest)
    else
      let (found, rest') := addVote hash voter rest
      (found, uh::rest')

def newEntry (hash : AICHHash) (voter : Nat) : AICHUntrustedHash :=
  ((⟨hash, []⟩ : AICHUntrustedHash).addSigningIP voter false).2

/-- The vote added to its root, which is entered when nobody had named it. -/
def recordVote (hash : AICHHash) (voter : Nat) (uhs : List AICHUntrustedHash) :
    List AICHUntrustedHash :=
  let (found, uhs') := addVote hash voter uhs
  if found then uhs' else uhs'++[newEntry hash voter]

structure Tally where
  totalSigningIPs : Nat
  mostTrustedIPs : Nat
  mostTrusted : Option AICHHash

/-- The trust evaluation scans once; only strictly more votes move the winner. -/
def tally : Tally → List AICHUntrustedHash → Tally
  | t, [] => t
  | t, uh :: rest =>
    let signings := uh.signingIPs.length
    let total := t.totalSigningIPs + signings
    if signings > t.mostTrustedIPs then tally ⟨total, signings, some uh.hash⟩ rest
    else tally { t with totalSigningIPs := total } rest

def changeMaster (s : AICHRecoveryHashSet) (hash : AICHHash) (status : EAICHStatus) :
    AICHRecoveryHashSet :=
  let s := s.setStatus status
  if s.hasValidMasterHash=false ∨ s.getMasterHash≠hash then
    (s.setMasterHash hash status).freeHashSet
  else s

def evaluateTrust (s : AICHRecoveryHashSet) : AICHRecoveryHashSet :=
  let t := tally ⟨0,0,none⟩ s.untrustedHashes
  match t.mostTrusted with
  | none => s
  | some hash =>
    if t.totalSigningIPs=0 then s
    else if t.mostTrustedIPs≥kMinUniqueIPsToTrust ∧
        100*t.mostTrustedIPs/t.totalSigningIPs≥kMinPercentageToTrust then
      s.changeMaster hash .Trusted
    else s.changeMaster hash .Untrusted

def untrustedHashReceived (s : AICHRecoveryHashSet) (hash : AICHHash) (sender : Address) :
    AICHRecoveryHashSet :=
  let voter := AICHUntrustedHash.voterKey sender
  if s.status ≠ .Empty ∧ s.status ≠ .Untrusted ∧ s.status ≠ .Trusted then s
  else if s.untrustedHashes.any fun uh => uh.hash ≠ hash && !(uh.addSigningIP voter true).1 then s
  else
    let voted := { s with untrustedHashes := recordVote hash voter s.untrustedHashes }
    -- trust once given stays: the vote is recorded, the root is not re-opened
    if s.status = .Trusted ∧ s.hasValidMasterHash = true then voted
    else voted.evaluateTrust

/-- One call of a run of votes. -/
def vote (s : AICHRecoveryHashSet) (call : AICHHash × Address) : AICHRecoveryHashSet :=
  s.untrustedHashReceived call.1 call.2

end AICHRecoveryHashSet

end EmuleQt.Crypto
