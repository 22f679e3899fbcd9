import EmuleQt.Crypto.AICHAuthentic

namespace EmuleQt.Crypto

open Utils

/-- Blocks of `base` bytes in a size, the last one short or not. -/
def blocksOf (base size : Nat) : Nat := size/base+(decide (size%base≠0)).toNat

theorem blockCount_eq (size : Nat) : blockCount size=blocksOf EMBLOCKSIZE size := rfl

/-- `getBaseSize` of a node made for a size. -/
def baseOf (size : Nat) : Nat := if size≤PARTSIZE then EMBLOCKSIZE else PARTSIZE

variable {size base start len : Nat} {isLeft : Bool}

theorem baseOf_small (h : size≤PARTSIZE) : baseOf size=EMBLOCKSIZE := if_pos h
theorem baseOf_large (h : PARTSIZE<size) : baseOf size=PARTSIZE :=
  if_neg (Nat.not_le.mpr h)

theorem baseOf_pos (size : Nat) : 0<baseOf size := by
  unfold baseOf
  split_ifs
  · exact EMBLOCKSIZE_pos
  · exact PARTSIZE_pos

theorem baseOf_lt (h : EMBLOCKSIZE<size) : baseOf size<size := by
  unfold baseOf
  split_ifs <;> omega

theorem le_baseOf (size : Nat) : EMBLOCKSIZE≤baseOf size := by
  unfold baseOf
  split_ifs
  · exact Nat.le_refl _
  · decide

/-- The share of a left branch; left branches round up, right ones down. -/
def leftShare (size : Nat) (isLeft : Bool) : Nat :=
  (blocksOf (baseOf size) size+isLeft.toNat)/2*baseOf size

def rightShare (size : Nat) (isLeft : Bool) : Nat := size-leftShare size isLeft

def childShare (size : Nat) (isLeft branch : Bool) : Nat :=
  if branch then leftShare size isLeft else rightShare size isLeft

theorem blocksOf_bounds (hbase : 0<base) (size : Nat) :
    size≤blocksOf base size*base ∧ blocksOf base size*base<size+base := by
  have hdiv := Nat.div_add_mod' size base
  have hmod := Nat.mod_lt size hbase
  unfold blocksOf
  by_cases h : size%base=0
  · simp only [h,ne_eq,not_true_eq_false,decide_false,Bool.toNat_false,Nat.add_zero]
    omega
  · simp only [h,ne_eq,not_false_eq_true,decide_true,Bool.toNat_true,Nat.succ_mul]
    omega

theorem blocksOf_unique {c : Nat} (hbase : 0<base) (h1 : size≤c*base)
    (h2 : c*base<size+base) : blocksOf base size=c := by
  obtain ⟨h3,h4⟩ := blocksOf_bounds hbase size
  have hlt : blocksOf base size<c+1 := by
    refine Nat.lt_of_mul_lt_mul_right (a := base) ?_
    rw [Nat.succ_mul]
    omega
  have hgt : c<blocksOf base size+1 := by
    refine Nat.lt_of_mul_lt_mul_right (a := base) ?_
    rw [Nat.succ_mul]
    omega
  omega

theorem share_spec (hbase : 0<base) (h : base<size) (isLeft : Bool) :
    let b := (blocksOf base size+isLeft.toNat)/2
    0<b ∧ b*base<size ∧ blocksOf base (b*base)=b ∧
      blocksOf base (size-b*base)=blocksOf base size-b ∧
      2*b≤blocksOf base size+1 ∧ blocksOf base size≤2*b+1 := by
  intro b
  obtain ⟨h1,h2⟩ := blocksOf_bounds hbase size
  have he : isLeft.toNat≤1 := Bool.toNat_le isLeft
  have hb : b=(blocksOf base size+isLeft.toNat)/2 := rfl
  clear_value b
  generalize blocksOf base size=c at *
  have hc : 2≤c := by
    by_contra hlt
    have hmul := Nat.mul_le_mul_right base (show c≤1 by omega)
    rw [Nat.one_mul] at hmul
    omega
  have hmul := Nat.mul_le_mul_right base (show b+1≤c by omega)
  rw [Nat.succ_mul] at hmul
  have hsub : (c-b)*base=c*base-b*base := Nat.sub_mul c b base
  exact ⟨by omega,by omega,blocksOf_unique hbase (Nat.le_refl _) (by omega),
    blocksOf_unique hbase (by omega) (by omega),by omega,by omega⟩

theorem leftShare_lt (h : baseOf size<size) (isLeft : Bool) :
    leftShare size isLeft<size :=
  (share_spec (baseOf_pos size) h isLeft).2.1

theorem leftShare_pos (h : baseOf size<size) (isLeft : Bool) :
    0<leftShare size isLeft :=
  Nat.mul_pos (share_spec (baseOf_pos size) h isLeft).1 (baseOf_pos size)

/-- The branches from a node of this size down to the node of a range. -/
inductive RangeAt : (size : Nat) → (isLeft : Bool) → (start len : Nat) → List Bool → Prop
  | here {size : Nat} {isLeft : Bool} : RangeAt size isLeft 0 size []
  | left {size start len : Nat} {isLeft : Bool} {path : List Bool} (hsplit : baseOf size<size)
      (hend : start+len≤leftShare size isLeft) (hlen : 0<len)
      (h : RangeAt (leftShare size isLeft) true start len path) :
      RangeAt size isLeft start len (true::path)
  | right {size start len : Nat} {isLeft : Bool} {path : List Bool} (hsplit : baseOf size<size)
      (hstart : leftShare size isLeft ≤ start) (hlen : 0<len)
      (h : RangeAt (rightShare size isLeft) false (start-leftShare size isLeft) len path) :
      RangeAt size isLeft start len (false::path)

theorem RangeAt.end_le {path : List Bool} (h : RangeAt size isLeft start len path) :
    start+len ≤ size := by
  induction h with
  | here => omega
  | @left size start len isLeft path hsplit hend hlen h ih =>
    have := leftShare_lt hsplit isLeft
    omega
  | @right size start len isLeft path hsplit hstart hlen h ih =>
    have := leftShare_lt hsplit isLeft
    unfold rightShare at ih
    omega

theorem rangeAt_unit (hbase : 0<base) (k : Nat) (size : Nat) (isLeft : Bool)
    (hb : ∀ s,base<s → s ≤ size → baseOf s=base) (hk : blocksOf base size≤2^k) (i : Nat)
    (hi : i*base<size) :
    ∃ path, RangeAt size isLeft (i*base) (min base (size-i*base)) path ∧
      path.length≤k := by
  have single : ∀ (size i : Nat) (isLeft : Bool), size≤base → i*base<size →
      RangeAt size isLeft (i*base) (min base (size-i*base)) [] := by
    intro size i isLeft hsize hi
    have hzero : i=0 := by
      by_contra hne
      have hmul := Nat.mul_le_mul_right base (Nat.one_le_iff_ne_zero.mpr hne)
      omega
    subst hzero
    rw [Nat.zero_mul,Nat.sub_zero,Nat.min_eq_right hsize]
    exact .here
  induction k generalizing size isLeft i with
  | zero =>
    obtain ⟨h1,-⟩ := blocksOf_bounds hbase size
    have hsize := Nat.mul_le_mul_right base hk
    exact ⟨[],single size i isLeft (by omega) hi,Nat.le_refl 0⟩
  | succ k ih =>
    by_cases hsize : size≤base
    · exact ⟨[],single size i isLeft hsize hi,Nat.zero_le _⟩
    have hlt : base<size := Nat.not_le.mp hsize
    have hbaseOf := hb size hlt (Nat.le_refl size)
    have hsplit : baseOf size<size := hbaseOf ▸ hlt
    obtain ⟨hb0,hbsize,hbl,hbr,h2b,hb2⟩ := share_spec hbase hlt isLeft
    have hleft : leftShare size isLeft=(blocksOf base size+isLeft.toNat)/2*base := by
      rw [leftShare,hbaseOf]
    rw [Nat.pow_succ] at hk
    generalize (blocksOf base size+isLeft.toNat)/2=b at *
    have hlen : 0 < min base (size-i*base) := by omega
    by_cases hside : i<b
    · have hmul := Nat.mul_le_mul_right base (Nat.succ_le_of_lt hside)
      rw [Nat.succ_mul] at hmul
      obtain ⟨path,hpath,hplen⟩ := ih (b*base) true
        (fun s h1 h2 => hb s h1 (by omega)) (by omega) i (by omega)
      rw [show min base (b*base-i*base)=min base (size-i*base) by omega,
        ← hleft] at hpath
      exact ⟨true::path,.left hsplit (by omega) hlen hpath,Nat.succ_le_succ hplen⟩
    · have hmul := Nat.mul_le_mul_right base (Nat.not_lt.mp hside)
      have hsub : (i-b)*base=i*base-b*base := Nat.sub_mul i b base
      obtain ⟨path,hpath,hplen⟩ := ih (size-b*base) false
        (fun s h1 h2 => hb s h1 (by omega)) (by omega) (i-b) (by omega)
      rw [show min base (size-b*base-(i-b)*base)=min base (size-i*base) by omega,
        hsub,← hleft] at hpath
      exact ⟨false::path,.right hsplit (by omega) hlen hpath,Nat.succ_le_succ hplen⟩

/-- Which branch the node at the end of the branches is. -/
def endBranch : (isLeft : Bool) → List Bool → Bool
  | isLeft, [] => isLeft
  | _, branch::path => endBranch branch path

theorem RangeAt.append {pos blockLen : Nat} {path rest : List Bool}
    (h : RangeAt size isLeft start len path) (hpos : 0<blockLen)
    (hrest : RangeAt len (endBranch isLeft path) pos blockLen rest) :
    RangeAt size isLeft (start+pos) blockLen (path++rest) := by
  have hend := hrest.end_le
  induction h with
  | here => rwa [Nat.zero_add]
  | left hsplit hin hlen h ih => exact .left hsplit (by omega) hpos (ih hrest hend)
  | right hsplit hstart hlen h ih =>
    refine .right hsplit (by omega) hpos ?_
    rw [Nat.sub_add_comm hstart]
    exact ih hrest hend

/-- Every node above the end of the branches has to be split. -/
def Reaches : (size : Nat) → (isLeft : Bool) → List Bool → Prop
  | _, _, [] => True
  | size, isLeft, branch :: path =>
    baseOf size < size ∧ Reaches (childShare size isLeft branch) branch path

theorem RangeAt.reaches {path : List Bool} (h : RangeAt size isLeft start len path) :
    Reaches size isLeft path := by
  induction h with
  | here => trivial
  | left hsplit _ _ _ ih => exact ⟨hsplit,ih⟩
  | right hsplit _ _ _ ih => exact ⟨hsplit,ih⟩

open Utils

namespace AICHNode

/-- The data a node made for this size and branch has. -/
structure Sized (n : AICHNode) (size : Nat) (isLeft : Bool) : Prop where
  dataSize : n.dataSize = size
  isLeftBranch : n.isLeftBranch = isLeft
  baseSize : n.baseSize = decide (PARTSIZE < size)

theorem create_sized (size : Nat) (isLeft : Bool) :
    (create size isLeft (if size≤PARTSIZE then EMBLOCKSIZE else PARTSIZE)).Sized size isLeft := by
  refine ⟨rfl,rfl,?_⟩
  by_cases h : size≤PARTSIZE
  · rw [if_pos h,decide_eq_false (Nat.not_lt.mpr h)]
    rfl
  · rw [if_neg h,decide_eq_true (Nat.not_le.mp h)]
    simp [create]

variable {n : AICHNode} {size : Nat} {isLeft : Bool}

theorem Sized.getBaseSize (h : n.Sized size isLeft) :
    n.getBaseSize=baseOf size := by
  rw [AICHNode.getBaseSize,h.baseSize,baseOf]
  by_cases hs : size≤PARTSIZE
  · simp [hs,Nat.not_lt.mpr hs]
  · simp [hs,Nat.not_le.mp hs]

theorem Sized.nLeft (h : n.Sized size isLeft) :
    n.nLeft=leftShare size isLeft := by
  rw [AICHNode.nLeft,nBlocks,h.getBaseSize,h.isLeftBranch,h.dataSize]
  rfl

theorem Sized.nRight (h : n.Sized size isLeft) :
    n.nRight=rightShare size isLeft := by
  rw [AICHNode.nRight,h.nLeft,h.dataSize]
  rfl

instance (n : AICHNode) (size : Nat) (isLeft : Bool) : Decidable (n.Sized size isLeft) :=
  decidable_of_iff (n.dataSize=size ∧ n.isLeftBranch=isLeft ∧
      n.baseSize=decide (PARTSIZE<size))
    ⟨fun h => ⟨h.1,h.2.1,h.2.2⟩,fun h => ⟨h.1,h.2,h.3⟩⟩

/-- A node before its hash is known. -/
def blank (n : AICHNode) : AICHNode := { n with hash := default, hashValid := false }

theorem Sized.blank_eq (h : n.Sized size isLeft) :
    n.blank=create size isLeft (if size≤PARTSIZE then EMBLOCKSIZE else PARTSIZE) := by
  have hc := create_sized size isLeft
  obtain ⟨d,hash,b,v,f⟩ := n
  obtain ⟨rfl,rfl,hf⟩ := h
  simp only at hf
  simp only [blank,hf]
  rw [← hc.baseSize]
  rfl

end AICHNode

namespace AICHHashTree

section Hashing

variable (hashPair : AICHHash → AICHHash → AICHHash)

/-- A tree over a size with every hash known, down to shares of at most `unit` bytes. -/
def CompleteTo (unit : Nat) : (size : Nat) → (isLeft : Bool) → AICHHashTree → Prop
  | _, _, null => False
  | size, isLeft, node n l r =>
    n.Sized size isLeft ∧ n.hashValid=true ∧
      if size≤unit then l=null ∧ r=null
      else n.hash=hashPair l.hash r.hash ∧ CompleteTo unit (leftShare size isLeft) true l ∧
        CompleteTo unit (rightShare size isLeft) false r

/-- A tree with every hash known, down to the blocks. -/
abbrev Complete : (size : Nat) → (isLeft : Bool) → AICHHashTree → Prop :=
  CompleteTo hashPair EMBLOCKSIZE

instance decidableCompleteTo (unit : Nat) : (size : Nat) → (isLeft : Bool) → (t : AICHHashTree) →
    Decidable (CompleteTo hashPair unit size isLeft t)
  | _, _, null => .isFalse id
  | size, isLeft, node n l r =>
    have := decidableCompleteTo unit (leftShare size isLeft) true l
    have := decidableCompleteTo unit (rightShare size isLeft) false r
    inferInstanceAs (Decidable (n.Sized size isLeft ∧ n.hashValid=true ∧ ite _ _ _))

end Hashing

/-- What is left of a branch of which only the hash is given. -/
def hashOnly : AICHHashTree → AICHHashTree
  | null => null
  | node n _ _ => node n null null

/-- The blocks of a tree and their branches from its root. -/
def leafPairs : AICHHashTree → List (List Bool × AICHHash)
  | null => []
  | node n l r =>
    if l.isNull then [([], n.hash)]
    else
      (leafPairs l).map (fun p => (true::p.1, p.2)) ++
        (leafPairs r).map (fun p => (false::p.1, p.2))

/-- The hashes beside the branches to a part, then the part's blocks. -/
def recoveryPairs : List Bool → AICHHashTree → List (List Bool × AICHHash)
  | _, null => []
  | [], t => leafPairs t
  | true::path, node _ l r =>
    ([false], r.hash)::(recoveryPairs path l).map (fun p => (true::p.1, p.2))
  | false::path, node _ l r =>
    ([true], l.hash)::(recoveryPairs path r).map (fun p => (false::p.1, p.2))

/-- The tree as far as a part's recovery data determines it. -/
def prunedTo : List Bool → AICHHashTree → AICHHashTree
  | _, null => null
  | [], t => t
  | true::path, node n l r => node n (prunedTo path l) (hashOnly r)
  | false::path, node n l r => node n (hashOnly l) (prunedTo path r)

/-- A tree with the hashes of its blocks only. -/
def blankLeaves : AICHHashTree → AICHHashTree
  | null => null
  | node n l r =>
    if l.isNull then node n null null else node n.blank (blankLeaves l) (blankLeaves r)

/-- The recovery data of a part before any hash is computed from it. -/
def blankTo : List Bool → AICHHashTree → AICHHashTree
  | _, null => null
  | [], t => blankLeaves t
  | true::path, node n l r => node n.blank (blankTo path l) (hashOnly r)
  | false::path, node n l r => node n.blank (hashOnly l) (blankTo path r)

@[simp] theorem recoveryPairs_nil (t : AICHHashTree) : recoveryPairs [] t=leafPairs t := by
  cases t <;> rfl

@[simp] theorem prunedTo_nil (t : AICHHashTree) : prunedTo [] t=t := by cases t <;> rfl

@[simp] theorem blankTo_nil (t : AICHHashTree) : blankTo [] t=blankLeaves t := by
  cases t <;> rfl

def withRoot (n : AICHNode) : AICHHashTree → AICHHashTree
  | null => null
  | node _ l r => node n l r

def makePath : List Bool → AICHHashTree → AICHHashTree
  | _, null => null
  | [], t => t
  | true :: path, node n l r => node n (makePath path (l.orNew n.nLeft true)) r
  | false :: path, node n l r => node n l (makePath path (r.orNew n.nRight false))

/-- A hash written at the end of branches. -/
def install (h : AICHHash) : List Bool → AICHHashTree → AICHHashTree
  | _, null => null
  | [], node n l r => node { n with hash := h, hashValid := true } l r
  | true :: path, node n l r => node n (install h path (l.orNew n.nLeft true)) r
  | false :: path, node n l r => node n l (install h path (r.orNew n.nRight false))

def installAll (pairs : List (List Bool × AICHHash)) (t : AICHHashTree) : AICHHashTree :=
  pairs.foldl (fun t p => install p.2 p.1 t) t

def nodeAt : List Bool → AICHHashTree → Option AICHNode
  | _, null => none
  | [], node n _ _ => some n
  | true::path, node _ l _ => nodeAt path l
  | false::path, node _ _ r => nodeAt path r

end AICHHashTree

open Utils

namespace AICHHashTree

variable {hashPair : AICHHash → AICHHash → AICHHash}

variable {unit size start len : Nat} {isLeft : Bool} {t l r : AICHHashTree} {n : AICHNode}
  {path : List Bool}

theorem completeTo_cases (h : CompleteTo hashPair unit size isLeft t) :
    ∃ n, n.Sized size isLeft ∧ n.hashValid=true ∧
      (size≤unit ∧ t=node n null null ∨
        unit<size ∧ ∃ l r, t=node n l r ∧ n.hash=hashPair l.hash r.hash ∧
          CompleteTo hashPair unit (leftShare size isLeft) true l ∧
          CompleteTo hashPair unit (rightShare size isLeft) false r) := by
  cases t with
  | null => exact h.elim
  | node n l r =>
    obtain ⟨hn,hv,hrest⟩ := h
    refine ⟨n,hn,hv,?_⟩
    by_cases hs : size≤unit
    · rw [if_pos hs] at hrest
      exact Or.inl ⟨hs,by rw [hrest.1,hrest.2]⟩
    · rw [if_neg hs] at hrest
      exact Or.inr ⟨Nat.not_le.mp hs,l,r,rfl,hrest⟩

theorem complete_cases (h : Complete hashPair size isLeft t) :
    ∃ n, n.Sized size isLeft ∧ n.hashValid=true ∧
      (size≤baseOf size ∧ t=node n null null ∨
        baseOf size<size ∧ ∃ l r, t=node n l r ∧ n.hash=hashPair l.hash r.hash ∧
          Complete hashPair (leftShare size isLeft) true l ∧
          Complete hashPair (rightShare size isLeft) false r) := by
  obtain ⟨n,hn,hv,⟨hle,ht⟩ | ⟨hlt,ht⟩⟩ := completeTo_cases h
  · exact ⟨n,hn,hv,Or.inl ⟨hle.trans (le_baseOf size),ht⟩⟩
  · exact ⟨n,hn,hv,Or.inr ⟨baseOf_lt hlt,ht⟩⟩

theorem complete_valid (h : CompleteTo hashPair unit size isLeft t) :
    t.isNull=false ∧ t.hashValid=true := by
  obtain ⟨n,-,hv,⟨-,rfl⟩ | ⟨-,l,r,rfl,-⟩⟩ := completeTo_cases h
  · exact ⟨rfl,hv⟩
  · exact ⟨rfl,hv⟩

theorem hashOnly_valid (h : Complete hashPair size isLeft t) :
    (hashOnly t).isNull=false ∧ (hashOnly t).hashValid=true ∧ (hashOnly t).hash=t.hash := by
  obtain ⟨n,-,hv,⟨-,rfl⟩ | ⟨-,l,r,rfl,-⟩⟩ := complete_cases h
  · exact ⟨rfl,hv,rfl⟩
  · exact ⟨rfl,hv,rfl⟩

theorem hashOnly_reCalculate (t : AICHHashTree) (dontReplace : Bool) :
    reCalculateHash hashPair dontReplace (hashOnly t)=(true, hashOnly t) := by
  cases t <;> rfl

theorem reCalculate_blank {bl br : AICHHashTree} (hv : n.hashValid=true)
    (hhash : n.hash=hashPair l.hash r.hash)
    (hbl : bl.isNull=false) (hbr : br.isNull=false)
    (hl : reCalculateHash hashPair true bl=(true, l))
    (hr : reCalculateHash hashPair true br=(true, r))
    (hlv : l.hashValid=true) (hrv : r.hashValid=true) :
    reCalculateHash hashPair true (node n.blank bl br)=(true, node n l r) := by
  rw [reCalculateHash,hbl,hbr,hl,hr]
  have hn : ({ n.blank with hash := hashPair l.hash r.hash, hashValid := true } : AICHNode)=n := by
    cases n
    simp only [AICHNode.blank]
    simp_all
  simp [AICHNode.blank,hlv,hrv] at hn ⊢
  exact hn

theorem blankLeaves_reCalculate (h : CompleteTo hashPair unit size isLeft t) :
    (blankLeaves t).isNull=false ∧
      reCalculateHash hashPair true (blankLeaves t)=(true, t) := by
  induction t generalizing size isLeft with
  | null => exact h.elim
  | node n l r ihl ihr =>
    obtain ⟨m,-,hv,⟨-,heq⟩ | ⟨-,l',r',heq,hhash,hl,hr⟩⟩ := completeTo_cases h
    · cases heq
      exact ⟨rfl,rfl⟩
    · cases heq
      obtain ⟨hlnull,hlv⟩ := complete_valid hl
      obtain ⟨hrnull,hrv⟩ := complete_valid hr
      rw [blankLeaves,hlnull,if_neg (by simp)]
      exact ⟨rfl,reCalculate_blank hv hhash (ihl hl).1 (ihr hr).1 (ihl hl).2 (ihr hr).2 hlv hrv⟩

theorem fillMissing_blankLeaves (h : CompleteTo hashPair unit size isLeft t) :
    fillMissing hashPair (blankLeaves t)=t := by
  obtain ⟨hnull,hcalc⟩ := blankLeaves_reCalculate h
  obtain ⟨n,-,hv,⟨-,rfl⟩ | ⟨-,l,r,rfl,-,hl,-⟩⟩ := completeTo_cases h
  · rw [fillMissing,blankLeaves,isNull,if_pos rfl,hashValid,hv,Bool.or_true,if_pos rfl]
  · have hblank : (blankLeaves (node n l r)).hashValid=false := by
      rw [blankLeaves,(complete_valid hl).1,if_neg (by simp)]
      rfl
    rw [fillMissing,hnull,hblank,if_neg (by simp),hcalc]

theorem prunedTo_root (path : List Bool) (t : AICHHashTree) :
    (prunedTo path t).hash=t.hash ∧ (prunedTo path t).hashValid=t.hashValid ∧
      (prunedTo path t).isNull=t.isNull := by
  cases t with
  | null => cases path <;> exact ⟨rfl,rfl,rfl⟩
  | node n l r =>
    cases path with
    | nil => exact ⟨rfl,rfl,rfl⟩
    | cons branch path => cases branch <;> exact ⟨rfl,rfl,rfl⟩

theorem blankTo_reCalculate (hpath : RangeAt size isLeft start len path)
    (h : Complete hashPair size isLeft t) :
    (blankTo path t).isNull=false ∧
      reCalculateHash hashPair true (blankTo path t)=(true, prunedTo path t) := by
  induction hpath generalizing t with
  | here =>
    rw [blankTo_nil,prunedTo_nil]
    exact blankLeaves_reCalculate h
  | @left size start len isLeft path hsplit hend hlen hpath ih =>
    obtain ⟨n,-,hv,⟨hle,-⟩ | ⟨-,l,r,rfl,hhash,hl,hr⟩⟩ := complete_cases h
    · omega
    · obtain ⟨hnull,hcalc⟩ := ih hl
      obtain ⟨hrnull,hrv,hrhash⟩ := hashOnly_valid hr
      obtain ⟨hphash,hpv,-⟩ := prunedTo_root path l
      rw [← hrhash,← hphash] at hhash
      exact ⟨rfl,reCalculate_blank hv hhash hnull hrnull hcalc (hashOnly_reCalculate r true)
        (hpv.trans (complete_valid hl).2) hrv⟩
  | @right size start len isLeft path hsplit hstart hlen hpath ih =>
    obtain ⟨n,-,hv,⟨hle,-⟩ | ⟨-,l,r,rfl,hhash,hl,hr⟩⟩ := complete_cases h
    · omega
    · obtain ⟨hnull,hcalc⟩ := ih hr
      obtain ⟨hlnull,hlv,hlhash⟩ := hashOnly_valid hl
      obtain ⟨hphash,hpv,-⟩ := prunedTo_root path r
      rw [← hlhash,← hphash] at hhash
      exact ⟨rfl,reCalculate_blank hv hhash hlnull hnull (hashOnly_reCalculate l true) hcalc
        hlv (hpv.trans (complete_valid hr).2)⟩

theorem fillMissing_blankTo (hpath : RangeAt size isLeft start len path)
    (h : Complete hashPair size isLeft t) :
    fillMissing hashPair (blankTo path t)=prunedTo path t := by
  obtain ⟨hnull,hcalc⟩ := blankTo_reCalculate hpath h
  by_cases hv : (blankTo path t).hashValid=true
  · rw [fillMissing,hv,Bool.or_true,if_pos rfl]
    cases t with
    | null => exact h.elim
    | node n l r =>
      cases path with
      | nil =>
        obtain ⟨m,-,-,⟨-,heq⟩ | ⟨-,l',r',heq,-,hl,-⟩⟩ := complete_cases h
        · cases heq
          rfl
        · cases heq
          have hnl := (complete_valid hl).1
          simp [blankTo,blankLeaves,hnl,hashValid,AICHNode.blank] at hv
      | cons branch path => cases branch <;> cases hv
  · rw [fillMissing,hnull,Bool.false_or,if_neg hv,hcalc]

theorem fillMissing_of_valid (h : t.hashValid=true) :
    fillMissing hashPair t=t := by
  rw [fillMissing,h,Bool.or_true,if_pos rfl]

theorem verify_fit_children {l' r' : AICHHashTree} {deleteBadTrees : Bool} (hv : n.hashValid=true)
    (hhash : n.hash=hashPair l'.hash r'.hash) (hl : fillMissing hashPair l=l')
    (hr : fillMissing hashPair r=r') (hlv : l'.hashValid=true) (hrv : r'.hashValid=true)
    (hvl : verifyHashTree hashPair deleteBadTrees l'=(true, l'))
    (hvr : verifyHashTree hashPair deleteBadTrees r'=(true, r')) :
    verifyHashTree hashPair deleteBadTrees (node n l r)=(true, node n l' r') := by
  rw [verifyHashTree,hl,hr,hvl,hvr]
  simp [hv,hlv,hrv,hhash]

theorem verify_childless (hv : n.hashValid=true) (deleteBadTrees : Bool) :
    verifyHashTree hashPair deleteBadTrees (node n null null)=(true, node n null null) := by
  rw [verifyHashTree]
  simp [hv,fillMissing,isNull,hashValid,dropInvalid]

theorem verify_hashOnly (h : Complete hashPair size isLeft t) :
    verifyHashTree hashPair true (hashOnly t)=(true, hashOnly t) := by
  obtain ⟨n,-,hv,⟨-,rfl⟩ | ⟨-,l,r,rfl,-⟩⟩ := complete_cases h <;>
    exact verify_childless hv true

theorem verify_complete (h : CompleteTo hashPair unit size isLeft t) (deleteBadTrees : Bool) :
    verifyHashTree hashPair deleteBadTrees t=(true, t) := by
  induction t generalizing size isLeft with
  | null => exact h.elim
  | node n l r ihl ihr =>
    obtain ⟨m,-,hv,⟨-,heq⟩ | ⟨-,l',r',heq,hhash,hl,hr⟩⟩ := completeTo_cases h
    · cases heq
      exact verify_childless hv deleteBadTrees
    · cases heq
      have hlv := (complete_valid hl).2
      have hrv := (complete_valid hr).2
      exact verify_fit_children hv hhash (fillMissing_of_valid hlv) (fillMissing_of_valid hrv)
        hlv hrv (ihl hl) (ihr hr)

theorem verify_prunedTo (hpath : RangeAt size isLeft start len path)
    (h : Complete hashPair size isLeft t) :
    verifyHashTree hashPair true (prunedTo path t)=(true, prunedTo path t) := by
  induction hpath generalizing t with
  | here =>
    rw [prunedTo_nil]
    exact verify_complete h true
  | @left size start len isLeft path hsplit hend hlen hpath ih =>
    obtain ⟨n,-,hv,⟨hle,-⟩ | ⟨-,l,r,rfl,hhash,hl,hr⟩⟩ := complete_cases h
    · omega
    · obtain ⟨-,hrv,hrhash⟩ := hashOnly_valid hr
      obtain ⟨hphash,hpv,-⟩ := prunedTo_root path l
      rw [← hrhash,← hphash] at hhash
      have hlv := hpv.trans (complete_valid hl).2
      exact verify_fit_children hv hhash (fillMissing_of_valid hlv) (fillMissing_of_valid hrv)
        hlv hrv (ih hl) (verify_hashOnly hr)
  | @right size start len isLeft path hsplit hstart hlen hpath ih =>
    obtain ⟨n,-,hv,⟨hle,-⟩ | ⟨-,l,r,rfl,hhash,hl,hr⟩⟩ := complete_cases h
    · omega
    · obtain ⟨-,hlv,hlhash⟩ := hashOnly_valid hl
      obtain ⟨hphash,hpv,-⟩ := prunedTo_root path r
      rw [← hlhash,← hphash] at hhash
      have hrv := hpv.trans (complete_valid hr).2
      exact verify_fit_children hv hhash (fillMissing_of_valid hlv) (fillMissing_of_valid hrv)
        hlv hrv (verify_hashOnly hl) (ih hr)

theorem verify_blankLeaves (h : CompleteTo hashPair unit size isLeft (node n l r))
    (hsplit : unit<size) (deleteBadTrees : Bool) :
    verifyHashTree hashPair deleteBadTrees (withRoot n (blankLeaves (node n l r))) =
      (true, node n l r) := by
  obtain ⟨m,-,hv,⟨hle,-⟩ | ⟨-,l',r',heq,hhash,hl,hr⟩⟩ := completeTo_cases h
  · omega
  cases heq
  have hlv := (complete_valid hl).2
  have hrv := (complete_valid hr).2
  rw [blankLeaves,(complete_valid hl).1,if_neg (by simp),withRoot]
  exact verify_fit_children hv hhash (fillMissing_blankLeaves hl) (fillMissing_blankLeaves hr)
    hlv hrv (verify_complete hl deleteBadTrees) (verify_complete hr deleteBadTrees)

theorem verify_blankTo (hpath : RangeAt size isLeft start len path)
    (h : Complete hashPair size isLeft (node n l r)) (hsplit : baseOf size<size) :
    verifyHashTree hashPair true (withRoot n (blankTo path (node n l r))) =
      (true, prunedTo path (node n l r)) := by
  obtain ⟨m,-,hv,⟨hle,-⟩ | ⟨-,l',r',heq,hhash,hl,hr⟩⟩ := complete_cases h
  · omega
  cases heq
  have hlv := (complete_valid hl).2
  have hrv := (complete_valid hr).2
  cases hpath with
  | here =>
    exact verify_blankLeaves h (Nat.lt_of_le_of_lt (le_baseOf size) hsplit) true
  | @left _ _ _ _ path _ _ _ hpath =>
    obtain ⟨-,hov,hohash⟩ := hashOnly_valid hr
    obtain ⟨hphash,hpv,-⟩ := prunedTo_root path l
    rw [← hohash,← hphash] at hhash
    exact verify_fit_children hv hhash (fillMissing_blankTo hpath hl) (fillMissing_of_valid hov)
      (hpv.trans hlv) hov (verify_prunedTo hpath hl) (verify_hashOnly hr)
  | @right _ _ _ _ path _ _ _ hpath =>
    obtain ⟨-,hov,hohash⟩ := hashOnly_valid hl
    obtain ⟨hphash,hpv,-⟩ := prunedTo_root path r
    rw [← hohash,← hphash] at hhash
    exact verify_fit_children hv hhash (fillMissing_of_valid hov) (fillMissing_blankTo hpath hr)
      hov (hpv.trans hrv) (verify_hashOnly hl) (verify_prunedTo hpath hr)

end AICHHashTree

end EmuleQt.Crypto
