import EmuleQt.Crypto.AICHRebuild

namespace EmuleQt.Crypto

open Utils

namespace AICHHashTree

variable {hashPair : AICHHash → AICHHash → AICHHash}

@[simp] theorem orNew_notNull (t : AICHHashTree) (size : Nat) (isLeft : Bool) :
    (t.orNew size isLeft).isNull=false := by
  cases t <;> rfl

variable {t l r : AICHHashTree} {n : AICHNode} {size : Nat} {isLeft : Bool}

theorem orNew_of_notNull (h : t.isNull=false) (size : Nat) (isLeft : Bool) :
    t.orNew size isLeft=t := by
  cases t with
  | null => cases h
  | node => rfl

theorem install_isNull (h : AICHHash) (path : List Bool) (t : AICHHashTree) :
    (install h path t).isNull=t.isNull := by
  cases t with
  | null => cases path <;> rfl
  | node n l r =>
    cases path with
    | nil => rfl
    | cons branch path => cases branch <;> rfl

theorem installAll_side (pairs : List (List Bool × AICHHash)) :
    (l.isNull=false →
      installAll (pairs.map fun p => (true::p.1, p.2)) (node n l r) =
        node n (installAll pairs l) r) ∧
    (r.isNull=false →
      installAll (pairs.map fun p => (false::p.1, p.2)) (node n l r) =
        node n l (installAll pairs r)) := by
  induction pairs generalizing l r with
  | nil => exact ⟨fun _ => rfl,fun _ => rfl⟩
  | cons p pairs ih =>
    constructor
    · intro hl
      have hnull : (install p.2 p.1 l).isNull=false := (install_isNull p.2 p.1 l).trans hl
      simp only [installAll,List.map_cons,List.foldl_cons,install,orNew_of_notNull hl]
      exact (ih (l := install p.2 p.1 l)).1 hnull
    · intro hr
      have hnull : (install p.2 p.1 r).isNull=false := (install_isNull p.2 p.1 r).trans hr
      simp only [installAll,List.map_cons,List.foldl_cons,install,orNew_of_notNull hr]
      exact (ih (r := install p.2 p.1 r)).2 hnull

theorem installAll_makes {pairs : List (List Bool × AICHHash)} (hne : pairs≠[]) :
    installAll (pairs.map fun p => (true::p.1, p.2)) (node n l r) =
        node n (installAll pairs (l.orNew n.nLeft true)) r ∧
      installAll (pairs.map fun p => (false::p.1, p.2)) (node n l r) =
        node n l (installAll pairs (r.orNew n.nRight false)) := by
  cases pairs with
  | nil => exact absurd rfl hne
  | cons p pairs =>
    have hl := (installAll_side (n := n) (l := l.orNew n.nLeft true) (r := r) (p::pairs)).1 (by simp)
    have hr := (installAll_side (n := n) (l := l) (r := r.orNew n.nRight false) (p::pairs)).2
      (by simp)
    simp only [installAll,List.map_cons,List.foldl_cons,install,
      orNew_of_notNull (orNew_notNull l n.nLeft true),
      orNew_of_notNull (orNew_notNull r n.nRight false)] at hl hr ⊢
    exact ⟨hl,hr⟩

theorem installAll_append (xs ys : List (List Bool × AICHHash)) (t : AICHHashTree) :
    installAll (xs++ys) t=installAll ys (installAll xs t) := by
  simp [installAll]

theorem leafPairs_ne_nil {unit : Nat} (h : CompleteTo hashPair unit size isLeft t) :
    leafPairs t≠[] := by
  induction t generalizing size isLeft with
  | null => exact h.elim
  | node n l r ihl ihr =>
    obtain ⟨m,-,-,⟨-,heq⟩ | ⟨-,l',r',heq,-,hl,-⟩⟩ := completeTo_cases h
    · cases heq
      simp [leafPairs,isNull]
    · cases heq
      simp [leafPairs,(complete_valid hl).1,ihl hl]

theorem blank_sized (h : n.Sized size isLeft) :
    n.blank.Sized size isLeft := ⟨h.dataSize,h.isLeftBranch,h.baseSize⟩

theorem newNode_eq (h : n.Sized size isLeft) :
    newNode size isLeft=node n.blank null null := by
  rw [newNode,h.blank_eq]

theorem installAll_leafPairs {unit : Nat} (h : CompleteTo hashPair unit size isLeft t) :
    installAll (leafPairs t) (newNode size isLeft)=blankLeaves t ∧
      (unit<size → ∀ n : AICHNode, n.Sized size isLeft →
        installAll (leafPairs t) (node n null null)=withRoot n (blankLeaves t)) := by
  induction t generalizing size isLeft with
  | null => exact h.elim
  | node n l r ihl ihr =>
    obtain ⟨m,hn,hv,⟨hle,heq⟩ | ⟨-,l',r',heq,-,hl,hr⟩⟩ := completeTo_cases h
    · cases heq
      refine ⟨?_,fun hlt => absurd hlt (Nat.not_lt.mpr hle)⟩
      have hfull : ({ n.blank with hash := n.hash, hashValid := true } : AICHNode)=n := by
        cases n
        simp_all [AICHNode.blank]
      simp only [leafPairs,isNull,if_true,installAll,List.foldl_cons,List.foldl_nil,
        newNode_eq hn,install,hfull,blankLeaves]
    · cases heq
      have hnull := (complete_valid hl).1
      have both : ∀ n' : AICHNode, n'.Sized size isLeft →
          installAll (leafPairs (node n l r)) (node n' null null) =
            node n' (blankLeaves l) (blankLeaves r) := by
        intro n' hn'
        rw [leafPairs,hnull,if_neg (by simp),installAll_append,
          (installAll_makes (leafPairs_ne_nil hl)).1,(installAll_makes (leafPairs_ne_nil hr)).2,
          hn'.nLeft,hn'.nRight]
        exact congrArg₂ (node n') (ihl hl).1 (ihr hr).1
      rw [blankLeaves,hnull,if_neg (by simp),newNode_eq hn]
      exact ⟨both n.blank (blank_sized hn),fun _ n' hn' => both n' hn'⟩

theorem makePath_isNull (path : List Bool) (t : AICHHashTree) :
    (makePath path t).isNull=t.isNull := by
  cases t with
  | null => cases path <;> rfl
  | node n l r =>
    cases path with
    | nil => rfl
    | cons branch path => cases branch <;> rfl

theorem install_hashOnly (h : Complete hashPair size isLeft t) :
    install t.hash [] (newNode size isLeft)=hashOnly t := by
  obtain ⟨n,hn,hv,ht⟩ := complete_cases h
  have hfull : ({ n.blank with hash := n.hash, hashValid := true } : AICHNode)=n := by
    cases n
    simp_all [AICHNode.blank]
  rcases ht with ⟨-,rfl⟩ | ⟨-,l,r,rfl,-⟩ <;>
    simp only [newNode_eq hn,install,hash,hfull,hashOnly]

theorem installAll_branch (hn : n.Sized size isLeft)
    (hl : Complete hashPair (leftShare size isLeft) true l)
    (hr : Complete hashPair (rightShare size isLeft) false r) (path : List Bool) :
    installAll (recoveryPairs (true::path) (node n l r))
        (makePath (true::path) (node n null null)) =
      node n (installAll (recoveryPairs path l)
        (makePath path (newNode (leftShare size isLeft) true))) (hashOnly r) ∧
    installAll (recoveryPairs (false::path) (node n l r))
        (makePath (false::path) (node n null null)) =
      node n (hashOnly l) (installAll (recoveryPairs path r)
        (makePath path (newNode (rightShare size isLeft) false))) := by
  have hfirstl := install_hashOnly hr
  have hfirstr := install_hashOnly hl
  have hleft := (installAll_side (n := n) (l := makePath path (newNode (leftShare size isLeft) true))
    (r := hashOnly r) (recoveryPairs path l)).1 (makePath_isNull path _)
  have hright := (installAll_side (n := n) (l := hashOnly l)
    (r := makePath path (newNode (rightShare size isLeft) false)) (recoveryPairs path r)).2
    (makePath_isNull path _)
  constructor
  · rw [← hleft,← hfirstl]
    simp only [recoveryPairs,makePath,installAll,List.foldl_cons,install,hn.nLeft,hn.nRight,
      orNew]
  · rw [← hright,← hfirstr]
    simp only [recoveryPairs,makePath,installAll,List.foldl_cons,install,hn.nLeft,hn.nRight,
      orNew]

theorem installAll_recoveryPairs {start len : Nat} {path : List Bool}
    (hpath : RangeAt size isLeft start len path) (h : Complete hashPair size isLeft t) :
    installAll (recoveryPairs path t) (makePath path (newNode size isLeft))=blankTo path t ∧
      (baseOf size<size → ∀ n : AICHNode, n.Sized size isLeft →
        installAll (recoveryPairs path t) (makePath path (node n null null)) =
          withRoot n (blankTo path t)) := by
  induction hpath generalizing t with
  | here =>
    simp only [recoveryPairs_nil,blankTo_nil,makePath,newNode]
    obtain ⟨hnew,hroot⟩ := installAll_leafPairs h
    exact ⟨hnew,fun hsplit => hroot (Nat.lt_of_le_of_lt (le_baseOf _) hsplit)⟩
  | @left size start len isLeft path hsplit hend hlen hpath ih =>
    obtain ⟨m,hm,-,⟨hle,-⟩ | ⟨-,l,r,rfl,-,hl,hr⟩⟩ := complete_cases h
    · omega
    have hpairs : ∀ n,recoveryPairs (true::path) (node m l r) =
        recoveryPairs (true::path) (node n l r) := fun n => rfl
    rw [newNode_eq hm]
    constructor
    · rw [hpairs m.blank,(installAll_branch (blank_sized hm) hl hr path).1,(ih hl).1]
      rfl
    · intro _ n hn
      rw [hpairs n,(installAll_branch hn hl hr path).1,(ih hl).1]
      rfl
  | @right size start len isLeft path hsplit hstart hlen hpath ih =>
    obtain ⟨m,hm,-,⟨hle,-⟩ | ⟨-,l,r,rfl,-,hl,hr⟩⟩ := complete_cases h
    · omega
    have hpairs : ∀ n,recoveryPairs (false::path) (node m l r) =
        recoveryPairs (false::path) (node n l r) := fun n => rfl
    rw [newNode_eq hm]
    constructor
    · rw [hpairs m.blank,(installAll_branch (blank_sized hm) hl hr path).2,(ih hr).1]
      rfl
    · intro _ n hn
      rw [hpairs n,(installAll_branch hn hl hr path).2,(ih hr).1]
      rfl

end AICHHashTree

open Utils

namespace AICHHashTree

variable {hashPair : AICHHash → AICHHash → AICHHash}

/-- The identifier behind a number of branches. -/
def identAt (ident : Nat) (path : List Bool) : Nat := path.foldl shiftIdent ident

def identSize (use32Bit : Bool) : Nat := if use32Bit then 4 else 2

def encodePair (use32Bit : Bool) (ident : Nat) (p : List Bool × AICHHash) : List UInt8 :=
  writeIdent use32Bit (identAt ident p.1)++p.2.bytes

def encodePairs (use32Bit : Bool) (ident : Nat) (pairs : List (List Bool × AICHHash)) :
    List UInt8 := pairs.flatMap (encodePair use32Bit ident)

theorem writeIdent_length (use32Bit : Bool) (ident : Nat) :
    (writeIdent use32Bit ident).length=identSize use32Bit := by
  cases use32Bit <;> simp [writeIdent,identSize]

theorem encodePairs_length (use32Bit : Bool) (ident : Nat) (pairs : List (List Bool × AICHHash)) :
    (encodePairs use32Bit ident pairs).length =
      pairs.length*(kAICHHashSize+identSize use32Bit) := by
  induction pairs with
  | nil => simp [encodePairs]
  | cons p pairs ih =>
    simp only [encodePairs,List.flatMap_cons,List.length_append,encodePair,writeIdent_length,
      p.2.size,List.length_cons,Nat.succ_mul] at ih ⊢
    omega

theorem encodePairs_branch (use32Bit : Bool) (ident : Nat) (branch : Bool)
    (pairs : List (List Bool × AICHHash)) :
    encodePairs use32Bit ident (pairs.map fun p => (branch::p.1, p.2)) =
      encodePairs use32Bit (shiftIdent ident branch) pairs := by
  simp only [encodePairs,List.flatMap_map]
  rfl

theorem encodePairs_append (use32Bit : Bool) (ident : Nat) (xs ys : List (List Bool × AICHHash)) :
    encodePairs use32Bit ident (xs++ys) =
      encodePairs use32Bit ident xs++encodePairs use32Bit ident ys :=
  List.flatMap_append

variable {path : List Bool} {size start len : Nat} {isLeft : Bool} {t : AICHHashTree}

theorem identAt_bounds {ident : Nat} (h : (ident+1)*2^path.length≤2^32) :
    ident*2^path.length ≤ identAt ident path ∧
      identAt ident path<(ident+1)*2^path.length := by
  induction path generalizing ident with
  | nil => simp [identAt]
  | cons branch path ih =>
    have hb : branch.toNat≤1 := Bool.toNat_le branch
    have hpos : 0<2^path.length := Nat.two_pow_pos _
    rw [List.length_cons,Nat.pow_succ,Nat.mul_comm (2^path.length) 2,← Nat.mul_assoc] at h
    have hsmall : ident*2<2^32 := by
      have := Nat.le_mul_of_pos_right ((ident+1)*2) hpos
      omega
    have hshift : shiftIdent ident branch=ident*2+branch.toNat := by
      rw [shiftIdent,Nat.mod_eq_of_lt hsmall]
    have hhigh : (ident*2+branch.toNat+1)*2^path.length ≤
        (ident+1)*2*2^path.length := Nat.mul_le_mul_right _ (by omega)
    have hlow : ident*2*2^path.length ≤
        (ident*2+branch.toNat)*2^path.length := Nat.mul_le_mul_right _ (by omega)
    obtain ⟨h1,h2⟩ := @ih (ident*2+branch.toNat) (by omega)
    rw [List.length_cons,Nat.pow_succ,Nat.mul_comm (2^path.length) 2,← Nat.mul_assoc,
      ← Nat.mul_assoc,identAt,List.foldl_cons,hshift]
    exact ⟨hlow.trans h1,h2.trans_le hhigh⟩

theorem writeLowestLevelHashes_complete (use32Bit : Bool) (ident : Nat)
    (h : Complete hashPair size isLeft t) :
    writeLowestLevelHashes false use32Bit ident t =
      (true, encodePairs use32Bit (shiftIdent ident isLeft) (leafPairs t)) := by
  induction t generalizing ident size isLeft with
  | null => exact h.elim
  | node n l r ihl ihr =>
    obtain ⟨m,hn,hv,⟨hle,heq⟩ | ⟨-,l',r',heq,-,hl,hr⟩⟩ := complete_cases h
    · cases heq
      have hbase : n.dataSize≤n.getBaseSize := by rwa [hn.dataSize,hn.getBaseSize]
      simp [writeLowestLevelHashes,isNull,hbase,hv,hn.isLeftBranch,leafPairs,encodePairs,
        encodePair,identAt]
    · cases heq
      obtain ⟨hlnull,-⟩ := complete_valid hl
      obtain ⟨hrnull,-⟩ := complete_valid hr
      have hpairs : encodePairs use32Bit (shiftIdent ident isLeft) (leafPairs (node n l r)) =
          encodePairs use32Bit (shiftIdent (shiftIdent ident isLeft) true) (leafPairs l) ++
            encodePairs use32Bit (shiftIdent (shiftIdent ident isLeft) false) (leafPairs r) := by
        rw [leafPairs,hlnull,if_neg (by simp),encodePairs_append,encodePairs_branch,
          encodePairs_branch]
      rw [writeLowestLevelHashes,hlnull,hrnull,hn.isLeftBranch,hpairs,ihl _ hl,ihr _ hr]
      rfl

theorem createPartRecoveryData_complete (use32Bit : Bool)
    (hpath : RangeAt size isLeft start len path) (ident : Nat)
    (h : Complete hashPair size isLeft t) :
    t.createPartRecoveryData use32Bit start len ident =
      (true, encodePairs use32Bit (shiftIdent ident isLeft) (recoveryPairs path t)) := by
  induction hpath generalizing ident t with
  | @here size isLeft =>
    obtain ⟨n,hn,-,ht⟩ := complete_cases h
    have hsize : n.dataSize=size := hn.dataSize
    rw [recoveryPairs_nil,← writeLowestLevelHashes_complete use32Bit ident h]
    rcases ht with ⟨-,rfl⟩ | ⟨-,l,r,rfl,-⟩ <;>
      rw [createPartRecoveryData,if_neg (by omega),if_pos ⟨rfl,hsize.symm⟩]
  | @left size start len isLeft path hsplit hend hlen hpath ih =>
    obtain ⟨n,hn,-,⟨hle,-⟩ | ⟨-,l,r,rfl,-,hl,hr⟩⟩ := complete_cases h
    · omega
    obtain ⟨hlnull,-⟩ := complete_valid hl
    obtain ⟨hrnull,hrv⟩ := complete_valid hr
    have hlt := leftShare_lt hsplit isLeft
    have hbranch : writeHash (shiftIdent ident isLeft) use32Bit r =
        encodePair use32Bit (shiftIdent ident isLeft) ([false], r.hash) := by
      obtain ⟨m,hm,-,⟨-,rfl⟩ | ⟨-,l',r',rfl,-⟩⟩ := complete_cases hr <;>
        simp [writeHash,encodePair,identAt,hm.isLeftBranch,hash]
    rw [createPartRecoveryData,hn.dataSize,hn.getBaseSize,hn.nLeft,if_neg (by omega),
      if_neg (by omega),if_neg (by omega),hlnull,hrnull,hn.isLeftBranch,
      if_neg (by simp),if_pos (by omega),if_neg (by simp [hrv]; omega),ih _ hl,hbranch,
      ← encodePairs_branch]
    rfl
  | @right size start len isLeft path hsplit hstart hlen hpath ih =>
    obtain ⟨n,hn,-,⟨hle,-⟩ | ⟨-,l,r,rfl,-,hl,hr⟩⟩ := complete_cases h
    · omega
    obtain ⟨hlnull,hlv⟩ := complete_valid hl
    obtain ⟨hrnull,-⟩ := complete_valid hr
    have hpos := leftShare_pos hsplit isLeft
    have hend := hpath.end_le
    have hshare : rightShare size isLeft=size-leftShare size isLeft := rfl
    have hbranch : writeHash (shiftIdent ident isLeft) use32Bit l =
        encodePair use32Bit (shiftIdent ident isLeft) ([true], l.hash) := by
      obtain ⟨m,hm,-,⟨-,rfl⟩ | ⟨-,l',r',rfl,-⟩⟩ := complete_cases hl <;>
        simp [writeHash,encodePair,identAt,hm.isLeftBranch,hash]
    rw [createPartRecoveryData,hn.dataSize,hn.getBaseSize,hn.nLeft,hn.nRight,
      if_neg (by omega),if_neg (by omega),if_neg (by omega),hlnull,hrnull,hn.isLeftBranch,
      if_neg (by simp),if_neg (by omega),if_neg (by simp [hlv]; omega),ih _ hr,hbranch,
      ← encodePairs_branch]
    rfl

theorem leafPairs_length {unit : Nat} (hunit : 0<unit)
    (h : CompleteTo hashPair unit size isLeft t) (hpos : 0<size)
    (hbase : ∀ s,unit<s → s ≤ size → baseOf s=unit) :
    (leafPairs t).length=blocksOf unit size := by
  induction t generalizing size isLeft with
  | null => exact h.elim
  | node n l r ihl ihr =>
    obtain ⟨m,-,-,⟨hle,heq⟩ | ⟨hlt,l',r',heq,-,hl,hr⟩⟩ := completeTo_cases h
    · cases heq
      rw [blocksOf_unique hunit (c := 1) (by omega) (by omega)]
      rfl
    · cases heq
      obtain ⟨hb0,hbsize,hbl,hbr,h2b,hb2⟩ := share_spec hunit hlt isLeft
      have hleft : leftShare size isLeft=(blocksOf unit size+isLeft.toNat)/2*unit := by
        rw [leftShare,hbase size hlt (Nat.le_refl size)]
      rw [← hleft] at hbl hbr hbsize
      have hlpos : 0<leftShare size isLeft := hleft ▸ Nat.mul_pos hb0 hunit
      have hllen := ihl hl hlpos fun s h1 h2 => hbase s h1 (by omega)
      have hrlen := ihr hr (Nat.sub_pos_of_lt hbsize) fun s h1 h2 => hbase s h1 (by
        unfold rightShare at h2
        omega)
      rw [leafPairs,(complete_valid hl).1,if_neg (by simp),List.length_append,List.length_map,
        List.length_map,hllen,hrlen,hbl,rightShare,hbr]
      omega

theorem recoveryPairs_length (hpath : RangeAt size isLeft start len path)
    (h : Complete hashPair size isLeft t) (hpos : 0<len) (hsmall : len≤PARTSIZE) :
    (recoveryPairs path t).length=path.length+blockCount len := by
  induction hpath generalizing t with
  | here =>
    rw [recoveryPairs_nil,List.length_nil,Nat.zero_add,blockCount_eq]
    exact leafPairs_length EMBLOCKSIZE_pos h hpos fun s _ hs => baseOf_small (hs.trans hsmall)
  | @left size start len isLeft path hsplit hend hlen hpath ih =>
    obtain ⟨n,-,-,⟨hle,-⟩ | ⟨-,l,r,rfl,-,hl,hr⟩⟩ := complete_cases h
    · omega
    · rw [recoveryPairs,List.length_cons,List.length_map,ih hl hpos hsmall,List.length_cons]
      omega
  | @right size start len isLeft path hsplit hstart hlen hpath ih =>
    obtain ⟨n,-,-,⟨hle,-⟩ | ⟨-,l,r,rfl,-,hl,hr⟩⟩ := complete_cases h
    · omega
    · rw [recoveryPairs,List.length_cons,List.length_map,ih hr hpos hsmall,List.length_cons]
      omega

theorem leafPairs_reaches {unit : Nat} (hunit : 0<unit)
    (h : CompleteTo hashPair unit size isLeft t)
    (hbase : ∀ s,unit<s → s ≤ size → baseOf s=unit) {k : Nat}
    (hk : blocksOf unit size≤2^k) :
    ∀ p∈leafPairs t,Reaches size isLeft p.1 ∧ p.1.length≤k := by
  induction t generalizing size isLeft k with
  | null => exact h.elim
  | node n l r ihl ihr =>
    obtain ⟨m,-,-,⟨hle,heq⟩ | ⟨hlt,l',r',heq,-,hl,hr⟩⟩ := completeTo_cases h
    · cases heq
      simp [leafPairs,isNull,Reaches]
    · cases heq
      obtain ⟨hb0,hbsize,hbl,hbr,h2b,hb2⟩ := share_spec hunit hlt isLeft
      have hsize := hbase size hlt (Nat.le_refl size)
      have hleft : leftShare size isLeft=(blocksOf unit size+isLeft.toNat)/2*unit := by
        rw [leftShare,hsize]
      rw [← hleft] at hbl hbr hbsize
      have hpos : 0<blocksOf unit size-(blocksOf unit size+isLeft.toNat)/2 := by
        rw [← hbr]
        obtain ⟨h1,-⟩ := blocksOf_bounds hunit (size-leftShare size isLeft)
        exact Nat.pos_of_mul_pos_right (Nat.lt_of_lt_of_le (Nat.sub_pos_of_lt hbsize) h1)
      cases k with
      | zero => rw [Nat.pow_zero] at hk; omega
      | succ k =>
        have hleft := ihl hl (fun s h1 h2 => hbase s h1 (by omega)) (k := k) (by omega)
        have hright := ihr hr (fun s h1 h2 => hbase s h1 (by unfold rightShare at h2; omega))
          (k := k) (by rw [rightShare,hbr]; omega)
        intro p hp
        rw [leafPairs,(complete_valid hl).1,if_neg (by simp),List.mem_append,List.mem_map,
          List.mem_map] at hp
        rcases hp with ⟨q,hq,rfl⟩ | ⟨q,hq,rfl⟩
        · exact ⟨⟨hsize ▸ hlt,(hleft q hq).1⟩,Nat.succ_le_succ (hleft q hq).2⟩
        · exact ⟨⟨hsize ▸ hlt,(hright q hq).1⟩,Nat.succ_le_succ (hright q hq).2⟩

theorem recoveryPairs_reaches (hpath : RangeAt size isLeft start len path)
    (h : Complete hashPair size isLeft t) (hsmall : len≤PARTSIZE) {k : Nat}
    (hk : blockCount len≤2^k) (hone : 0<k) :
    ∀ p∈recoveryPairs path t,Reaches size isLeft p.1 ∧ p.1.length≤path.length+k := by
  induction hpath generalizing t with
  | here =>
    rw [recoveryPairs_nil,List.length_nil,Nat.zero_add]
    exact leafPairs_reaches EMBLOCKSIZE_pos h (fun s _ hs => baseOf_small (hs.trans hsmall)) hk
  | @left size start len isLeft path hsplit hend hlen hpath ih =>
    obtain ⟨n,-,-,⟨hle,-⟩ | ⟨-,l,r,rfl,-,hl,hr⟩⟩ := complete_cases h
    · omega
    intro p hp
    rw [recoveryPairs,List.mem_cons,List.mem_map] at hp
    rcases hp with rfl | ⟨q,hq,rfl⟩
    · exact ⟨⟨hsplit,trivial⟩,by simp; omega⟩
    · obtain ⟨hreach,hqlen⟩ := ih hl hsmall hk q hq
      exact ⟨⟨hsplit,hreach⟩,by simp; omega⟩
  | @right size start len isLeft path hsplit hstart hlen hpath ih =>
    obtain ⟨n,-,-,⟨hle,-⟩ | ⟨-,l,r,rfl,-,hl,hr⟩⟩ := complete_cases h
    · omega
    intro p hp
    rw [recoveryPairs,List.mem_cons,List.mem_map] at hp
    rcases hp with rfl | ⟨q,hq,rfl⟩
    · exact ⟨⟨hsplit,trivial⟩,by simp; omega⟩
    · obtain ⟨hreach,hqlen⟩ := ih hr hsmall hk q hq
      exact ⟨⟨hsplit,hreach⟩,by simp; omega⟩

theorem recoveryPairs_ne_root (h : Complete hashPair size isLeft t) (hsplit : baseOf size<size) :
    ∀ p∈recoveryPairs path t,p.1≠[] := by
  obtain ⟨n,-,-,⟨hle,-⟩ | ⟨-,l,r,rfl,-,hl,hr⟩⟩ := complete_cases h
  · omega
  intro p hp
  cases path with
  | nil =>
    rw [recoveryPairs_nil,leafPairs,(complete_valid hl).1,if_neg (by simp),List.mem_append,
      List.mem_map,List.mem_map] at hp
    rcases hp with ⟨q,-,rfl⟩ | ⟨q,-,rfl⟩ <;> simp
  | cons branch path =>
    cases branch <;>
    · rw [recoveryPairs,List.mem_cons,List.mem_map] at hp
      rcases hp with rfl | ⟨q,-,rfl⟩ <;> simp

end AICHHashTree

end EmuleQt.Crypto
