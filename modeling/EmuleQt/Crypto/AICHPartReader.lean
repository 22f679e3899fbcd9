import EmuleQt.Crypto.AICHPartWriter

namespace EmuleQt.Crypto

open Utils

namespace AICHHashTree

variable {hashPair : AICHHash → AICHHash → AICHHash}

/-- A tree whose nodes, as far as it has any, are made for the shares of a size. -/
def Shaped : (size : Nat) → (isLeft : Bool) → AICHHashTree → Prop
  | _, _, null => True
  | size, isLeft, node n l r =>
    n.Sized size isLeft ∧ Shaped (leftShare size isLeft) true l ∧
      Shaped (rightShare size isLeft) false r

theorem newNode_shaped (size : Nat) (isLeft : Bool) : Shaped size isLeft (newNode size isLeft) :=
  ⟨AICHNode.create_sized size isLeft,trivial,trivial⟩

variable {size : Nat} {isLeft : Bool} {t : AICHHashTree} {path : List Bool}

theorem orNew_shaped (h : Shaped size isLeft t) :
    Shaped size isLeft (t.orNew size isLeft) := by
  cases t with
  | null => exact newNode_shaped size isLeft
  | node => exact h

theorem install_shaped (hash : AICHHash) (path : List Bool) (h : Shaped size isLeft t) :
    Shaped size isLeft (install hash path t) := by
  induction path generalizing size isLeft t with
  | nil =>
    cases t with
    | null => trivial
    | node n l r => exact ⟨⟨h.1.dataSize,h.1.isLeftBranch,h.1.baseSize⟩,h.2⟩
  | cons branch path ih =>
    cases t with
    | null => cases branch <;> trivial
    | node n l r =>
      obtain ⟨hn,hl,hr⟩ := h
      cases branch with
      | true =>
        refine ⟨hn,?_,hr⟩
        rw [hn.nLeft]
        exact ih (orNew_shaped hl)
      | false =>
        refine ⟨hn,hl,?_⟩
        rw [hn.nRight]
        exact ih (orNew_shaped hr)

theorem makePath_shaped (path : List Bool) (h : Shaped size isLeft t) :
    Shaped size isLeft (makePath path t) := by
  induction path generalizing size isLeft t with
  | nil => cases t <;> exact h
  | cons branch path ih =>
    cases t with
    | null => cases branch <;> trivial
    | node n l r =>
      obtain ⟨hn,hl,hr⟩ := h
      cases branch with
      | true =>
        refine ⟨hn,?_,hr⟩
        rw [hn.nLeft]
        exact ih (orNew_shaped hl)
      | false =>
        refine ⟨hn,hl,?_⟩
        rw [hn.nRight]
        exact ih (orNew_shaped hr)

theorem complete_shaped (h : Complete hashPair size isLeft t) : Shaped size isLeft t := by
  induction t generalizing size isLeft with
  | null => exact h.elim
  | node n l r ihl ihr =>
    obtain ⟨m,hn,-,⟨-,heq⟩ | ⟨-,l',r',heq,-,hl,hr⟩⟩ := complete_cases h
    · cases heq
      exact ⟨hn,trivial,trivial⟩
    · cases heq
      exact ⟨hn,ihl hl,ihr hr⟩

theorem identAt_add {ident : Nat} (h : (ident+1)*2^path.length≤2^32) :
    identAt ident path=ident*2^path.length+identAt 0 path := by
  induction path generalizing ident with
  | nil => simp [identAt]
  | cons branch path ih =>
    have hb : branch.toNat≤1 := Bool.toNat_le branch
    have hpos : 0<2^path.length := Nat.two_pow_pos _
    rw [List.length_cons,Nat.pow_succ,Nat.mul_comm (2^path.length) 2,← Nat.mul_assoc] at h
    have hle : (ident*2+branch.toNat+1)*2^path.length ≤
        (ident+1)*2*2^path.length := Nat.mul_le_mul_right _ (by omega)
    have hzero : (branch.toNat+1)*2^path.length ≤
        (ident*2+branch.toNat+1)*2^path.length := Nat.mul_le_mul_right _ (by omega)
    have hsmall : ident*2<2^32 := by
      have := Nat.le_mul_of_pos_right ((ident+1)*2) hpos
      omega
    have hshift : shiftIdent ident branch=ident*2+branch.toNat := by
      rw [shiftIdent,Nat.mod_eq_of_lt hsmall]
    have hfirst : shiftIdent 0 branch=branch.toNat := by simp [shiftIdent]
    have hdeep : identAt 0 (branch::path)=branch.toNat*2^path.length+identAt 0 path := by
      rw [identAt,List.foldl_cons,hfirst]
      exact ih (by omega)
    rw [hdeep,identAt,List.foldl_cons,hshift]
    rw [show List.foldl shiftIdent (ident*2+branch.toNat) path =
      identAt (ident*2+branch.toNat) path from rfl,ih (by omega),List.length_cons,
      Nat.pow_succ]
    ring

theorem branch_bits {hashIdent : Nat} {branch : Bool} (hlen : path.length<31)
    (h : hashIdent%2^31=identAt 0 (branch::path)*2^(31-(path.length+1))) :
    (2^31≤hashIdent*2%2^32 ↔ branch=true) ∧
      hashIdent*2%2^32%2^31=identAt 0 path*2^(31-path.length) := by
  have hbound : (branch.toNat+1)*2^path.length≤2^32 := by
    have hb : branch.toNat≤1 := Bool.toNat_le branch
    calc (branch.toNat+1)*2^path.length≤2*2^31 :=
          Nat.mul_le_mul (by omega) (Nat.pow_le_pow_right (by omega) (by omega))
      _ = 2^32 := by norm_num
  have hzero : (0+1)*2^path.length≤2^32 :=
    (Nat.mul_le_mul_right _ (by omega)).trans hbound
  have hdeep : identAt 0 (branch::path)=branch.toNat*2^path.length+identAt 0 path := by
    have hfirst : shiftIdent 0 branch=branch.toNat := by simp [shiftIdent]
    rw [identAt,List.foldl_cons,hfirst]
    exact identAt_add hbound
  have hlow : identAt 0 path*2^(31-path.length)<2^31 := by
    have hlt := (identAt_bounds hzero).2
    rw [Nat.zero_add,Nat.one_mul] at hlt
    calc identAt 0 path*2^(31-path.length)<2^path.length*2^(31-path.length) :=
          Nat.mul_lt_mul_of_pos_right hlt (Nat.two_pow_pos _)
      _ = 2^31 := by rw [← Nat.pow_add]; congr 1; omega
  have htop : 2^path.length*2^(31-path.length)=2^31 := by
    rw [← Nat.pow_add]
    congr 1
    omega
  have hdouble : hashIdent*2%2^32 =
      branch.toNat*2^31+identAt 0 path*2^(31-path.length) := by
    have hpow : 2^(31-(path.length+1))*2=2^(31-path.length) := by
      rw [← Nat.pow_succ]
      congr 1
      omega
    calc hashIdent*2%2^32=hashIdent%2^31*2 := by omega
      _ = (branch.toNat*2^path.length+identAt 0 path)*2^(31-path.length) := by
        rw [h,hdeep,Nat.mul_assoc,hpow]
      _ = branch.toNat*2^31+identAt 0 path*2^(31-path.length) := by
        rw [Nat.add_mul,Nat.mul_assoc,htop]
  rw [hdouble]
  cases branch with
  | true =>
    rw [Bool.toNat_true,Nat.one_mul,Nat.add_mod_left]
    exact ⟨iff_of_true (Nat.le_add_right _ _) rfl,Nat.mod_eq_of_lt hlow⟩
  | false =>
    rw [Bool.toNat_false,Nat.zero_mul,Nat.zero_add]
    exact ⟨iff_of_false (Nat.not_le.mpr hlow) (by simp),Nat.mod_eq_of_lt hlow⟩

theorem setHashAt_install (ht : Shaped size isLeft t) (hnull : t.isNull=false)
    (hreach : Reaches size isLeft path) (hlen : path.length≤31) {hashIdent : Nat}
    (hident : hashIdent%2^31=identAt 0 path*2^(31-path.length)) {allowOverwrite : Bool}
    (how : path≠[] ∨ allowOverwrite=true) (h : AICHHash) (rest : List UInt8) :
    setHashAt path.length hashIdent allowOverwrite t (h.bytes++rest) =
      .ok ((true, install h path t), rest) := by
  induction path generalizing size isLeft t hashIdent allowOverwrite with
  | nil =>
    cases t with
    | null => cases hnull
    | node n l r =>
      have hover : allowOverwrite=true := how.resolve_left (fun hne => hne rfl)
      rw [List.length_nil,setHashAt,hover,if_neg (by simp),
        Reader.bind_ok (Digest.read_append h rest)]
      rfl
  | cons branch path ih =>
    cases t with
    | null => cases hnull
    | node n l r =>
      obtain ⟨hn,hl,hr⟩ := ht
      obtain ⟨hsplit,hreach⟩ := hreach
      rw [List.length_cons] at hlen hident
      obtain ⟨hbranch,hnext⟩ := branch_bits (by omega) hident
      have hbase : ¬n.dataSize≤n.getBaseSize := by
        rw [hn.dataSize,hn.getBaseSize]
        omega
      cases branch with
      | true =>
        have hset := ih (orNew_shaped hl) (by simp) hreach (by omega) hnext
          (Or.inr (rfl : true=true))
        simp only [List.length_cons,setHashAt,if_neg hbase,if_pos (hbranch.mpr rfl),hn.nLeft,
          Reader.bind_ok hset,Reader.pure_apply,install]
      | false =>
        have hright : ¬2^31≤hashIdent*2%2^32 := fun hle => by cases hbranch.mp hle
        have hset := ih (orNew_shaped hr) (by simp) hreach (by omega) hnext
          (Or.inr (rfl : true=true))
        simp only [List.length_cons,setHashAt,if_neg hbase,if_neg hright,hn.nRight,
          Reader.bind_ok hset,Reader.pure_apply,install]

theorem setHash_install (ht : Shaped size isLeft t) (hnull : t.isNull=false)
    (hreach : Reaches size isLeft path) (hlen : path.length≤30) (hne : path≠[]) (h : AICHHash)
    (rest : List UInt8) :
    setHash (identAt 1 path) false t (h.bytes++rest) = .ok ((true, install h path t), rest) := by
  have hpow : 2^path.length≤2^30 := Nat.pow_le_pow_right (by omega) hlen
  have hbound : (1+1)*2^path.length≤2^32 := by omega
  obtain ⟨hlow,hhigh⟩ := identAt_bounds hbound
  rw [Nat.one_mul] at hlow
  rw [Nat.mul_comm,← Nat.pow_succ] at hhigh
  have hadd := identAt_add hbound
  rw [Nat.one_mul] at hadd
  have hident : identAt 1 path*2^(31-path.length)%2^31 =
      identAt 0 path*2^(31-path.length) := by
    have hlt := (@identAt_bounds path 0 (by omega)).2
    rw [Nat.zero_add,Nat.one_mul] at hlt
    have htop : 2^path.length*2^(31-path.length)=2^31 := by
      rw [← Nat.pow_add]
      congr 1
      omega
    rw [hadd,Nat.add_mul,htop,Nat.add_mod_left]
    refine Nat.mod_eq_of_lt ?_
    rw [← htop]
    exact Nat.mul_lt_mul_of_pos_right hlt (Nat.two_pow_pos _)
  rw [setHash,leadingLevel_eq hlow hhigh (by omega)]
  exact setHashAt_install ht hnull hreach (by omega) hident (Or.inl hne) h rest

theorem findHash_eq {start len : Nat} (hpath : RangeAt size isLeft start len path)
    (ht : Shaped size isLeft t) (hnull : t.isNull=false) {levels : Nat}
    (hlevels : path.length<levels) :
    findHash levels start len t =
      ⟨makePath path t,some path,22-(levels-path.length-1)⟩ := by
  induction hpath generalizing t levels with
  | here =>
    cases t with
    | null => cases hnull
    | node n l r =>
      obtain ⟨k,rfl⟩ := Nat.exists_eq_add_of_lt hlevels
      rw [List.length_nil,Nat.zero_add,findHash,ht.1.dataSize,if_neg (by omega),
        if_pos ⟨rfl,rfl⟩]
      rfl
  | @left size start len isLeft path hsplit hend hlen hpath ih =>
    cases t with
    | null => cases hnull
    | node n l r =>
      obtain ⟨hn,hl,-⟩ := ht
      have hlt := leftShare_lt hsplit isLeft
      rw [List.length_cons] at hlevels
      cases levels with
      | zero => omega
      | succ k =>
        rw [findHash,hn.dataSize,hn.getBaseSize,hn.nLeft,if_neg (by omega),if_neg (by omega),
          if_neg (by omega),if_pos (by omega),if_neg (by omega),
          ih (orNew_shaped hl) (by simp) (by omega)]
        simp only [makePath,hn.nLeft,Option.map_some,List.length_cons,FindHash.mk.injEq,
          true_and]
        omega
  | @right size start len isLeft path hsplit hstart hlen hpath ih =>
    cases t with
    | null => cases hnull
    | node n l r =>
      obtain ⟨hn,-,hr⟩ := ht
      have hpos := leftShare_pos hsplit isLeft
      have hlt := leftShare_lt hsplit isLeft
      have hend := hpath.end_le
      have hshare : rightShare size isLeft=size-leftShare size isLeft := rfl
      rw [List.length_cons] at hlevels
      cases levels with
      | zero => omega
      | succ k =>
        rw [findHash,hn.dataSize,hn.getBaseSize,hn.nLeft,hn.nRight,if_neg (by omega),
          if_neg (by omega),if_neg (by omega),if_neg (by omega),if_neg (by omega),
          ih (orNew_shaped hr) (by simp) (by omega)]
        simp only [makePath,hn.nRight,Option.map_some,List.length_cons,FindHash.mk.injEq,
          true_and]
        omega

theorem makePath_complete (hreach : Reaches size isLeft path)
    (h : Complete hashPair size isLeft t) :
    makePath path t=t := by
  induction path generalizing size isLeft t with
  | nil => cases t <;> rfl
  | cons branch path ih =>
    obtain ⟨hsplit,hreach⟩ := hreach
    obtain ⟨n,-,-,⟨hle,-⟩ | ⟨-,l,r,rfl,-,hl,hr⟩⟩ := complete_cases h
    · omega
    cases branch with
    | true =>
      rw [makePath,orNew_of_notNull (complete_valid hl).1]
      exact congrArg (node n · r) (ih hreach hl)
    | false =>
      rw [makePath,orNew_of_notNull (complete_valid hr).1]
      exact congrArg (node n l ·) (ih hreach hr)

theorem nodeAt_complete (hreach : Reaches size isLeft path) (h : Complete hashPair size isLeft t) :
    ∃ n, nodeAt path t=some n ∧ n.hashValid=true := by
  induction path generalizing size isLeft t with
  | nil =>
    obtain ⟨n,-,hv,⟨-,rfl⟩ | ⟨-,l,r,rfl,-⟩⟩ := complete_cases h <;>
      exact ⟨n,rfl,hv⟩
  | cons branch path ih =>
    obtain ⟨hsplit,hreach⟩ := hreach
    obtain ⟨n,-,-,⟨hle,-⟩ | ⟨-,l,r,rfl,-,hl,hr⟩⟩ := complete_cases h
    · omega
    cases branch with
    | true => exact ih hreach hl
    | false => exact ih hreach hr

/-- A block below the end of the branches is looked up in what is left of the tree. -/
theorem findExistingHash_prunedTo {start len : Nat} (hpath : RangeAt size isLeft start len path)
    {pre : List Bool} (hpre : pre <+: path) (h : Complete hashPair size isLeft t) {levels : Nat}
    (hlevels : path.length<levels) :
    findExistingHash levels start len (prunedTo pre t)=nodeAt path t := by
  induction hpath generalizing t levels pre with
  | here =>
    obtain rfl := List.prefix_nil.mp hpre
    obtain ⟨n,hn,hv,ht⟩ := complete_cases h
    obtain ⟨k,rfl⟩ := Nat.exists_eq_add_of_lt hlevels
    rw [prunedTo_nil]
    rcases ht with ⟨-,rfl⟩ | ⟨-,l,r,rfl,-⟩ <;>
      rw [findExistingHash,hn.dataSize,if_neg (by omega),if_pos ⟨rfl,rfl⟩,if_pos hv,nodeAt]
  | @left size start len isLeft path hsplit hend hlen hpath ih =>
    obtain ⟨n,hn,-,⟨hle,-⟩ | ⟨-,l,r,rfl,-,hl,hr⟩⟩ := complete_cases h
    · omega
    have hlt := leftShare_lt hsplit isLeft
    rw [List.length_cons] at hlevels
    obtain ⟨k,rfl⟩ : ∃ k, levels=k+1 := ⟨levels-1,by omega⟩
    obtain ⟨sub,r',hsub,hpruned⟩ : ∃ sub r', sub <+: path ∧
        prunedTo pre (node n l r)=node n (prunedTo sub l) r' := by
      cases pre with
      | nil => exact ⟨[],r,List.nil_prefix,by rw [prunedTo_nil,prunedTo_nil]⟩
      | cons b sub =>
        obtain ⟨rfl,hsub⟩ := List.cons_prefix_cons.mp hpre
        exact ⟨sub,hashOnly r,hsub,rfl⟩
    have hvalid : (prunedTo sub l).hashValid=true :=
      (prunedTo_root sub l).2.1.trans (complete_valid hl).2
    rw [hpruned,findExistingHash,hn.dataSize,hn.getBaseSize,hn.nLeft,if_neg (by omega),
      if_neg (by omega),if_neg (by omega),if_pos (by omega),if_neg (by omega),hvalid,
      if_neg (by simp),ih hsub hl (by omega),nodeAt]
  | @right size start len isLeft path hsplit hstart hlen hpath ih =>
    obtain ⟨n,hn,-,⟨hle,-⟩ | ⟨-,l,r,rfl,-,hl,hr⟩⟩ := complete_cases h
    · omega
    have hpos := leftShare_pos hsplit isLeft
    have hlt := leftShare_lt hsplit isLeft
    have hend := hpath.end_le
    have hshare : rightShare size isLeft=size-leftShare size isLeft := rfl
    rw [List.length_cons] at hlevels
    obtain ⟨k,rfl⟩ : ∃ k, levels=k+1 := ⟨levels-1,by omega⟩
    obtain ⟨sub,l',hsub,hpruned⟩ : ∃ sub l', sub <+: path ∧
        prunedTo pre (node n l r)=node n l' (prunedTo sub r) := by
      cases pre with
      | nil => exact ⟨[],l,List.nil_prefix,by rw [prunedTo_nil,prunedTo_nil]⟩
      | cons b sub =>
        obtain ⟨rfl,hsub⟩ := List.cons_prefix_cons.mp hpre
        exact ⟨sub,hashOnly l,hsub,rfl⟩
    have hvalid : (prunedTo sub r).hashValid=true :=
      (prunedTo_root sub r).2.1.trans (complete_valid hr).2
    rw [hpruned,findExistingHash,hn.dataSize,hn.getBaseSize,hn.nLeft,hn.nRight,
      if_neg (by omega),if_neg (by omega),if_neg (by omega),if_neg (by omega),
      if_neg (by omega),hvalid,if_neg (by simp),ih hsub hr (by omega),nodeAt]

end AICHHashTree

namespace AICHRecoveryHashSet

open AICHHashTree

theorem readHashes_encodePairs {use32Bit : Bool} {refuse : Nat → Bool} {size : Nat}
    {isLeft : Bool} (pairs : List (List Bool × AICHHash)) {t : AICHHashTree}
    (ht : Shaped size isLeft t) (hnull : t.isNull=false)
    (hpairs : ∀ p∈pairs,p.1≠[] ∧ Reaches size isLeft p.1 ∧ p.1.length≤30 ∧
      identAt 1 p.1<256^identSize use32Bit ∧ refuse (identAt 1 p.1)=false)
    (rest : List UInt8) :
    readHashes (identSize use32Bit) refuse pairs.length t (encodePairs use32Bit 1 pairs++rest) =
      (installAll pairs t, .done rest) := by
  induction pairs generalizing t with
  | nil => rfl
  | cons p pairs ih =>
    obtain ⟨hne,hreach,hlen,hfits,hkeep⟩ := hpairs p List.mem_cons_self
    have hset := setHash_install ht hnull hreach hlen hne p.2
    have hread : Reader.readUInt (identSize use32Bit)
        (encodePairs use32Bit 1 (p::pairs)++rest) =
          .ok (identAt 1 p.1, p.2.bytes++(encodePairs use32Bit 1 pairs++rest)) := by
      have h := Reader.readUInt_leBytes hfits (p.2.bytes++(encodePairs use32Bit 1 pairs++rest))
      cases use32Bit <;>
        simpa [encodePairs,encodePair,writeIdent,writeUInt16,writeUInt32,identSize] using h
    have hnext := ih (install_shaped p.2 p.1 ht) ((install_isNull p.2 p.1 t).trans hnull)
      (fun q hq => hpairs q (List.mem_cons_of_mem p hq))
    simp only [List.length_cons,readHashes,hread,hkeep,hset,hnext]
    rfl

end AICHRecoveryHashSet

end EmuleQt.Crypto
