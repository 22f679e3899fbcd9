import EmuleQt.Framework.Run
import EmuleQt.Utils.QDataStream
import EmuleQt.Framework.SpillSet
import Mathlib.Data.Finset.Sort
import Mathlib.Data.List.GetD
import Mathlib.Data.List.TakeWhile
import Mathlib.Data.FinEnum
import Mathlib.Data.UInt
import Mathlib.Order.Lattice.Nat

namespace EmuleQt.Stats

open Framework Utils

def kPrecision : Nat := 12
def kRegisters : Nat := 2 ^ kPrecision
def kSparseLimit : Nat := 256
def kRankBits : Nat := 64 - kPrecision
def kMaxRank : Nat := kRankBits + 1

/-- The hashes themselves, sorted, or a rank for each register. -/
structure CardinalitySketch where
  sparse : List UInt64
  dense : List UInt8
  deriving DecidableEq

/-- `std::countl_zero` -/
def countlZero (x : UInt64) : Nat := if x=0 then 64 else 63-x.toNat.log2

/-- The register of a hash. -/
def registerOf (hash : UInt64) : Nat := (hash >>> UInt64.ofNat kRankBits).toNat

/-- The rank of the first set bit in the remaining bits; all zero saturates. -/
def rankOf (hash : UInt64) : Nat :=
  let rest := hash <<< UInt64.ofNat kPrecision
  if rest=0 then kMaxRank else countlZero rest+1

namespace CardinalitySketch

def empty : CardinalitySketch := ⟨[], []⟩

def addDense (dense : List UInt8) (hash : UInt64) : List UInt8 :=
  dense.modify (registerOf hash) fun r => max r (UInt8.ofNat (rankOf hash))

def densify (s : CardinalitySketch) : CardinalitySketch :=
  ⟨[], s.sparse.foldl addDense (List.replicate kRegisters 0)⟩

def add (s : CardinalitySketch) (hash : UInt64) : CardinalitySketch :=
  if s.dense ≠ [] then { s with dense := addDense s.dense hash }
  else
    -- `std::lower_bound`
    let it := s.sparse.dropWhile fun h => decide (h < hash)
    if it.head? = some hash then s
    else
      let s : CardinalitySketch :=
        { s with sparse := (s.sparse.takeWhile fun h => decide (h < hash)) ++ hash :: it }
      if kSparseLimit < s.sparse.length then s.densify else s

def merge (s other : CardinalitySketch) : CardinalitySketch :=
  if other.dense = [] then other.sparse.foldl add s
  else
    let s := if s.dense = [] then s.densify else s
    { s with dense := List.zipWith max s.dense other.dense }

/-- The bytes that go out; the number of hashes is cut to 16 bits. -/
def write (s : CardinalitySketch) : List UInt8 :=
  if s.dense = [] then
    bigEndian 1 0 ++ bigEndian 2 (s.sparse.length % 2 ^ 16) ++
      (s.sparse.map UInt64.toNat).flatMap (bigEndian 8)
  else bigEndian 1 1 ++ s.dense

/-- False on a malformed sketch; the object is then empty. -/
def read (s : QDataStream) : (Bool × CardinalitySketch) × QDataStream :=
  let (mode, s) := s.readUInt 1
  if mode = 0 then
    let (count, s) := s.readUInt 2
    if s.ok = false ∨ kSparseLimit < count then ((false, empty), s)
    else
      let (hashes, s) := s.readUInts 8 count
      let sparse := hashes.map UInt64.ofNat
      -- `std::adjacent_find` with `greater_equal`
      if s.ok = false ∨ ¬ List.IsChain (· < ·) sparse then ((false, empty), s)
      else ((true, ⟨sparse, []⟩), s)
  else if mode ≠ 1 then ((false, empty), s)
  else
    let (dense, s) := s.readRawData kRegisters
    if dense.length = kRegisters ∧ ∀ r ∈ dense, r.toNat ≤ kMaxRank then ((true, ⟨[], dense⟩), s)
    else ((false, empty), s)

/-- A sketch is either a short sorted list of hashes or a full array of possible ranks. -/
inductive Ok : CardinalitySketch → Prop
  | sparse {hashes : List UInt64} (sorted : hashes.Pairwise (· < ·))
      (short : hashes.length ≤ kSparseLimit) : Ok ⟨hashes, []⟩
  | dense {ranks : List UInt8} (size : ranks.length = kRegisters)
      (bounded : ∀ r ∈ ranks, r.toNat ≤ kMaxRank) : Ok ⟨[], ranks⟩

/-- The registers, also of a sketch that is still a list. -/
def registers (s : CardinalitySketch) : List UInt8 :=
  if s.dense = [] then s.densify.dense else s.dense

/-- What a hash says of each register. -/
def mark (hash : UInt64) (i : Nat) : Nat := if registerOf hash = i then rankOf hash else 0

/-- The highest rank of the hashes of each register. -/
def registersOf (hashes : Finset UInt64) : List UInt8 :=
  (List.range kRegisters).map fun i => UInt8.ofNat (hashes.sup mark i)

/-- The sketch of a set of hashes. -/
def ofSet (hashes : Finset UInt64) : CardinalitySketch :=
  if hashes.card≤kSparseLimit then ⟨hashes.sort (· ≤ ·),[]⟩ else ⟨[],registersOf hashes⟩

/-- The calls on a number of sketches. -/
inductive SketchCall (ι : Type)
  | add (i : ι) (hash : UInt64)
  | merge (i other : ι)

variable {ι : Type} [DecidableEq ι]

def step (sketches : ι → CardinalitySketch) : SketchCall ι → ι → CardinalitySketch
  | .add i hash => Function.update sketches i ((sketches i).add hash)
  | .merge i other => Function.update sketches i ((sketches i).merge (sketches other))

/-- The hashes that enter the sketches. -/
def enter (sets : ι → Finset UInt64) : SketchCall ι → ι → Finset UInt64
  | .add i hash => Function.update sets i (insert hash (sets i))
  | .merge i other => Function.update sets i (sets i ∪ sets other)

end CardinalitySketch

open Framework Utils

theorem registerOf_lt (hash : UInt64) : registerOf hash<kRegisters := by
  have hlt := hash.toNat_lt
  have hshift : registerOf hash=hash.toNat/2^52 := by
    unfold registerOf
    rw [UInt64.toNat_shiftRight,Nat.shiftRight_eq_div_pow]
    rfl
  rw [hshift,kRegisters,kPrecision]
  omega

theorem rankOf_le (hash : UInt64) : rankOf hash≤kMaxRank := by
  unfold rankOf
  dsimp only
  split_ifs with hrest
  · exact le_refl _
  · have hvalue : (hash <<< UInt64.ofNat kPrecision).toNat=hash.toNat*2^12%2^64 := by
      rw [UInt64.toNat_shiftLeft,Nat.shiftLeft_eq]
      rfl
    have hne : (hash <<< UInt64.ofNat kPrecision).toNat≠0 := fun h =>
      hrest (UInt64.toNat_inj.mp h)
    -- twelve zero bits stand at the end
    have hlog : 12≤(hash <<< UInt64.ofNat kPrecision).toNat.log2 := by
      apply (Nat.le_log2 hne).mpr
      omega
    unfold countlZero
    rw [if_neg hrest,kMaxRank,kRankBits,kPrecision]
    unfold kPrecision at hlog
    omega

namespace CardinalitySketch

/-- The register array as a function. -/
def ranks (dense : List UInt8) (i : Nat) : Nat := (dense.getD i 0).toNat

/-- What a sketch stands for. -/
def view (s : CardinalitySketch) : SpillSet UInt64 (Nat → Nat) :=
  if s.dense = [] then .exact s.sparse.toFinset else .spilled (ranks s.dense)

/-- A full array of possible ranks. -/
structure Full (dense : List UInt8) : Prop where
  size : dense.length = kRegisters
  bounded : ∀ r ∈ dense, r.toNat ≤ kMaxRank

variable {dense other : List UInt8} {hash : UInt64} {hashes : List UInt64}
  {s a b : CardinalitySketch}

theorem Full.ne_nil (h : Full dense) : dense≠[] := by
  rintro rfl
  exact absurd h.size (by decide)

theorem full_zero : Full (List.replicate kRegisters 0) := by
  refine ⟨List.length_replicate,?_⟩
  intro r hr
  rw [List.eq_of_mem_replicate hr]
  exact Nat.zero_le _

theorem ranks_of_lt {i : Nat} (hi : i<dense.length) : ranks dense i=dense[i].toNat := by
  unfold ranks
  rw [List.getD_eq_getElem _ _ hi]

theorem ranks_of_le {i : Nat} (hi : dense.length ≤ i) : ranks dense i=0 := by
  unfold ranks
  rw [List.getD_eq_default _ _ hi]
  rfl

theorem ranks_zero : ranks (List.replicate kRegisters 0) = ⊥ := by
  funext i
  rcases Nat.lt_or_ge i kRegisters with hi | hi
  · rw [ranks_of_lt (by rwa [List.length_replicate]),List.getElem_replicate]
    rfl
  · exact ranks_of_le (by rwa [List.length_replicate])

theorem toNat_max (x y : UInt8) : (max x y).toNat=max x.toNat y.toNat := by
  change (if x≤y then y else x).toNat=_
  split_ifs with h
  · exact (max_eq_right (UInt8.le_iff_toNat_le.mp h)).symm
  · exact (max_eq_left (UInt8.le_iff_toNat_le.mp ((UInt8.le_total x y).resolve_left h))).symm

theorem toNat_rank (hash : UInt64) : (UInt8.ofNat (rankOf hash)).toNat=rankOf hash := by
  have hle := rankOf_le hash
  unfold kMaxRank kRankBits kPrecision at hle
  rw [UInt8.toNat_ofNat']
  omega

theorem addDense_full (h : Full dense) (hash : UInt64) : Full (addDense dense hash) := by
  unfold addDense
  refine ⟨by rw [List.length_modify,h.size],?_⟩
  intro r hr
  obtain ⟨i,hi,rfl⟩ := List.getElem_of_mem hr
  rw [List.length_modify] at hi
  rw [List.getElem_modify]
  have hold := h.bounded _ (List.getElem_mem hi)
  split_ifs
  · rw [toNat_max,toNat_rank]
    exact max_le hold (rankOf_le hash)
  · exact hold

theorem ranks_addDense (h : Full dense) (hash : UInt64) :
    ranks (addDense dense hash)=ranks dense ⊔ mark hash := by
  have hreg := registerOf_lt hash
  funext i
  change _ = max (ranks dense i) (mark hash i)
  unfold mark
  rcases Nat.lt_or_ge i dense.length with hi | hi
  · rw [ranks_of_lt (by unfold addDense; rwa [List.length_modify]),ranks_of_lt hi]
    unfold addDense
    rw [List.getElem_modify]
    split_ifs
    · rw [toNat_max,toNat_rank]
    · exact (Nat.max_zero _).symm
  · rw [ranks_of_le (by unfold addDense; rwa [List.length_modify]),ranks_of_le hi]
    have hne : registerOf hash≠i := by
      rw [h.size] at hi
      omega
    rw [if_neg hne]
    rfl

theorem foldl_addDense (h : Full dense) (hashes : List UInt64) :
    Full (hashes.foldl addDense dense) ∧
      ranks (hashes.foldl addDense dense)=ranks dense ⊔ hashes.toFinset.sup mark := by
  induction hashes generalizing dense with
  | nil =>
    refine ⟨h,?_⟩
    rw [List.foldl_nil,List.toFinset_nil,Finset.sup_empty,sup_bot_eq]
  | cons hash hashes ih =>
    obtain ⟨hfull,hranks⟩ := ih (addDense_full h hash)
    refine ⟨hfull,?_⟩
    rw [List.foldl_cons,hranks,ranks_addDense h,List.toFinset_cons,Finset.sup_insert,
      sup_assoc]

theorem densify_spec (s : CardinalitySketch) :
    Full s.densify.dense ∧ ranks s.densify.dense=s.sparse.toFinset.sup mark := by
  obtain ⟨hfull,hranks⟩ := foldl_addDense full_zero s.sparse
  refine ⟨hfull,?_⟩
  unfold densify
  rw [hranks,ranks_zero,bot_sup_eq]

theorem zipWith_max_full (h : Full dense) (h' : Full other) :
    Full (List.zipWith max dense other) := by
  refine ⟨by rw [List.length_zipWith,h.size,h'.size,min_self],?_⟩
  intro r hr
  obtain ⟨i,hi,rfl⟩ := List.getElem_of_mem hr
  rw [List.getElem_zipWith,toNat_max]
  exact max_le (h.bounded _ (List.getElem_mem _)) (h'.bounded _ (List.getElem_mem _))

theorem ranks_zipWith_max (h : Full dense) (h' : Full other) :
    ranks (List.zipWith max dense other)=ranks dense ⊔ ranks other := by
  have hlength : (List.zipWith max dense other).length=kRegisters := (zipWith_max_full h h').size
  funext i
  change _ = max (ranks dense i) (ranks other i)
  rcases Nat.lt_or_ge i kRegisters with hi | hi
  · rw [ranks_of_lt (hi.trans_eq hlength.symm),ranks_of_lt (hi.trans_eq h.size.symm),
      ranks_of_lt (hi.trans_eq h'.size.symm),List.getElem_zipWith,toNat_max]
  · rw [ranks_of_le (hlength.trans_le hi),ranks_of_le (h.size.trans_le hi),
      ranks_of_le (h'.size.trans_le hi)]
    rfl

theorem ranks_injective (h : Full dense) (h' : Full other) (heq : ranks dense=ranks other) :
    dense=other := by
  apply List.ext_getElem (h.size.trans h'.size.symm)
  intro i hi hi'
  have hrank := congrFun heq i
  rw [ranks_of_lt hi,ranks_of_lt hi'] at hrank
  exact UInt8.toNat_inj.mp hrank

theorem ok_dense (h : Full dense) : Ok ⟨[],dense⟩ := .dense h.size h.bounded

theorem view_dense (h : dense≠[]) (sparse : List UInt64) :
    view ⟨sparse,dense⟩ = .spilled (ranks dense) := if_neg h

theorem view_sparse (hashes : List UInt64) : view ⟨hashes,[]⟩ = .exact hashes.toFinset :=
  if_pos rfl

theorem nodup_of_sorted (h : hashes.Pairwise (· < ·)) : hashes.Nodup := by
  apply h.imp
  rintro x y hlt rfl
  exact UInt64.lt_irrefl x hlt

theorem card_of_sorted (h : hashes.Pairwise (· < ·)) : hashes.toFinset.card=hashes.length :=
  List.toFinset_card_of_nodup (nodup_of_sorted h)

theorem eq_of_sorted {hashes' : List UInt64} (h : hashes.Pairwise (· < ·))
    (h' : hashes'.Pairwise (· < ·)) (heq : hashes.toFinset=hashes'.toFinset) :
    hashes=hashes' := by
  have hperm : hashes.Perm hashes' := by
    apply (List.perm_ext_iff_of_nodup (nodup_of_sorted h) (nodup_of_sorted h')).mpr
    intro hash
    rw [← List.mem_toFinset,heq,List.mem_toFinset]
  exact hperm.eq_of_pairwise (fun x y _ _ hxy hyx => absurd hyx (UInt64.lt_asymm hxy)) h h'

theorem Ok.within (h : Ok s) : (view s).Within kSparseLimit := by
  cases h with
  | sparse sorted short =>
    exact (card_of_sorted sorted).trans_le short
  | dense size bounded =>
    rw [view_dense (Full.ne_nil ⟨size,bounded⟩)]
    trivial

theorem view_injective (ha : Ok a) (hb : Ok b) (heq : view a=view b) : a=b := by
  cases ha with
  | sparse sorted short =>
    cases hb with
    | sparse sorted' short' =>
      rw [eq_of_sorted sorted sorted' (SpillSet.exact.inj heq)]
    | dense size bounded =>
      rw [view_dense (Full.ne_nil ⟨size,bounded⟩)] at heq
      cases heq
  | dense size bounded =>
    have hfull : Full _ := ⟨size,bounded⟩
    rw [view_dense hfull.ne_nil] at heq
    cases hb with
    | sparse sorted short =>
      cases heq
    | dense size' bounded' =>
      have hfull' : Full _ := ⟨size',bounded'⟩
      rw [view_dense hfull'.ne_nil] at heq
      congr 1
      exact ranks_injective hfull hfull' (SpillSet.spilled.inj heq)

theorem insert_sorted (h : hashes.Pairwise (· < ·))
    (hnew : (hashes.dropWhile fun x => decide (x<hash)).head? ≠ some hash) :
    ((hashes.takeWhile fun x => decide (x<hash)) ++
      hash::hashes.dropWhile fun x => decide (x<hash)).Pairwise (· < ·) := by
  have hbefore : ∀ x∈hashes.takeWhile (fun x => decide (x<hash)), x<hash := by
    intro x hx
    have hlt := List.mem_takeWhile_imp hx
    exact of_decide_eq_true hlt
  have hbehind : ∀ x∈hashes.dropWhile (fun x => decide (x<hash)), hash<x := by
    have hsorted := h.sublist (List.dropWhile_sublist fun x => decide (x<hash))
    have hhead := List.head?_dropWhile_not (fun x => decide (x<hash)) hashes
    cases hrest : hashes.dropWhile (fun x => decide (x<hash)) with
    | nil => simp
    | cons y ys =>
      rw [hrest] at hsorted hhead hnew
      have hy : hash<y := by
        have hnot : ¬ y<hash := by simpa using hhead
        have hne : y≠hash := fun heq => hnew (congrArg some heq)
        rw [UInt64.lt_iff_toNat_lt] at hnot ⊢
        have hne' : y.toNat≠hash.toNat := fun heq => hne (UInt64.toNat_inj.mp heq)
        omega
      exact List.forall_mem_cons.mpr
        ⟨hy,fun x hx => UInt64.lt_trans hy ((List.pairwise_cons.mp hsorted).1 x hx)⟩
  have hmiddle : ∀ x∈hashes.takeWhile (fun x => decide (x<hash)),
      ∀ y∈hashes.dropWhile (fun x => decide (x<hash)), x<y := fun x hx y hy =>
    UInt64.lt_trans (hbefore x hx) (hbehind y hy)
  refine List.pairwise_append.mpr ⟨h.sublist (List.takeWhile_sublist _),?_,?_⟩
  · exact List.pairwise_cons.mpr ⟨hbehind,h.sublist (List.dropWhile_sublist _)⟩
  · intro x hx
    exact List.forall_mem_cons.mpr ⟨hbefore x hx,hmiddle x hx⟩

theorem toFinset_insert (hash : UInt64) (hashes : List UInt64) :
    ((hashes.takeWhile fun x => decide (x<hash)) ++
      hash::hashes.dropWhile fun x => decide (x<hash)).toFinset=hashes.toFinset ∪ {hash} := by
  have hsplit := List.takeWhile_append_dropWhile (p := fun x => decide (x<hash)) (l := hashes)
  ext x
  rw [Finset.mem_union,Finset.mem_singleton,List.mem_toFinset,List.mem_toFinset]
  conv_rhs => rw [← hsplit]
  simp only [List.mem_append,List.mem_cons]
  tauto

theorem add_spec (h : Ok s) (hash : UInt64) :
    Ok (s.add hash) ∧ view (s.add hash)=(view s).join mark kSparseLimit (.exact {hash}) := by
  cases h with
  | sparse sorted short =>
    rename_i hashes
    unfold add
    rw [if_neg (not_not.mpr rfl)]
    dsimp only
    change _ ∧ _ = SpillSet.keep mark kSparseLimit (hashes.toFinset ∪ {hash})
    split_ifs with hfound hlong
    · have hmem : hash∈hashes :=
        (List.dropWhile_sublist _).subset (List.mem_of_mem_head? (Option.mem_def.mpr hfound))
      rw [Finset.union_eq_left.mpr (by simpa using hmem)]
      refine ⟨.sparse sorted short,?_⟩
      exact (Ok.within (.sparse sorted short)).keep_eq.symm
    · have hsorted := insert_sorted sorted hfound
      obtain ⟨hfull,hranks⟩ := densify_spec ⟨(hashes.takeWhile fun x => decide (x<hash)) ++
        hash::hashes.dropWhile fun x => decide (x<hash),[]⟩
      refine ⟨ok_dense hfull,?_⟩
      rw [← toFinset_insert,SpillSet.keep_of_lt (by rwa [card_of_sorted hsorted]),← hranks]
      exact view_dense hfull.ne_nil []
    · have hsorted := insert_sorted sorted hfound
      refine ⟨.sparse hsorted (not_lt.mp hlong),?_⟩
      rw [view_sparse,← toFinset_insert,
        SpillSet.keep_of_le ((card_of_sorted hsorted).trans_le (not_lt.mp hlong))]
  | dense size bounded =>
    have hfull : Full _ := ⟨size,bounded⟩
    have hadded := addDense_full hfull hash
    unfold add
    rw [if_pos hfull.ne_nil]
    refine ⟨ok_dense hadded,?_⟩
    rw [view_dense hadded.ne_nil,view_dense hfull.ne_nil,ranks_addDense hfull,
      SpillSet.spilled_join]
    exact congrArg (fun r => SpillSet.spilled (_ ⊔ r)) (Finset.sup_singleton).symm

theorem foldl_add_spec (h : Ok s) (hashes : List UInt64) :
    Ok (hashes.foldl add s) ∧ view (hashes.foldl add s) =
      (view s).join mark kSparseLimit (.keep mark kSparseLimit hashes.toFinset) := by
  rw [← SpillSet.foldl_join h.within]
  induction hashes generalizing s with
  | nil => exact ⟨h,rfl⟩
  | cons hash hashes ih =>
    obtain ⟨hok,hview⟩ := add_spec h hash
    obtain ⟨hok',hview'⟩ := ih hok
    refine ⟨hok',?_⟩
    rw [List.foldl_cons,hview',hview,List.foldl_cons]

theorem summary_view (s : CardinalitySketch) :
    (view s).summary mark=ranks (registers s) := by
  unfold view registers
  split_ifs
  · exact (densify_spec s).2.symm
  · rfl

theorem Ok.registers_full (h : Ok s) : Full (registers s) := by
  unfold registers
  split_ifs with hsparse
  · exact (densify_spec s).1
  · cases h with
    | sparse sorted short => exact absurd rfl hsparse
    | dense size bounded => exact ⟨size,bounded⟩

theorem merge_spec (ha : Ok a) (hb : Ok b) :
    Ok (a.merge b) ∧ view (a.merge b)=(view a).join mark kSparseLimit (view b) := by
  unfold merge
  cases hb with
  | sparse sorted short =>
    obtain ⟨hok,hview⟩ := foldl_add_spec ha _
    exact ⟨hok,hview.trans (congrArg _ (Ok.within (.sparse sorted short)).keep_eq)⟩
  | dense size bounded =>
    rename_i other
    have hother : Full other := ⟨size,bounded⟩
    have hdense : (if a.dense=[] then a.densify else a)=⟨[],registers a⟩ := by
      unfold registers
      cases ha with
      | sparse sorted short =>
        rfl
      | dense size bounded =>
        rw [if_neg (Full.ne_nil ⟨size,bounded⟩),if_neg (Full.ne_nil ⟨size,bounded⟩)]
    have hfull := zipWith_max_full ha.registers_full hother
    rw [if_neg hother.ne_nil,hdense]
    refine ⟨ok_dense hfull,?_⟩
    rw [view_dense hfull.ne_nil,view_dense hother.ne_nil,ranks_zipWith_max ha.registers_full hother,
      SpillSet.join_spilled,summary_view]

end CardinalitySketch

open Framework Utils

namespace CardinalitySketch

variable {s a b c : CardinalitySketch} {hashes : List UInt64}

theorem ok_empty : Ok empty := .sparse List.Pairwise.nil (Nat.zero_le _)

theorem Ok.merge (ha : Ok a) (hb : Ok b) : Ok (a.merge b) := (merge_spec ha hb).1

theorem merge_comm (ha : Ok a) (hb : Ok b) : a.merge b=b.merge a := by
  apply view_injective (ha.merge hb) (hb.merge ha)
  rw [(merge_spec ha hb).2,(merge_spec hb ha).2,SpillSet.join_comm]

theorem merge_assoc (ha : Ok a) (hb : Ok b) (hc : Ok c) :
    (a.merge b).merge c=a.merge (b.merge c) := by
  apply view_injective ((ha.merge hb).merge hc) (ha.merge (hb.merge hc))
  rw [(merge_spec (ha.merge hb) hc).2,(merge_spec ha hb).2,(merge_spec ha (hb.merge hc)).2,
    (merge_spec hb hc).2,SpillSet.join_assoc]

theorem merge_self (ha : Ok a) : a.merge a=a := by
  apply view_injective (ha.merge ha) ha
  rw [(merge_spec ha ha).2,SpillSet.join_self ha.within]

theorem foldl_add_congr (ha : Ok a) {hashes' : List UInt64}
    (heq : hashes.toFinset=hashes'.toFinset) : hashes.foldl add a=hashes'.foldl add a := by
  obtain ⟨hok,hview⟩ := foldl_add_spec ha hashes
  obtain ⟨hok',hview'⟩ := foldl_add_spec ha hashes'
  apply view_injective hok hok'
  rw [hview,hview',heq]

theorem view_foldl_add_empty (hashes : List UInt64) :
    view (hashes.foldl add empty) = .keep mark kSparseLimit hashes.toFinset := by
  rw [(foldl_add_spec ok_empty hashes).2]
  change (SpillSet.exact ∅).join mark kSparseLimit _ = _
  rw [SpillSet.exact_join_keep,Finset.empty_union]

theorem merge_foldl_add (ha : Ok a) (hashes : List UInt64) :
    a.merge (hashes.foldl add empty)=hashes.foldl add a := by
  have hb := (foldl_add_spec ok_empty hashes).1
  obtain ⟨hok,hview⟩ := foldl_add_spec ha hashes
  apply view_injective (ha.merge hb) hok
  rw [(merge_spec ha hb).2,view_foldl_add_empty,hview]

theorem ranks_merge (ha : Ok a) (hb : Ok b) (i : Nat) :
    ranks (registers (a.merge b)) i=max (ranks (registers a) i) (ranks (registers b) i) := by
  have hsummary : ((view a).join mark kSparseLimit (view b)).summary mark=_ :=
    SpillSet.summary_join (view a) (view b)
  rw [← (merge_spec ha hb).2,summary_view,summary_view,summary_view] at hsummary
  exact congrFun hsummary i

theorem registers_merge (ha : Ok a) (hb : Ok b) :
    registers (a.merge b)=List.zipWith max (registers a) (registers b) := by
  have hfull := zipWith_max_full ha.registers_full hb.registers_full
  apply ranks_injective (ha.merge hb).registers_full hfull
  funext i
  rw [ranks_merge ha hb,ranks_zipWith_max ha.registers_full hb.registers_full]
  rfl

theorem dense_eq_nil {set : Finset UInt64} (h : view s = .exact set) : s.dense=[] := by
  by_contra hdense
  rw [view,if_neg hdense] at h
  cases h

theorem registers_eq_dense {r : Nat → Nat} (h : view s = .spilled r) : registers s=s.dense := by
  by_cases hdense : s.dense=[]
  · rw [view,if_pos hdense] at h
    cases h
  · exact if_neg hdense

theorem dense_merge (ha : Ok a) (hb : Ok b) : (a.merge b).dense =
    if a.dense=[] ∧ b.dense=[] ∧ (a.sparse++b.sparse).toFinset.card≤kSparseLimit then []
    else List.zipWith max (registers a) (registers b) := by
  have hview := (merge_spec ha hb).2
  rw [← registers_merge ha hb]
  cases ha with
  | sparse sorted short =>
    cases hb with
    | sparse sorted' short' =>
      rw [List.toFinset_append]
      split_ifs with hfew
      · exact dense_eq_nil (hview.trans (SpillSet.keep_of_le hfew.2.2))
      · have hmany := not_le.mp fun hle => hfew ⟨rfl,rfl,hle⟩
        exact (registers_eq_dense (hview.trans (SpillSet.keep_of_lt hmany))).symm
    | dense size bounded =>
      have hne := Full.ne_nil ⟨size,bounded⟩
      rw [view_dense hne,SpillSet.join_spilled] at hview
      rw [if_neg fun hnil => hne hnil.2.1,registers_eq_dense hview]
  | dense size bounded =>
    have hne := Full.ne_nil ⟨size,bounded⟩
    rw [view_dense hne,SpillSet.spilled_join] at hview
    rw [if_neg fun hnil => hne hnil.1,registers_eq_dense hview]

theorem sup_mark_le (hashes : Finset UInt64) (i : Nat) : hashes.sup mark i≤kMaxRank := by
  rw [Finset.sup_apply]
  apply Finset.sup_le
  intro hash _
  unfold mark
  split_ifs
  · exact rankOf_le hash
  · exact Nat.zero_le _

theorem sup_mark_of_le (hashes : Finset UInt64) {i : Nat} (hi : kRegisters ≤ i) :
    hashes.sup mark i=0 := by
  rw [Finset.sup_apply]
  apply Nat.eq_zero_of_le_zero
  apply Finset.sup_le
  intro hash _
  have hlt := registerOf_lt hash
  unfold mark
  rw [if_neg (by omega)]

theorem toNat_sup_mark (hashes : Finset UInt64) (i : Nat) :
    (UInt8.ofNat (hashes.sup mark i)).toNat=hashes.sup mark i := by
  have hle := sup_mark_le hashes i
  unfold kMaxRank kRankBits kPrecision at hle
  rw [UInt8.toNat_ofNat']
  omega

theorem registersOf_full (hashes : Finset UInt64) : Full (registersOf hashes) := by
  unfold registersOf
  refine ⟨by rw [List.length_map,List.length_range],?_⟩
  intro r hr
  obtain ⟨i,-,rfl⟩ := List.mem_map.mp hr
  rw [toNat_sup_mark]
  exact sup_mark_le hashes i

theorem ranks_registersOf (hashes : Finset UInt64) :
    ranks (registersOf hashes)=hashes.sup mark := by
  have hsize := (registersOf_full hashes).size
  funext i
  rcases Nat.lt_or_ge i kRegisters with hi | hi
  · rw [ranks_of_lt (hi.trans_eq hsize.symm)]
    unfold registersOf
    rw [List.getElem_map,List.getElem_range,toNat_sup_mark]
  · rw [ranks_of_le (hsize.trans_le hi),sup_mark_of_le hashes hi]

theorem sort_sorted (hashes : Finset UInt64) : (hashes.sort (· ≤ ·)).Pairwise (· < ·) := by
  have hnodup := hashes.sort_nodup (· ≤ ·)
  apply ((hashes.pairwise_sort (· ≤ ·)).and hnodup).imp
  rintro x y ⟨hle,hne⟩
  rw [UInt64.lt_iff_toNat_lt]
  have hle' := UInt64.le_iff_toNat_le.mp hle
  have hne' : x.toNat≠y.toNat := fun heq => hne (UInt64.toNat_inj.mp heq)
  omega

theorem view_ofSet (hashes : Finset UInt64) :
    Ok (ofSet hashes) ∧ view (ofSet hashes) = .keep mark kSparseLimit hashes := by
  unfold ofSet
  split_ifs with hshort
  · refine ⟨.sparse (sort_sorted hashes) (by rwa [Finset.length_sort]),?_⟩
    rw [view_sparse,Finset.sort_toFinset,SpillSet.keep_of_le hshort]
  · have hfull := registersOf_full hashes
    refine ⟨ok_dense hfull,?_⟩
    rw [view_dense hfull.ne_nil,SpillSet.keep_of_lt (not_le.mp hshort),ranks_registersOf]

theorem eq_ofSet (h : Ok s) {set : Finset UInt64} (hview : view s = .keep mark kSparseLimit set) :
    s=ofSet set :=
  view_injective h (view_ofSet set).1 (hview.trans (view_ofSet set).2.symm)

variable {ι : Type} [DecidableEq ι]

variable {sketches : ι → CardinalitySketch}

theorem step_ok (h : ∀ i,Ok (sketches i)) (call : SketchCall ι) (i : ι) :
    Ok (step sketches call i) := by
  cases call with
  | add j hash =>
    rw [step,Function.update_apply]
    split_ifs
    · exact (add_spec (h j) hash).1
    · exact h i
  | merge j other =>
    rw [step,Function.update_apply]
    split_ifs
    · exact (h j).merge (h other)
    · exact h i

theorem step_view {sets : ι → Finset UInt64}
    (h : ∀ i,Ok (sketches i) ∧ view (sketches i) = .keep mark kSparseLimit (sets i))
    (call : SketchCall ι) (i : ι) : Ok (step sketches call i) ∧
      view (step sketches call i) = .keep mark kSparseLimit (enter sets call i) := by
  refine ⟨step_ok (fun i => (h i).1) call i,?_⟩
  cases call with
  | add j hash =>
    rw [step,enter,Function.update_apply,Function.update_apply]
    split_ifs
    · have hone : SpillSet.keep mark kSparseLimit {hash} = .exact {hash} :=
        SpillSet.keep_of_le (by rw [Finset.card_singleton]; decide)
      rw [(add_spec (h j).1 hash).2,(h j).2,SpillSet.join_comm,SpillSet.exact_join_keep,
        ← Finset.insert_eq]
    · exact (h i).2
  | merge j other =>
    rw [step,enter,Function.update_apply,Function.update_apply]
    split_ifs
    · rw [(merge_spec (h j).1 (h other).1).2,(h j).2,(h other).2,SpillSet.keep_join_keep]
    · exact (h i).2

theorem run_ok (h : ∀ i,Ok (sketches i)) (calls : List (SketchCall ι)) (i : ι) :
    Ok (run step sketches calls i) :=
  @run_invariant _ _ step (fun _ _ => True) (fun sketches => ∀ i,Ok (sketches i))
    (fun _ call h _ => step_ok h call) _ _ h (along_true _ _ _) i

theorem run_eq_ofSet (calls : List (SketchCall ι)) (i : ι) :
    run step (fun _ => empty) calls i=ofSet (run enter (fun _ => ∅) calls i) := by
  have hrun := @run_simulation _ _ _ step enter (fun _ _ => True)
    (fun sketches sets => ∀ i,Ok (sketches i) ∧
      view (sketches i) = .keep mark kSparseLimit (sets i))
    (fun _ _ call h _ => step_view h call) (fun _ => empty) (fun _ => ∅) calls
    (fun _ => ⟨ok_empty,view_foldl_add_empty []⟩) (along_true _ _ _)
  exact eq_ofSet (hrun i).1 (hrun i).2

theorem read_sparse (h : hashes.Pairwise (· < ·)) (hshort : hashes.length≤kSparseLimit)
    (rest : List UInt8) :
    read ⟨write ⟨hashes,[]⟩++rest,true⟩=((true, ⟨hashes,[]⟩), ⟨rest,true⟩) := by
  have hcount : hashes.length%2^16=(hashes.map UInt64.toNat).length := by
    unfold kSparseLimit at hshort
    rw [List.length_map]
    omega
  have hcount' : (hashes.map UInt64.toNat).length<256^2 := by
    unfold kSparseLimit at hshort
    rw [List.length_map]
    omega
  have hvalues : ∀ v∈hashes.map UInt64.toNat, v<256^8 := by
    intro v hv
    obtain ⟨hash,-,rfl⟩ := List.mem_map.mp hv
    exact hash.toNat_lt
  have hback : (hashes.map UInt64.toNat).map UInt64.ofNat=hashes := by
    rw [List.map_map]
    exact (List.map_congr_left fun hash _ => UInt64.ofNat_toNat).trans (List.map_id _)
  have hchain : List.IsChain (· < ·) hashes := List.Pairwise.isChain h
  unfold read write
  rw [if_pos rfl,hcount,List.append_assoc,List.append_assoc,
    QDataStream.readUInt_bigEndian (by decide)]
  dsimp only
  rw [if_pos rfl,QDataStream.readUInt_bigEndian hcount']
  rw [if_neg (by rw [List.length_map]; simpa using hshort),QDataStream.readUInts_bigEndian hvalues]
  rw [hback,if_neg (by simpa using hchain)]

theorem read_dense {dense : List UInt8} (h : Full dense) (rest : List UInt8) :
    read ⟨write ⟨[],dense⟩++rest,true⟩=((true, ⟨[],dense⟩), ⟨rest,true⟩) := by
  have hraw := QDataStream.readRawData_append dense rest true
  rw [h.size] at hraw
  unfold read write
  rw [if_neg h.ne_nil,List.append_assoc,QDataStream.readUInt_bigEndian (by decide)]
  dsimp only
  rw [if_neg (by decide),if_neg (by decide),hraw]
  rw [if_pos ⟨h.size,h.bounded⟩]

theorem read_write (h : Ok s) (rest : List UInt8) :
    read ⟨write s++rest,true⟩=((true, s), ⟨rest,true⟩) := by
  cases h with
  | sparse sorted short => exact read_sparse sorted short rest
  | dense size bounded => exact read_dense ⟨size,bounded⟩ rest

theorem read_ok (s : QDataStream) :
    (read s).1=(false, empty) ∨ (∃ sketch, (read s).1=(true, sketch) ∧ Ok sketch) := by
  unfold read
  dsimp only
  split_ifs with hmode hcount hbad hmode' hfull
  · exact .inl rfl
  · exact .inl rfl
  · refine .inr ⟨_,rfl,.sparse ?_ ?_⟩
    · obtain ⟨-,hchain⟩ := not_or.mp hbad
      have : @Trans UInt64 UInt64 UInt64 (· < ·) (· < ·) (· < ·) := ⟨UInt64.lt_trans⟩
      exact List.isChain_iff_pairwise.mp (not_not.mp hchain)
    · rw [List.length_map,QDataStream.readUInts_length]
      exact not_lt.mp (not_or.mp hcount).2
  · exact .inl rfl
  · exact .inr ⟨_,rfl,.dense hfull.1 hfull.2⟩
  · exact .inl rfl

/-- A sketch is a set: what a run leaves in it depends on the hashes that entered only, merging is
the union, sketches that are in order stay so in any run, and they survive being written and
read. -/
theorem sketches_areSets :
    (∀ (ι : Type) [DecidableEq ι] (calls : List (SketchCall ι)) (i : ι),
      run step (fun _ => empty) calls i = ofSet (run enter (fun _ => ∅) calls i)) ∧
    (∀ (ι : Type) [DecidableEq ι] (sketches : ι → CardinalitySketch), (∀ i, Ok (sketches i)) →
      ∀ (calls : List (SketchCall ι)) (i : ι), Ok (run step sketches calls i)) ∧
    (∀ a, Ok a → ∀ hashes hashes' : List UInt64, hashes.toFinset = hashes'.toFinset →
      hashes.foldl add a = hashes'.foldl add a) ∧
    (∀ a b c, Ok a → Ok b → Ok c → a.merge b = b.merge a ∧
      (a.merge b).merge c = a.merge (b.merge c) ∧ a.merge a = a ∧
      (∀ hashes : List UInt64, a.merge (hashes.foldl add empty) = hashes.foldl add a) ∧
      (a.merge b).dense =
        if a.dense = [] ∧ b.dense = [] ∧ (a.sparse ++ b.sparse).toFinset.card ≤ kSparseLimit then []
        else List.zipWith max (registers a) (registers b)) ∧
    (∀ s, Ok s → ∀ rest, read ⟨write s ++ rest, true⟩ = ((true, s), ⟨rest, true⟩)) ∧
    ∀ bytes : List UInt8, (read ⟨bytes, true⟩).1 = (false, empty) ∨
      ∃ sketch, (read ⟨bytes, true⟩).1 = (true, sketch) ∧ Ok sketch := by
  refine ⟨?_,?_,?_,?_,?_,?_⟩
  · intro ι _ calls i
    exact run_eq_ofSet calls i
  · intro ι _ sketches h calls i
    exact run_ok h calls i
  · intro a ha hashes hashes' heq
    exact foldl_add_congr ha heq
  · intro a b c ha hb hc
    exact ⟨merge_comm ha hb,merge_assoc ha hb hc,merge_self ha,merge_foldl_add ha,
      dense_merge ha hb⟩
  · intro s h rest
    exact read_write h rest
  · intro bytes
    exact read_ok ⟨bytes,true⟩

end CardinalitySketch

end EmuleQt.Stats
