import EmuleQt.Crypto.Digest
import EmuleQt.Framework.Coverage
import EmuleQt.Framework.LruTable
import EmuleQt.Framework.Run
import EmuleQt.Math.AbsorbSpan
import Mathlib.Order.Lattice.Nat

namespace EmuleQt.Client

open Crypto Framework Math Math.Span

def kMaxPartialParts : Nat := 16

/-- What of a part in progress is covered. -/
structure PartialPart where
  part : Nat
  covered : List (Span Nat)

/-- A user hash, then a file hash. -/
abbrev PairKey := Digest 16 × Digest 16

structure PairEntry where
  key : PairKey
  delivered : List Nat
  partials : List PartialPart

def PairEntry.fresh (k : PairKey) : PairEntry := ⟨k, [], []⟩

theorem PairEntry.fresh_key (k : PairKey) : (fresh k).key=k := rfl

/-- The arguments of `addPiece`. -/
structure Piece where
  part : Nat
  partLen : Nat
  start : Nat
  stop : Nat

namespace PairEntry

variable {e : PairEntry} {pc : Piece} {p : Nat}

/-- The oldest part in progress makes room. -/
def openPartial (part : Nat) (partials : List PartialPart) : List PartialPart :=
  match lookupKey PartialPart.part part partials with
  | some _ => partials
  | none => (if kMaxPartialParts≤partials.length then partials.tail else partials)++[⟨part,[]⟩]

def coveredIn (part : Nat) (partials : List PartialPart) : List (Span Nat) :=
  (lookupKey PartialPart.part part partials).elim [] PartialPart.covered

def complete (partLen : Nat) : List (Span Nat) → Bool
  | [r] => decide (r.first = 0 ∧ partLen ≤ r.second)
  | _ => false

def countDelivery (part : Nat) (delivered : List Nat) : List Nat :=
  (delivered++List.replicate (part+1-delivered.length) 0).modify part
    fun n => if n<255 then n+1 else n

def addPiece (e : PairEntry) (pc : Piece) : PairEntry :=
  let partials := openPartial pc.part e.partials
  let covered := insertAbsorbing ⟨pc.start, pc.stop⟩ (coveredIn pc.part partials)
  if complete pc.partLen covered then
    { e with
      delivered := countDelivery pc.part e.delivered
      partials := partials.eraseP fun q => decide (q.part = pc.part) }
  else { e with partials := upsert PartialPart.part pc.part (fun _ => ⟨pc.part, covered⟩) partials }

def deliveredOf (p : Nat) (e : PairEntry) : Nat := e.delivered.getD p 0

/-- What a part has come to, as the entry has it. -/
def coverage (p : Nat) (e : PairEntry) : Coverage Nat :=
  ⟨union (coveredIn p e.partials), e.deliveredOf p⟩

theorem coverage_fresh (p : Nat) (k : PairKey) : (fresh k).coverage p = .empty := by
  change (⟨union [],0⟩ : Coverage Nat)=⟨∅,0⟩
  rw [union_nil]

/-- The piece costs another part its record. -/
def DropsPart (e : PairEntry) (pc : Piece) (p : Nat) : Prop :=
  (lookupKey PartialPart.part pc.part e.partials).isNone=true ∧
    kMaxPartialParts≤e.partials.length ∧ e.partials.head?.map PartialPart.part=some p

instance instDecidableDropsPart (e : PairEntry) (pc : Piece) (p : Nat) :
    Decidable (e.DropsPart pc p) := inferInstanceAs (Decidable (_ ∧ _ ∧ _))

/-- One record a part, and its ranges in order with something missing between each two. -/
structure WellFormed (e : PairEntry) : Prop where
  parts : (e.partials.map PartialPart.part).Nodup
  separated : ∀ q∈e.partials, Separated q.covered

theorem fresh_wellFormed (k : PairKey) : (fresh k).WellFormed := by
  constructor <;> simp [fresh]

/-! # The parts in progress -/

variable {partials : List PartialPart} {part : Nat}

theorem coveredIn_separated (h : ∀ q∈partials,Separated q.covered) (p : Nat) :
    Separated (coveredIn p partials) := by
  unfold coveredIn
  cases hfound : lookupKey PartialPart.part p partials with
  | none => exact separated_nil
  | some q => exact h q (lookupKey_mem hfound).1

theorem coveredIn_append_fresh :
    coveredIn p (partials++[⟨part,[]⟩])=coveredIn p partials := by
  unfold coveredIn
  rw [lookupKey_append,lookupKey_cons]
  cases lookupKey PartialPart.part p partials with
  | some q => rfl
  | none => split_ifs <;> rfl

theorem coveredIn_tail (hparts : (partials.map PartialPart.part).Nodup) :
    coveredIn p partials.tail =
      if partials.head?.map PartialPart.part=some p then [] else coveredIn p partials := by
  cases partials with
  | nil => rfl
  | cons q qs =>
    obtain ⟨hq,-⟩ := List.nodup_cons.mp hparts
    unfold coveredIn
    simp only [List.tail_cons,List.head?_cons,Option.map_some,Option.some.injEq,lookupKey_cons]
    split_ifs with hp
    · rw [hp] at hq
      rw [lookupKey_eq_none.mpr hq]
      rfl
    · rfl

theorem coveredIn_openPartial (h : e.WellFormed) :
    coveredIn p (openPartial pc.part e.partials) =
      if e.DropsPart pc p then [] else coveredIn p e.partials := by
  by_cases hdrops : e.DropsPart pc p
  · obtain ⟨hnone,hfull,hhead⟩ := hdrops
    rw [if_pos ⟨hnone,hfull,hhead⟩,openPartial,Option.isNone_iff_eq_none.mp hnone]
    rw [coveredIn_append_fresh,if_pos hfull,coveredIn_tail h.parts,if_pos hhead]
  · rw [if_neg hdrops]
    unfold openPartial
    cases hfound : lookupKey PartialPart.part pc.part e.partials with
    | some q => rfl
    | none =>
      rw [coveredIn_append_fresh]
      split_ifs with hfull
      · rw [coveredIn_tail h.parts,if_neg fun hhead => hdrops ⟨by rw [hfound]; rfl,hfull,hhead⟩]
      · rfl

theorem not_dropsPart_self : ¬ e.DropsPart pc pc.part := by
  rintro ⟨hnone,-,hhead⟩
  rw [Option.isNone_iff_eq_none,lookupKey_eq_none] at hnone
  cases hpartials : e.partials with
  | nil =>
    rw [hpartials] at hhead
    cases hhead
  | cons q qs =>
    rw [hpartials] at hhead hnone
    exact hnone (List.mem_cons.mpr (.inl (Option.some.inj hhead).symm))

theorem openPartial_parts (part : Nat) (hparts : (partials.map PartialPart.part).Nodup) :
    ((openPartial part partials).map PartialPart.part).Nodup := by
  unfold openPartial
  cases hfound : lookupKey PartialPart.part part partials with
  | some q => exact hparts
  | none =>
    have hnew := lookupKey_eq_none.mp hfound
    rw [List.map_append]
    refine List.nodup_append.mpr ⟨?_,List.nodup_singleton _,?_⟩
    · split_ifs
      · rw [List.map_tail]
        exact hparts.sublist (List.tail_sublist _)
      · exact hparts
    · intro a ha b hb
      obtain rfl := List.mem_singleton.mp hb
      rintro rfl
      split_ifs at ha
      · rw [List.map_tail] at ha
        exact hnew (List.mem_of_mem_tail ha)
      · exact hnew ha

theorem openPartial_separated (part : Nat) (h : ∀ q∈partials,Separated q.covered) :
    ∀ q∈openPartial part partials, Separated q.covered := by
  intro q hq
  unfold openPartial at hq
  cases hfound : lookupKey PartialPart.part part partials with
  | some _ =>
    rw [hfound] at hq
    exact h q hq
  | none =>
    rw [hfound] at hq
    rcases List.mem_append.mp hq with hq | hq
    · split_ifs at hq
      · exact h q (List.mem_of_mem_tail hq)
      · exact h q hq
    · rw [List.mem_singleton.mp hq]
      exact separated_nil

/-! # One piece -/

/-- A part is covered from its start past its end, by one range. -/
def Reaches (partLen : Nat) (covered : Set Nat) : Prop :=
  ∃ stop, partLen ≤ stop ∧ covered = Set.Iio stop

theorem complete_iff {partLen : Nat} {rs : List (Span Nat)} (hlen : 0<partLen)
    (h : Separated rs) : complete partLen rs=true ↔ Reaches partLen (union rs) := by
  constructor
  · intro hcomplete
    match rs, hcomplete with
    | [r], hcomplete =>
      obtain ⟨hfirst,hsecond⟩ := of_decide_eq_true hcomplete
      refine ⟨r.second,hsecond,Set.ext fun x => ?_⟩
      rw [mem_union_cons,hfirst,or_iff_left mem_union_nil,Set.mem_Iio]
      exact and_iff_right (Nat.zero_le x)
  · rintro ⟨stop,hstop,hunion⟩
    have hmem : ∀ x,x∈union rs ↔ x<stop := fun x => by rw [hunion,Set.mem_Iio]
    match rs, h, hmem with
    | [], _, hmem => exact absurd ((hmem 0).mpr (by omega)) mem_union_nil
    | r::rest, h, hmem =>
      have hlater := (List.pairwise_cons.mp h.apart).1
      -- Where the first range ends nothing is covered.
      have hend : ¬ r.second<stop := by
        rw [← hmem,mem_union_cons,not_or]
        refine ⟨by omega,?_⟩
        rintro ⟨t,ht,hfrom,-⟩
        have := hlater t ht
        omega
      have hfirst : r.first=0 := by
        obtain ⟨t,ht,hfrom,-⟩ := (hmem 0).mpr (by omega)
        rcases List.mem_cons.mp ht with rfl | ht
        · omega
        · have := hlater t ht
          omega
      cases rest with
      | nil => exact decide_eq_true ⟨hfirst,by omega⟩
      | cons t ts =>
        have ht := hlater t List.mem_cons_self
        have hne := h.nonempty t (List.mem_cons_of_mem r List.mem_cons_self)
        have hin : t.first∈union (r::t::ts) :=
          ⟨t,List.mem_cons_of_mem r List.mem_cons_self,Nat.le_refl _,hne⟩
        rw [hmem] at hin
        omega

theorem countDelivery_getD (delivered : List Nat) (part p : Nat) :
    (countDelivery part delivered).getD p 0 =
      if p=part then if delivered.getD p 0<255 then delivered.getD p 0+1
        else delivered.getD p 0
      else delivered.getD p 0 := by
  have hgrown : ∀ q,(delivered++List.replicate (part+1-delivered.length) 0).getD q 0 =
      delivered.getD q 0 := by
    intro q
    simp only [List.getD_eq_getElem?_getD,List.getElem?_append,List.getElem?_replicate]
    split_ifs with hq hin
    · rfl
    · rw [List.getElem?_eq_none (Nat.le_of_not_lt hq)]
      rfl
    · rw [List.getElem?_eq_none (Nat.le_of_not_lt hq)]
  have hlong : part<(delivered++List.replicate (part+1-delivered.length) 0).length := by
    rw [List.length_append,List.length_replicate]
    omega
  unfold countDelivery
  rw [← hgrown p]
  generalize delivered++List.replicate (part+1-delivered.length) 0=grown at hlong ⊢
  split_ifs with hp hcap
  · subst hp
    simp only [List.getD_eq_getElem?_getD,List.getElem?_modify_eq,List.getElem?_eq_getElem hlong,
      Option.getD_some] at hcap ⊢
    exact if_pos hcap
  · subst hp
    simp only [List.getD_eq_getElem?_getD,List.getElem?_modify_eq,List.getElem?_eq_getElem hlong,
      Option.getD_some] at hcap ⊢
    exact if_neg hcap
  · simp only [List.getD_eq_getElem?_getD,List.getElem?_modify_ne _ _ (Ne.symm hp)]

/-- Adding a piece to its own part. -/
structure PieceCounted (e e' : PairEntry) (pc : Piece) : Prop where
  completed : Reaches pc.partLen ((e.coverage pc.part).covered ∪ Set.Ico pc.start pc.stop) →
    (e'.coverage pc.part).covered = ∅ ∧ e'.deliveredOf pc.part =
      if e.deliveredOf pc.part<255 then e.deliveredOf pc.part+1 else e.deliveredOf pc.part
  grown : ¬ Reaches pc.partLen ((e.coverage pc.part).covered ∪ Set.Ico pc.start pc.stop) →
    (e'.coverage pc.part).covered=(e.coverage pc.part).covered ∪ Set.Ico pc.start pc.stop ∧
      e'.deliveredOf pc.part=e.deliveredOf pc.part

theorem addPiece_key (e : PairEntry) (pc : Piece) : (e.addPiece pc).key=e.key := by
  unfold addPiece
  dsimp only
  split_ifs <;> rfl

theorem insertPiece_spec (h : e.WellFormed) (hpc : pc.start<pc.stop) :
    let covered := insertAbsorbing ⟨pc.start,pc.stop⟩
      (coveredIn pc.part (openPartial pc.part e.partials))
    Separated covered ∧
      union covered=(e.coverage pc.part).covered ∪ Set.Ico pc.start pc.stop := by
  rw [coveredIn_openPartial h,if_neg not_dropsPart_self]
  obtain ⟨hseparated,hunion⟩ := insertAbsorbing_spec (r := ⟨pc.start,pc.stop⟩) hpc
    (coveredIn_separated h.separated pc.part)
  refine ⟨hseparated,Set.ext fun x => ?_⟩
  rw [hunion,Set.mem_union,or_comm]
  rfl

theorem addPiece_wellFormed (h : e.WellFormed) (hpc : pc.start<pc.stop) :
    (e.addPiece pc).WellFormed := by
  have hparts := openPartial_parts pc.part h.parts
  have hseparated := openPartial_separated pc.part h.separated
  unfold addPiece
  dsimp only
  split_ifs
  · refine ⟨hparts.sublist (List.eraseP_sublist.map _),fun q hq => ?_⟩
    exact hseparated q (List.mem_of_mem_eraseP hq)
  · refine ⟨nodup_map_upsert (fun _ => rfl) hparts,fun q hq => ?_⟩
    rcases mem_upsert hq with rfl | hold
    · exact (insertPiece_spec h hpc).1
    · exact hseparated q hold

theorem addPiece_counted (h : e.WellFormed) (hlen : 0<pc.partLen) (hpc : pc.start<pc.stop) :
    PieceCounted e (e.addPiece pc) pc := by
  obtain ⟨hseparated,hunion⟩ := insertPiece_spec h hpc
  have hiff := complete_iff hlen hseparated
  rw [hunion] at hiff
  constructor
  · intro hreach
    have hadd : e.addPiece pc=_ := if_pos (hiff.mpr hreach)
    rw [hadd]
    refine ⟨?_,(countDelivery_getD _ _ _).trans (if_pos rfl)⟩
    have hgone : coveredIn pc.part ((openPartial pc.part e.partials).eraseP
        fun q => decide (q.part=pc.part))=[] := by
      unfold coveredIn
      rw [lookupKey_eraseP (openPartial_parts _ h.parts),if_pos rfl]
      rfl
    change union (coveredIn _ _) = ∅
    rw [hgone,union_nil]
  · intro hreach
    have hadd : e.addPiece pc=_ := if_neg (mt hiff.mp hreach)
    rw [hadd]
    refine ⟨?_,rfl⟩
    rw [← hunion]
    change union (coveredIn _ (upsert _ _ _ _))=_
    rw [coveredIn,lookupKey_upsert_self rfl]
    rfl

theorem coverage_addPiece_ne (h : e.WellFormed) (hne : p≠pc.part) :
    (e.addPiece pc).coverage p =
      if e.DropsPart pc p then ⟨∅,e.deliveredOf p⟩ else e.coverage p := by
  have hcovered : coveredIn p (e.addPiece pc).partials =
      coveredIn p (openPartial pc.part e.partials) := by
    unfold addPiece coveredIn
    dsimp only
    split_ifs
    · rw [lookupKey_eraseP (openPartial_parts _ h.parts),if_neg hne]
    · rw [lookupKey_upsert_ne rfl hne]
  have hdelivered : (e.addPiece pc).deliveredOf p=e.deliveredOf p := by
    unfold addPiece
    dsimp only
    split_ifs
    · exact (countDelivery_getD _ _ _).trans (if_neg hne)
    · rfl
  unfold coverage
  rw [hcovered,hdelivered,coveredIn_openPartial h]
  split_ifs
  · rw [union_nil]
  · rfl

/-! # The pieces of a payload -/

/-- What one part has come to follows the pieces of this part, as long as the pieces of the
others keep what is said of it. -/
theorem run_addPiece {τ : Type*} (p : Nat) (rel : PairEntry → τ → Prop) (f : τ → Piece → τ)
    (ok : PairEntry → Piece → Prop) (pcs : List Piece)
    (hself : ∀ e c,∀ pc∈pcs,e.WellFormed → pc.part=p → rel e c → rel (e.addPiece pc) (f c pc))
    (hother : ∀ e c,∀ pc∈pcs,e.WellFormed → pc.part≠p → ok e pc → rel e c →
      rel (e.addPiece pc) c)
    (hpcs : ∀ pc∈pcs,pc.start<pc.stop) (h : e.WellFormed) {c : τ} (hrel : rel e c)
    (hok : Along addPiece ok e pcs) :
    rel (run addPiece e pcs) (run f c (pcs.filter fun pc => decide (pc.part=p))) := by
  induction pcs generalizing e c with
  | nil => exact hrel
  | cons pc pcs ih =>
    have hrest := fun c' (hrel' : rel (e.addPiece pc) c') =>
      ih (fun e c pc hpc => hself e c pc (List.mem_cons_of_mem _ hpc))
        (fun e c pc hpc => hother e c pc (List.mem_cons_of_mem _ hpc))
        (fun pc hpc => hpcs pc (List.mem_cons_of_mem _ hpc))
        (addPiece_wellFormed h (hpcs pc List.mem_cons_self)) hrel' hok.2
    by_cases hp : pc.part=p
    · rw [List.filter_cons_of_pos (by simp [hp])]
      exact hrest _ (hself e c pc List.mem_cons_self h hp hrel)
    · rw [List.filter_cons_of_neg (by simp [hp])]
      exact hrest _ (hother e c pc List.mem_cons_self h hp hok.1 hrel)

theorem addPiece_bounded {o n : Nat} (h : e.WellFormed) (hlen : o<pc.partLen)
    (hpc : pc.start<pc.stop) (hbounded : (e.coverage pc.part).Bounded o n) :
    ((e.addPiece pc).coverage pc.part).Bounded o
      (n+if pc.start≤o ∧ o<pc.stop then 1 else 0) := by
  have hcounted := addPiece_counted h (Nat.zero_lt_of_lt hlen) hpc
  have hadded : ((e.coverage pc.part).add (Reaches pc.partLen)
      (Set.Ico pc.start pc.stop)).Bounded o (n+if pc.start≤o ∧ o<pc.stop then 1 else 0) := by
    split_ifs with ho
    · exact hbounded.add_mem
    · refine hbounded.add_not_mem ho ?_
      rintro ⟨stop,hstop,hcovered⟩
      rw [hcovered]
      exact Nat.lt_of_lt_of_le hlen hstop
  by_cases hreach : Reaches pc.partLen ((e.coverage pc.part).covered ∪ Set.Ico pc.start pc.stop)
  · obtain ⟨hcovered,hdelivered⟩ := hcounted.completed hreach
    rw [Coverage.add_of_done hreach] at hadded
    refine hadded.lose hcovered.subset ?_
    change deliveredOf pc.part _ ≤ e.deliveredOf pc.part+1
    rw [hdelivered]
    split_ifs <;> omega
  · obtain ⟨hcovered,hdelivered⟩ := hcounted.grown hreach
    rw [Coverage.add_of_not_done hreach] at hadded
    exact hadded.lose hcovered.subset (Nat.le_of_eq hdelivered)

theorem coverage_addPiece_lose (h : e.WellFormed) (hne : pc.part≠p) :
    ((e.addPiece pc).coverage p).covered ⊆ (e.coverage p).covered ∧
      ((e.addPiece pc).coverage p).times≤(e.coverage p).times := by
  rw [coverage_addPiece_ne h hne.symm]
  split_ifs
  · exact ⟨Set.empty_subset _,Nat.le_refl _⟩
  · exact ⟨Set.Subset.refl _,Nat.le_refl _⟩

/-- The entry has the coverage of a part, and the completions as far as they are counted. -/
def Tracks (p : Nat) (e : PairEntry) (c : Coverage Nat) : Prop :=
  (e.coverage p).covered = c.covered ∧ e.deliveredOf p = min 255 c.times

theorem addPiece_tracks {c : Coverage Nat} (h : e.WellFormed) (hlen : 0<pc.partLen)
    (hpc : pc.start<pc.stop) (htracks : e.Tracks pc.part c) :
    (e.addPiece pc).Tracks pc.part
      (c.add (Reaches pc.partLen) (Set.Ico pc.start pc.stop)) := by
  obtain ⟨hsame,htimes⟩ := htracks
  have hcounted := addPiece_counted h hlen hpc
  obtain ⟨hcompleted,hgrown⟩ := hcounted
  rw [hsame] at hcompleted hgrown
  by_cases hreach : Reaches pc.partLen (c.covered ∪ Set.Ico pc.start pc.stop)
  · obtain ⟨hcovered,hdelivered⟩ := hcompleted hreach
    rw [Coverage.add_of_done hreach]
    refine ⟨hcovered,?_⟩
    rw [hdelivered,htimes]
    dsimp only
    split_ifs <;> omega
  · obtain ⟨hcovered,hdelivered⟩ := hgrown hreach
    rw [Coverage.add_of_not_done hreach]
    exact ⟨hcovered,hdelivered.trans htimes⟩

end PairEntry

end EmuleQt.Client
