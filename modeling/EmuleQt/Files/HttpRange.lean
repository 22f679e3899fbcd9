import EmuleQt.Files.FreeStretch
import EmuleQt.Utils.Opcodes
import Mathlib.Algebra.GroupWithZero.Nat

namespace EmuleQt.Files

open Math Math.Interval Utils

/-- `Requested_Block_Struct`; a block without a holder is none of an eD2K source. -/
structure RequestedBlock (Client : Type) extends Interval where
  holder : Option Client
  lastProgressTick : Nat
  requested : Bool
  deriving DecidableEq

/-- A reservation as `getNextHttpRange` copies it. -/
structure Span (Client : Type) extends Interval where
  holder : Option Client

/-- What `std::ranges::sort` by start does; equal starts come in any order. -/
structure SortsByStart {Client : Type} (sort : List (Span Client) → List (Span Client)) : Prop where
  perm : ∀ l, (sort l).Perm l
  sorted : ∀ l, (sort l).Pairwise fun a b => a.start≤b.start

/-- What is handed out, and what the sender is told to continue with. -/
structure HttpRange (Client : Type) where
  covered : Nat
  blocks : List (RequestedBlock Client)
  lastPartAsked : Option Nat

/-- The last byte of the block at `pos`: at a boundary of its part, at the part's end or at the end of
the run. -/
def blockEnd (bestEnd pos : Nat) : Nat :=
  let partStart := pos / PARTSIZE * PARTSIZE
  let blockLimit := partStart + ((pos - partStart) / EMBLOCKSIZE + 1) * EMBLOCKSIZE - 1
  min bestEnd (min blockLimit (partStart + PARTSIZE - 1))

section BlockEnd

variable {bestEnd pos : Nat}

theorem blockEnd_le : blockEnd bestEnd pos≤bestEnd := Nat.min_le_left _ _

theorem le_blockEnd (h : pos≤bestEnd) : pos≤blockEnd bestEnd pos := by
  have hpart := Nat.div_add_mod pos PARTSIZE
  have hblock : pos-pos/PARTSIZE*PARTSIZE <
      (pos-pos/PARTSIZE*PARTSIZE)/EMBLOCKSIZE*EMBLOCKSIZE+EMBLOCKSIZE :=
    Nat.lt_div_mul_add EMBLOCKSIZE_pos
  have hmod := Nat.mod_lt pos PARTSIZE_pos
  rw [Nat.mul_comm] at hpart
  refine Nat.le_min.mpr ⟨h,Nat.le_min.mpr ⟨?_,by omega⟩⟩
  rw [Nat.succ_mul]
  omega

theorem blockEnd_part (h : pos≤bestEnd) : blockEnd bestEnd pos/PARTSIZE=pos/PARTSIZE := by
  have hpos := le_blockEnd h
  have hend : blockEnd bestEnd pos≤pos/PARTSIZE*PARTSIZE+PARTSIZE-1 :=
    Nat.le_trans (Nat.min_le_right _ _) (Nat.min_le_right _ _)
  have hlow := Nat.div_mul_le_self pos PARTSIZE
  have hpart := PARTSIZE_pos
  rw [Nat.div_eq_iff hpart]
  omega

/-- Where a block may end: on a block boundary of its part, at the part's end, or with the run. -/
def EndsWell (bestEnd : Nat) (b : Interval) : Prop :=
  EMBLOCKSIZE ∣ b.stop+1-b.start/PARTSIZE*PARTSIZE ∨
    b.stop+1=b.start/PARTSIZE*PARTSIZE+PARTSIZE ∨ b.stop=bestEnd

theorem blockEnd_endsWell (bestEnd pos : Nat) : EndsWell bestEnd ⟨pos,blockEnd bestEnd pos⟩ := by
  have hblock : 0<((pos-pos/PARTSIZE*PARTSIZE)/EMBLOCKSIZE+1)*EMBLOCKSIZE :=
    Nat.mul_pos (Nat.succ_pos _) EMBLOCKSIZE_pos
  have hpart := PARTSIZE_pos
  simp only [EndsWell,blockEnd]
  rcases Nat.le_total bestEnd (min (pos/PARTSIZE*PARTSIZE +
      ((pos-pos/PARTSIZE*PARTSIZE)/EMBLOCKSIZE+1)*EMBLOCKSIZE-1)
      (pos/PARTSIZE*PARTSIZE+PARTSIZE-1)) with hrun | hrun
  · exact Or.inr (Or.inr (Nat.min_eq_left hrun))
  · rw [Nat.min_eq_right hrun]
    rcases Nat.le_total (pos/PARTSIZE*PARTSIZE +
      ((pos-pos/PARTSIZE*PARTSIZE)/EMBLOCKSIZE+1)*EMBLOCKSIZE-1)
      (pos/PARTSIZE*PARTSIZE+PARTSIZE-1) with hcut | hcut
    · rw [Nat.min_eq_left hcut]
      refine Or.inl ⟨(pos-pos/PARTSIZE*PARTSIZE)/EMBLOCKSIZE+1,?_⟩
      rw [Nat.mul_comm EMBLOCKSIZE]
      omega
    · rw [Nat.min_eq_right hcut]
      exact Or.inr (Or.inl (by omega))

end BlockEnd

/-- The loop that cuts the run into blocks. -/
def cutRun (bestEnd pos : Nat) : List Interval :=
  if pos≤bestEnd then
    ⟨pos,blockEnd bestEnd pos⟩ :: cutRun bestEnd (blockEnd bestEnd pos+1)
  else []
termination_by bestEnd+1-pos
decreasing_by
  have hpos := @le_blockEnd bestEnd pos (by assumption)
  omega

/-- A run cut into blocks that follow each other. -/
structure IsRun (first last : Nat) (blocks : List Interval) : Prop where
  contiguous : blocks.IsChain fun a b => b.start=a.stop+1
  ascending : Ascending blocks
  inside : ∀ b∈blocks, first≤b.start ∧ b.start≤b.stop ∧ b.stop≤last
  starts : ∀ b, blocks.head? = some b → b.start=first
  onePart : ∀ b∈blocks, b.stop/PARTSIZE=b.start/PARTSIZE
  endsWell : ∀ b∈blocks, EndsWell last b
  total : (blocks.map fun b => b.stop-b.start+1).sum=last+1-first

theorem cutRun_isRun (bestEnd pos : Nat) : IsRun pos bestEnd (cutRun bestEnd pos) := by
  fun_induction cutRun bestEnd pos with
  | case1 pos hle ih =>
    have hpos := le_blockEnd hle
    have hend := @blockEnd_le bestEnd pos
    have hrest : ∀ b∈cutRun bestEnd (blockEnd bestEnd pos+1), blockEnd bestEnd pos<b.start :=
      fun b hb => (ih.inside b hb).1
    refine ⟨List.isChain_cons.mpr ⟨fun b hb => ih.starts b hb,ih.contiguous⟩,
      List.pairwise_cons.mpr ⟨hrest,ih.ascending⟩,?_,?_,?_,?_,?_⟩
    · intro b hb
      rcases List.mem_cons.mp hb with rfl | hb
      · exact ⟨Nat.le_refl _,hpos,hend⟩
      · have hin := ih.inside b hb
        exact ⟨by omega,hin.2⟩
    · intro b hb
      obtain rfl := Option.some.inj hb
      rfl
    · intro b hb
      rcases List.mem_cons.mp hb with rfl | hb
      · exact blockEnd_part hle
      · exact ih.onePart b hb
    · intro b hb
      rcases List.mem_cons.mp hb with rfl | hb
      · exact blockEnd_endsWell bestEnd pos
      · exact ih.endsWell b hb
    · rw [List.map_cons,List.sum_cons,ih.total]
      simp only
      omega
  | case2 pos hpast =>
    refine ⟨List.isChain_nil,List.Pairwise.nil,?_,?_,?_,?_,?_⟩
    · exact fun b hb => absurd hb List.not_mem_nil
    · exact fun b hb => nomatch hb
    · exact fun b hb => absurd hb List.not_mem_nil
    · exact fun b hb => absurd hb List.not_mem_nil
    · simp only [List.map_nil,List.sum_nil]
      omega

theorem cutRun_eq_nil {bestEnd pos : Nat} (h : bestEnd<pos) : cutRun bestEnd pos=[] := by
  rw [cutRun,if_neg (Nat.not_le_of_lt h)]

section GetNextHttpRange

variable {Client : Type} [DecidableEq Client]

/-- Where the run starts in the best stretch: half way, on a block boundary, when the block that runs
into it from the left is another's. -/
def runStart (taken : List (Span Client)) (sender : Client) (best : Best) : Nat :=
  if best.start > 0 ∧ best.len > 2 * PARTSIZE then
    match taken.find? fun s => decide (s.start < best.start ∧ s.stop + 1 ≥ best.start) with
    | some left =>
      if left.holder ≠ some sender then
        let mid := best.start + best.len / 2
        let partStart := mid / PARTSIZE * PARTSIZE
        let aligned :=
          partStart + (mid - partStart + EMBLOCKSIZE - 1) / EMBLOCKSIZE * EMBLOCKSIZE
        if aligned ≤ best.stop then aligned else best.start
      else best.start
    | none => best.start
  else best.start

/-- `getNextHttpRange` over the gaps and reservations of a file. `maxBytes` is any uint64, so the end
of the run is taken modulo 2^64; no other sum leaves uint64 in a file of at most
`MAX_EMULE_FILE_SIZE` bytes. -/
def getNextHttpRange (sort : List (Span Client) → List (Span Client)) (gapList : List Interval)
    (requestedBlocks : List (RequestedBlock Client)) (nowTick : Nat) (sender : Client)
    (maxBytes : Nat) : HttpRange Client :=
  if maxBytes = 0 ∨ gapList = [] then ⟨0, [], none⟩
  else
    let taken := sort (requestedBlocks.map fun b => ⟨b.toInterval, b.holder⟩)
    let best := sweep (taken.map Span.toInterval) Best.none gapList
    if best.len = 0 then ⟨0, [], none⟩
    else
      let bestStart := runStart taken sender best
      let bestEnd := min best.stop ((bestStart + maxBytes - 1) % 2 ^ 64)
      let run := cutRun bestEnd bestStart
      ⟨(run.map fun b => b.stop - b.start + 1).sum,
        run.map fun b => ⟨b, some sender, nowTick, false⟩,
        some (bestStart / PARTSIZE % 2 ^ 16)⟩

theorem runStart_mem {taken : List (Span Client)} {sender : Client} {best : Best}
    (hbest : best.start≤best.stop) :
    best.start≤runStart taken sender best ∧ runStart taken sender best≤best.stop := by
  rw [runStart]
  split_ifs with hlong
  · split
    · split_ifs with hother
      · have hmid : best.start≤best.start+best.len/2 := Nat.le_add_right _ _
        generalize best.start+best.len/2=mid at hmid
        have hlow := Nat.div_mul_le_self mid PARTSIZE
        have hup : mid-mid/PARTSIZE*PARTSIZE ≤
            (mid-mid/PARTSIZE*PARTSIZE+EMBLOCKSIZE-1)/EMBLOCKSIZE*EMBLOCKSIZE := by
          have hlt : mid-mid/PARTSIZE*PARTSIZE+EMBLOCKSIZE-1 <
              (mid-mid/PARTSIZE*PARTSIZE+EMBLOCKSIZE-1)/EMBLOCKSIZE*EMBLOCKSIZE +
                EMBLOCKSIZE := Nat.lt_div_mul_add EMBLOCKSIZE_pos
          omega
        simp only
        split_ifs with hin
        · exact ⟨by omega,hin⟩
        · exact ⟨Nat.le_refl _,hbest⟩
      · exact ⟨Nat.le_refl _,hbest⟩
    · exact ⟨Nat.le_refl _,hbest⟩
  · exact ⟨Nat.le_refl _,hbest⟩

/-- What is asked of a range handed out. -/
structure HttpRange.Right (gaps taken : List Interval) (maxBytes : Nat) (r : HttpRange Client) :
    Prop where
  contiguous : r.blocks.IsChain fun a b => b.start = a.stop + 1
  ascending : r.blocks.Pairwise fun a b => a.stop < b.start
  nonempty : ∀ b ∈ r.blocks, b.start ≤ b.stop
  oneGap : r.blocks = [] ∨ ∃ gap ∈ gaps, ∀ b ∈ r.blocks, gap.start ≤ b.start ∧ b.stop ≤ gap.stop
  free : ∀ b ∈ r.blocks, ∀ x, b.start ≤ x → x ≤ b.stop → x ∉ union taken
  total : r.covered = (r.blocks.map fun b => b.stop - b.start + 1).sum
  atMost : r.covered ≤ maxBytes
  endsWell : ∀ b ∈ r.blocks, EMBLOCKSIZE ∣ b.stop + 1 - b.start / PARTSIZE * PARTSIZE ∨
    b.stop + 1 = b.start / PARTSIZE * PARTSIZE + PARTSIZE ∨ r.blocks.getLast? = some b
  onlyZero : r.covered = 0 → ∀ x ∈ union gaps, x ∈ union taken
  inLongest : ∀ b, r.blocks.head? = some b → ∃ i, Stretch gaps taken i ∧
    i.start ≤ b.start ∧ b.start ≤ i.stop ∧
      ∀ j, Stretch gaps taken j → j.stop - j.start ≤ i.stop - i.start

/-- The end of the run does not leave uint64, wherever the first of the longest stretches lies. -/
def RunFits (sort : List (Span Client) → List (Span Client)) (gapList : List Interval)
    (requestedBlocks : List (RequestedBlock Client)) (sender : Client) (maxBytes : Nat) : Prop :=
  ∀ i, FirstLongest gapList (requestedBlocks.map RequestedBlock.toInterval) i →
    runStart (sort (requestedBlocks.map fun b => ⟨b.toInterval,b.holder⟩)) sender
      ⟨i.start,i.stop,i.stop-i.start+1⟩ + maxBytes≤2^64

theorem IsRun.last_of_stop {first last : Nat} {blocks : List Interval} (h : IsRun first last blocks)
    {b : Interval} (hb : b∈blocks) (hstop : b.stop=last) : blocks.getLast? = some b := by
  obtain ⟨pre,post,hsplit⟩ := List.append_of_mem hb
  cases post with
  | nil => rw [hsplit,List.getLast?_append_cons,List.getLast?_singleton]
  | cons c post =>
    have hc : c∈blocks := by
      rw [hsplit]
      exact List.mem_append_right _ (List.mem_cons_of_mem b List.mem_cons_self)
    have hasc : (pre++b::c::post).Pairwise fun a b => a.stop<b.start := by
      rw [← hsplit]
      exact h.ascending
    have hlt := (List.pairwise_cons.mp (List.pairwise_append.mp hasc).2.1).1 c List.mem_cons_self
    have hin := h.inside c hc
    omega

variable {gaps taken : List Interval}

omit [DecidableEq Client] in
theorem IsRun.right {i : Interval} {first last maxBytes nowTick : Nat} {sender : Client}
    {blocks : List Interval} {asked : Option Nat} (h : IsRun first last blocks)
    (hi : FirstLongest gaps taken i) (hfirst : i.start≤first) (hstop : first ≤ i.stop)
    (hlast : last ≤ i.stop) (hrun : first≤last) (hmax : last+1-first ≤ maxBytes) :
    HttpRange.Right gaps taken maxBytes
      ⟨(blocks.map fun b => b.stop-b.start+1).sum,
        blocks.map fun b => ⟨b,some sender,nowTick,false⟩,asked⟩ := by
  obtain ⟨gap,hgap,hg1,hg2⟩ := hi.stretch.inGap
  have hmem : ∀ b∈blocks.map (fun b => (⟨b,some sender,nowTick,false⟩ : RequestedBlock Client)),
      b.toInterval∈blocks := by
    intro b hb
    obtain ⟨c,hc,rfl⟩ := List.mem_map.mp hb
    exact hc
  refine
    { contiguous := (List.isChain_map _).mpr h.contiguous
      ascending := List.pairwise_map.mpr h.ascending
      nonempty := fun b hb => (h.inside _ (hmem b hb)).2.1
      oneGap := Or.inr ⟨gap,hgap,fun b hb => ?_⟩
      free := fun b hb x hx hx' => ?_
      total := by rw [List.map_map]; rfl
      atMost := by rw [h.total]; exact hmax
      endsWell := fun b hb => ?_
      onlyZero := fun hzero => ?_
      inLongest := fun b hb => ?_ }
  · have hin := h.inside _ (hmem b hb)
    exact ⟨by omega,by omega⟩
  · have hin := h.inside _ (hmem b hb)
    exact hi.stretch.free x (by omega) (by omega)
  · rcases h.endsWell _ (hmem b hb) with hcut | hcut | hcut
    · exact Or.inl hcut
    · exact Or.inr (Or.inl hcut)
    · refine Or.inr (Or.inr ?_)
      rw [List.getLast?_map,h.last_of_stop (hmem b hb) hcut]
      obtain ⟨c,-,rfl⟩ := List.mem_map.mp hb
      rfl
  · have htotal : last+1-first=0 := by
      rw [← h.total]
      exact hzero
    omega
  · rw [List.head?_map] at hb
    obtain ⟨c,hc,rfl⟩ := Option.map_eq_some_iff.mp hb
    have hstart := h.starts c hc
    exact ⟨i,hi.stretch,by rw [hstart]; exact hfirst,by rw [hstart]; exact hstop,hi.longest⟩

omit [DecidableEq Client] in
theorem none_right_iff {maxBytes : Nat} {asked : Option Nat} :
    HttpRange.Right gaps taken maxBytes (⟨0,[],asked⟩ : HttpRange Client) ↔
      ∀ x∈union gaps,x∈union taken := by
  constructor
  · intro h
    exact h.onlyZero rfl
  · intro h
    exact
      { contiguous := List.isChain_nil
        ascending := List.Pairwise.nil
        nonempty := fun b hb => absurd hb List.not_mem_nil
        oneGap := Or.inl rfl
        free := fun b hb => absurd hb List.not_mem_nil
        total := rfl
        atMost := Nat.zero_le _
        endsWell := fun b hb => absurd hb List.not_mem_nil
        onlyZero := fun _ => h
        inLongest := fun b hb => nomatch hb }

theorem stretch_of_free {x : Nat} (hx : x∈union gaps) (hfree : x∉union taken) :
    Stretch gaps taken ⟨x,x⟩ := by
  obtain ⟨gap,hgap,hlow,hhigh⟩ := mem_union.mp hx
  refine ⟨Nat.le_refl x,⟨gap,hgap,hlow,hhigh⟩,fun y hy hy' => ?_⟩
  rwa [Nat.le_antisymm hy' hy]

variable {sort : List (Span Client) → List (Span Client)} {gapList : List Interval}
  {requestedBlocks : List (RequestedBlock Client)} {nowTick fileSize maxBytes : Nat} {sender : Client}

omit [DecidableEq Client] in
theorem spans_sorted (hsort : SortsByStart sort)
    (hblocks : ∀ b∈requestedBlocks,b.start≤b.stop) :
    ((sort (requestedBlocks.map fun b => ⟨b.toInterval,b.holder⟩)).map Span.toInterval).Perm
        (requestedBlocks.map RequestedBlock.toInterval) ∧
      ((sort (requestedBlocks.map fun b => ⟨b.toInterval,b.holder⟩)).map
        Span.toInterval).Pairwise (fun a b => a.start≤b.start) ∧
      ∀ t∈requestedBlocks.map RequestedBlock.toInterval, t.start≤t.stop := by
  refine ⟨?_,List.pairwise_map.mpr (hsort.sorted _),fun t ht => ?_⟩
  · refine ((hsort.perm _).map _).trans (List.Perm.of_eq ?_)
    rw [List.map_map]
    rfl
  · obtain ⟨b,hb,rfl⟩ := List.mem_map.mp ht
    exact hblocks b hb

/-- A range handed out is right unless the end of its run leaves uint64; then nothing is handed out
although there is something left. -/
theorem getNextHttpRange_right_iff (hsort : SortsByStart sort) (hwell : WellFormed fileSize gapList)
    (hsize : fileSize ≤ MAX_EMULE_FILE_SIZE) (hblocks : ∀ b ∈ requestedBlocks, b.start ≤ b.stop)
    (hpos : 0 < maxBytes) (hmax : maxBytes < 2 ^ 64) :
    HttpRange.Right gapList (requestedBlocks.map RequestedBlock.toInterval) maxBytes
        (getNextHttpRange sort gapList requestedBlocks nowTick sender maxBytes) ↔
      RunFits sort gapList requestedBlocks sender maxBytes := by
  obtain ⟨hperm,hsorted,hne⟩ := spans_sorted hsort hblocks
  rw [getNextHttpRange,RunFits]
  generalize sort (requestedBlocks.map fun b => ⟨b.toInterval,b.holder⟩)=spans at *
  generalize requestedBlocks.map RequestedBlock.toInterval=taken at *
  rcases sweep_finds hwell hperm hne hsorted with ⟨hzero,hnone⟩ | ⟨hbest,hlen⟩
  · -- no stretch: the answer is zero, and every missing byte is taken
    have hall : ∀ x∈union gapList,x∈union taken := by
      intro x hx
      by_contra hfree
      exact hnone _ (stretch_of_free hx hfree)
    have hright : HttpRange.Right gapList taken maxBytes (⟨0,[],none⟩ : HttpRange Client) :=
      none_right_iff.mpr hall
    refine iff_of_true ?_ fun i hi => absurd hi.stretch (hnone i)
    by_cases hnil : maxBytes=0 ∨ gapList=[]
    · rw [if_pos hnil]
      exact hright
    · simp only [if_neg hnil,if_pos hzero]
      exact hright
  · have hgaps : gapList≠[] := by
      rintro rfl
      obtain ⟨gap,hgap,-⟩ := hbest.stretch.inGap
      exact absurd hgap List.not_mem_nil
    have hfree := hbest.stretch.free
    have hin : (sweep (spans.map Span.toInterval) Best.none gapList).stop<fileSize := by
      obtain ⟨gap,hgap,-,hg2⟩ := hbest.stretch.inGap
      exact Nat.lt_of_le_of_lt hg2 (hwell.inside gap hgap).2
    have hgo : ¬(maxBytes=0 ∨ gapList=[]) := by simp [Nat.ne_of_gt hpos,hgaps]
    generalize hb : sweep (spans.map Span.toInterval) Best.none gapList=best at *
    have hsome : best.len≠0 := by omega
    simp only [if_neg hgo,hb,if_neg hsome]
    have hfits : (∀ i,FirstLongest gapList taken i → runStart spans sender
        ⟨i.start,i.stop,i.stop-i.start+1⟩+maxBytes≤2^64) ↔
        runStart spans sender best+maxBytes≤2^64 := by
      have heq : (⟨best.start,best.stop,best.stop-best.start+1⟩ : Best)=best := by
        rw [← hlen]
      constructor
      · intro h
        simpa only [heq] using h _ hbest
      · intro h i hi
        obtain rfl := hi.unique hbest
        simpa only [heq] using h
    rw [hfits]
    obtain ⟨hlow,hhigh⟩ := @runStart_mem Client _ spans sender best hbest.stretch.nonempty
    generalize runStart spans sender best=first at hlow hhigh ⊢
    have hbig : first<2^38 := by
      have hlimit : MAX_EMULE_FILE_SIZE=2^38 := by decide
      omega
    by_cases hfit : first+maxBytes≤2^64
    · refine iff_of_true ?_ hfit
      rw [Nat.mod_eq_of_lt (by omega)]
      exact (cutRun_isRun _ first).right hbest hlow hhigh (Nat.min_le_left _ _) (by omega)
        (by omega)
    · -- the end wraps round to a byte in front of the start
      refine iff_of_false (fun hright => ?_) hfit
      have hwrap : (first+maxBytes-1)%2^64=first+maxBytes-1-2^64 := by
        rw [Nat.mod_eq_sub_mod (by omega),Nat.mod_eq_of_lt (by omega)]
      rw [hwrap,cutRun_eq_nil (by omega)] at hright
      have hall := none_right_iff.mp hright
      obtain ⟨gap,hgap,hg1,hg2⟩ := hbest.stretch.inGap
      have hne' := hbest.stretch.nonempty
      exact hfree best.start (Nat.le_refl _) hne'
        (hall _ (mem_union.mpr ⟨gap,hgap,hg1,Nat.le_trans hne' hg2⟩))

theorem getNextHttpRange_blocks (hsort : SortsByStart sort) (hwell : WellFormed fileSize gapList)
    (hblocks : ∀ b∈requestedBlocks,b.start≤b.stop) :
    (getNextHttpRange sort gapList requestedBlocks nowTick sender maxBytes).blocks=[] ∨
      ∃ i first last run, Stretch gapList (requestedBlocks.map RequestedBlock.toInterval) i ∧
        i.start≤first ∧ last ≤ i.stop ∧ IsRun first last run ∧
        (getNextHttpRange sort gapList requestedBlocks nowTick sender maxBytes).blocks =
          run.map fun b => ⟨b,some sender,nowTick,false⟩ := by
  obtain ⟨hperm,hsorted,hne⟩ := spans_sorted hsort hblocks
  rw [getNextHttpRange]
  by_cases hnil : maxBytes=0 ∨ gapList=[]
  · rw [if_pos hnil]
    exact Or.inl rfl
  · simp only [if_neg hnil]
    split_ifs with hzero
    · exact Or.inl rfl
    · obtain ⟨hbest,-⟩ := (sweep_finds hwell hperm hne hsorted).resolve_left
        fun hnone => hzero hnone.1
      exact Or.inr ⟨_,_,_,_,hbest.stretch,(runStart_mem hbest.stretch.nonempty).1,
        Nat.min_le_left _ _,cutRun_isRun _ _,rfl⟩

/-- One sort that does. -/
def mergeByStart (l : List (Span Client)) : List (Span Client) :=
  l.mergeSort fun a b => decide (a.start≤b.start)

omit [DecidableEq Client] in
theorem mergeByStart_sorts : SortsByStart (mergeByStart : List (Span Client) → List (Span Client)) := by
  refine ⟨fun l => List.mergeSort_perm l _,fun l => ?_⟩
  have hsorted := @List.pairwise_mergeSort _ (fun a b : Span Client => decide (a.start≤b.start))
    (fun a b c hab hbc => by simp only [decide_eq_true_eq] at *; omega)
    (fun a b => by simp only [Bool.or_eq_true,decide_eq_true_eq]; omega) l
  exact hsorted.imp of_decide_eq_true

theorem getNextHttpRange_right_iff_fourOf :
    HttpRange.Right [⟨2, 9⟩] [] 4 (getNextHttpRange mergeByStart [⟨2, 9⟩] [] 0 () 4) ↔
      RunFits mergeByStart [⟨2, 9⟩] [] () 4 :=
  getNextHttpRange_right_iff mergeByStart_sorts
    ((WellFormed.nil 10).cons ⟨by decide,by decide⟩ fun _ hg => absurd hg List.not_mem_nil)
    (by decide) (fun _ hb => absurd hb List.not_mem_nil) (by decide) (by decide)

/-- Eight bytes are missing, nobody holds them, and a request without a limit gets none. -/
theorem getNextHttpRange_unlimited :
    (getNextHttpRange mergeByStart [⟨2, 9⟩] [] 0 () (2 ^ 64 - 1)).covered = 0 ∧
      ¬HttpRange.Right [⟨2, 9⟩] [] (2 ^ 64 - 1)
        (getNextHttpRange mergeByStart [⟨2, 9⟩] [] 0 () (2 ^ 64 - 1)) := by
  have hnone : getNextHttpRange mergeByStart [⟨2,9⟩] [] 0 () (2^64-1) =
      ⟨0,[],some 0⟩ := by
    have hcut : cutRun 0 2=[] := cutRun_eq_nil (by decide)
    simp [getNextHttpRange,mergeByStart,sweep,sweepGap,consider,Best.none,runStart,hcut,
      PARTSIZE]
  rw [hnone]
  refine ⟨rfl,fun h => ?_⟩
  have htaken := none_right_iff.mp h 2 (mem_union.mpr ⟨⟨2,9⟩,by simp,by decide,by decide⟩)
  exact mem_union_nil htaken

end GetNextHttpRange

end EmuleQt.Files
