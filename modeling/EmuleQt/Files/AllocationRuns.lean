import EmuleQt.Files.BlockAllocation
import Mathlib.Order.CompletePartialOrder

namespace EmuleQt.Files

open Math Math.Interval Utils

/-- Both hold a byte. -/
def Meets (a b : Interval) : Prop := a.start ≤ b.stop ∧ b.start ≤ a.stop

namespace BlockFile

variable {Client : Type}

/-- How many reservations hold a byte. -/
def holders (blocks : List (RequestedBlock Client)) (x : Nat) : Nat :=
  blocks.countP fun b => decide (b.start ≤ x ∧ x ≤ b.stop)

/-- No byte is reserved more than twice, and no source reserves one twice. -/
structure Fair (blocks : List (RequestedBlock Client)) : Prop where
  nonempty : ∀ b ∈ blocks, b.start ≤ b.stop
  twoAtMost : ∀ x, holders blocks x ≤ 2
  notTwice : blocks.Pairwise fun a b => ∀ client, a.holder = some client → b.holder = some client →
    ¬Meets a.toInterval b.toInterval

/-- One block handed out: apart from every reservation, or late in the download and meeting one that
is another source's. `checked` says that the buffers were looked at. -/
structure Grant (phase : EndPhase) (checked : Prop) (f : BlockFile Client)
    (b : RequestedBlock Client) : Prop where
  inPartGap : InPartGap f b.toInterval
  apart : (∀ r ∈ f.requestedBlocks, ¬Meets r.toInterval b.toInterval) ∨
    (phase ≠ .Normal ∧ ∃ pre held post, f.requestedBlocks = pre ++ held :: post ∧
      held.holder ≠ b.holder ∧ ∀ r ∈ pre ++ post, ¬Meets r.toInterval b.toInterval)
  unbuffered : checked → ∀ x, b.start ≤ x → x ≤ b.stop → x ∉ union f.buffered

/-- The blocks of one call, each put on the list before the next is looked for. -/
inductive Grants (phase : EndPhase) (checked : Prop) (f : BlockFile Client) :
    List (RequestedBlock Client) → BlockFile Client → Prop
  | nil : Grants phase checked f [] f
  | snoc {blocks : List (RequestedBlock Client)} {g : BlockFile Client}
      {b : RequestedBlock Client} : Grants phase checked f blocks g → Grant phase checked g b →
      Grants phase checked f (blocks ++ [b]) (g.reserve b)

section Grants

variable {phase : EndPhase} {checked : Prop} {f g : BlockFile Client} {b : RequestedBlock Client}
  {blocks : List (RequestedBlock Client)} {x : Nat}

theorem holders_append (l l' : List (RequestedBlock Client)) (x : Nat) :
    holders (l++l') x=holders l x+holders l' x := List.countP_append

theorem holders_cons (b : RequestedBlock Client) (l : List (RequestedBlock Client)) (x : Nat) :
    holders (b::l) x=holders l x+if b.start≤x ∧ x≤b.stop then 1 else 0 := by
  rw [holders,List.countP_cons,holders]
  simp only [decide_eq_true_eq]

theorem holders_eq_zero (h : ∀ r∈blocks,¬Meets r.toInterval b.toInterval)
    (hx : b.start≤x ∧ x≤b.stop) : holders blocks x=0 := by
  refine List.countP_eq_zero.mpr fun r hr hcover => h r hr ?_
  have hr' := of_decide_eq_true hcover
  exact ⟨by omega,by omega⟩

theorem Grant.fair (h : Grant phase checked f b) (hfair : Fair f.requestedBlocks) :
    Fair (f.reserve b).requestedBlocks := by
  refine ⟨?_,?_,?_⟩
  · intro r hr
    rcases List.mem_append.mp hr with hr | hr
    · exact hfair.nonempty r hr
    · rw [List.mem_singleton.mp hr]
      exact h.inPartGap.nonempty
  · intro x
    have hsplit : holders (f.reserve b).requestedBlocks x =
        holders f.requestedBlocks x+if b.start≤x ∧ x≤b.stop then 1 else 0 := by
      rw [reserve,holders_append,holders_cons]
      simp [holders]
    have htwo := hfair.twoAtMost x
    rw [hsplit]
    by_cases hx : b.start≤x ∧ x≤b.stop
    · rw [if_pos hx]
      rcases h.apart with hnone | ⟨-,pre,held,post,hlist,-,hothers⟩
      · have hzero := holders_eq_zero hnone hx
        omega
      · -- only the one held before it can hold this byte too
        have hpre := holders_eq_zero (fun r hr => hothers r (List.mem_append_left _ hr)) hx
        have hpost := holders_eq_zero (fun r hr => hothers r (List.mem_append_right _ hr)) hx
        rw [hlist,holders_append,holders_cons,hpre,hpost]
        split_ifs <;> omega
    · rw [if_neg hx]
      exact htwo
  · refine List.pairwise_append.mpr ⟨hfair.notTwice,List.pairwise_singleton _ _,?_⟩
    intro r hr c hc client hrc hcc hmeet
    rw [List.mem_singleton.mp hc] at hcc hmeet
    rcases h.apart with hnone | ⟨-,pre,held,post,hlist,hother,hothers⟩
    · exact hnone r hr hmeet
    · rw [hlist] at hr
      rcases List.mem_append.mp hr with hr | hr
      · exact hothers r (List.mem_append_left _ hr) hmeet
      · rcases List.mem_cons.mp hr with rfl | hr
        · exact hother (hrc.trans hcc.symm)
        · exact hothers r (List.mem_append_right _ hr) hmeet

theorem Grants.same (h : Grants phase checked f blocks g) :
    g.gapList=f.gapList ∧ g.fileSize=f.fileSize ∧ g.buffered=f.buffered ∧
      g.requestedBlocks=f.requestedBlocks++blocks := by
  induction h with
  | nil => exact ⟨rfl,rfl,rfl,(List.append_nil _).symm⟩
  | snoc _ _ ih =>
    obtain ⟨h1,h2,h3,h4⟩ := ih
    refine ⟨h1,h2,h3,?_⟩
    rw [reserve,h4,List.append_assoc]

theorem Grants.fair (h : Grants phase checked f blocks g) (hfair : Fair f.requestedBlocks) :
    Fair g.requestedBlocks := by
  induction h with
  | nil => exact hfair
  | snoc _ hgrant ih => exact hgrant.fair ih

theorem Grants.inPartGap (h : Grants phase checked f blocks g) :
    ∀ b∈blocks,InPartGap f b.toInterval := by
  induction h with
  | nil => exact fun b hb => absurd hb List.not_mem_nil
  | snoc hrest hgrant ih =>
    intro b hb
    rcases List.mem_append.mp hb with hb | hb
    · exact ih b hb
    · obtain ⟨h1,h2,hgap⟩ := hgrant.inPartGap
      rw [hrest.same.1] at hgap
      rw [List.mem_singleton.mp hb]
      exact ⟨h1,h2,hgap⟩

theorem Grants.unbuffered (h : Grants phase checked f blocks g) (hchecked : checked) :
    ∀ b∈blocks,∀ x,b.start≤x → x≤b.stop → x∉union f.buffered := by
  induction h with
  | nil => exact fun b hb => absurd hb List.not_mem_nil
  | snoc hrest hgrant ih =>
    intro b hb
    rcases List.mem_append.mp hb with hb | hb
    · exact ih b hb
    · have hfree := hgrant.unbuffered hchecked
      rw [hrest.same.2.2.1] at hfree
      rw [List.mem_singleton.mp hb]
      exact hfree

theorem grants_of_apart (hin : ∀ b∈blocks,InPartGap f b.toInterval)
    (hpair : blocks.Pairwise fun a b => ¬Meets a.toInterval b.toInterval)
    (hapart : ∀ b∈blocks,∀ r∈f.requestedBlocks,¬Meets r.toInterval b.toInterval) :
    Grants .Normal False f blocks { f with requestedBlocks := f.requestedBlocks++blocks } := by
  induction blocks using List.reverseRecOn with
  | nil =>
    have hsame : { f with requestedBlocks := f.requestedBlocks++[] } = f := by
      rw [List.append_nil]
    rw [hsame]
    exact .nil
  | append_singleton blocks b ih =>
    obtain ⟨hpair',-,hlast⟩ := List.pairwise_append.mp hpair
    have hrest := ih (fun c hc => hin c (List.mem_append_left _ hc)) hpair'
      fun c hc => hapart c (List.mem_append_left _ hc)
    have hb : b∈blocks++[b] := List.mem_append_right _ (List.mem_singleton.mpr rfl)
    have hgrant : Grant .Normal False
        { f with requestedBlocks := f.requestedBlocks++blocks } b := by
      refine ⟨⟨(hin b hb).nonempty,(hin b hb).onePart,(hin b hb).inGap⟩,Or.inl ?_,
        fun hfalse => absurd hfalse id⟩
      intro r hr
      rcases List.mem_append.mp hr with hr | hr
      · exact hapart b hb r hr
      · exact hlast r hr b (List.mem_singleton.mpr rfl)
    have hsnoc := hrest.snoc hgrant
    rw [reserve] at hsnoc
    simpa only [List.append_assoc] using hsnoc

end Grants

section Selection

variable [DecidableEq Client] {f : BlockFile Client} {env : AllocEnv Client} {sender : Client}
  {phase : EndPhase} {r : Interval}

theorem heldBy_some {held held' : RequestedBlock Client} {blocks : List (RequestedBlock Client)}
    (h : heldBy sender r (some held) blocks=some (some held')) :
    held'=held ∧ ∀ b∈blocks,¬Meets b.toInterval r := by
  induction blocks with
  | nil =>
    obtain rfl := Option.some.inj (Option.some.inj h)
    exact ⟨rfl,fun b hb => absurd hb List.not_mem_nil⟩
  | cons block blocks ih =>
    rw [heldBy] at h
    by_cases hout : block.start>r.stop ∨ block.stop<r.start
    · rw [if_pos hout] at h
      obtain ⟨heq,hrest⟩ := ih h
      refine ⟨heq,fun b hb hmeet => ?_⟩
      rcases List.mem_cons.mp hb with rfl | hb
      · obtain ⟨h1,h2⟩ := hmeet
        omega
      · exact hrest b hb hmeet
    · rw [if_neg hout,if_pos (Or.inl (by simp))] at h
      exact nomatch h

theorem heldBy_none {held : RequestedBlock Client} {blocks : List (RequestedBlock Client)}
    (h : heldBy sender r none blocks=some (some held)) :
    ∃ pre post, blocks=pre++held::post ∧ held.holder≠some sender ∧
      ∀ b∈pre++post,¬Meets b.toInterval r := by
  induction blocks with
  | nil => exact nomatch h
  | cons block blocks ih =>
    rw [heldBy] at h
    by_cases hout : block.start>r.stop ∨ block.stop<r.start
    · rw [if_pos hout] at h
      obtain ⟨pre,post,hlist,hother,hrest⟩ := ih h
      refine ⟨block::pre,post,by rw [hlist,List.cons_append],hother,fun b hb hmeet => ?_⟩
      rcases List.mem_cons.mp hb with rfl | hb
      · obtain ⟨h1,h2⟩ := hmeet
        omega
      · exact hrest b hb hmeet
    · rw [if_neg hout] at h
      by_cases hsame : (none : Option (RequestedBlock Client))≠none ∨ block.holder=some sender
      · rw [if_pos hsame] at h
        exact nomatch h
      · rw [if_neg hsame] at h
        obtain ⟨rfl,hrest⟩ := heldBy_some h
        exact ⟨[],blocks,rfl,fun heq => hsame (Or.inr heq),hrest⟩

theorem maySecondSourceTake_held (h : f.maySecondSourceTake env sender r phase=true) :
    ∃ pre held post, f.requestedBlocks=pre++held::post ∧ held.holder≠some sender ∧
      ∀ b∈pre++post,¬Meets b.toInterval r := by
  rw [maySecondSourceTake] at h
  split at h
  · exact nomatch h
  · exact nomatch h
  · next held hscan =>
    obtain ⟨pre,post,hfound⟩ := heldBy_none hscan
    exact ⟨pre,held,post,hfound⟩

/-- What `nextFreeBlock` answers with. -/
structure Usable (f : BlockFile Client) (env : AllocEnv Client) (sender : Client)
    (phase : EndPhase) (r : Interval) : Prop where
  inPartGap : InPartGap f r
  free : (∀ x, r.start ≤ x → x ≤ r.stop →
      x ∉ union (f.reserved ++ f.bufferedData ++ f.flushingData)) ∨
    (phase ≠ .Normal ∧ f.maySecondSourceTake env sender r phase = true)

theorem tryBlock_usable (hfair : Fair f.requestedBlocks) {probe : Interval}
    (hprobe : InPartGap f probe) {old : Option Interval}
    (h : (f.tryBlock env sender phase old probe).1=some r) : Usable f env sender phase r := by
  have htaken : AllNonempty (f.reserved++f.bufferedData++f.flushingData) := by
    intro t ht
    rw [List.append_assoc] at ht
    rcases List.mem_append.mp ht with ht | ht
    · obtain ⟨b,hb,rfl⟩ := List.mem_map.mp ht
      exact hfair.nonempty b hb
    · exact f.buffers t ht
  rw [tryBlock] at h
  split at h
  · next r' hshrink =>
    obtain rfl := Option.some.inj h
    have htrue : (shrinkAll (f.reserved++f.bufferedData++f.flushingData) probe).1=true :=
      congrArg Prod.fst hshrink
    have hpart := shrinkAll_freePart htaken hprobe.nonempty htrue
    have hsnd : (shrinkAll (f.reserved++f.bufferedData++f.flushingData) probe).2=r' :=
      congrArg Prod.snd hshrink
    rw [hsnd] at hpart
    exact ⟨hprobe.sub hpart.low hpart.nonempty hpart.high,Or.inl hpart.free⟩
  · split_ifs at h with hsecond
    obtain rfl := Option.some.inj h
    exact ⟨hprobe,Or.inr hsecond⟩

theorem nextFreeBlock_usable (hfair : Fair f.requestedBlocks) {partNum searchFrom : Nat}
    (h : f.nextFreeBlock env sender phase partNum searchFrom=some r) :
    Usable f env sender phase r := by
  have hkeeps : ∀ r,f.nextFreeBlock env sender phase partNum searchFrom=some r →
      Usable f env sender phase r := by
    apply walkBlocks_keeps (I := fun s => ∀ r,s=some r → Usable f env sender phase r)
    · intro from' b s hnext _ r hr
      exact tryBlock_usable hfair (getNextEmptyBlockInPart_spec hnext).inPartGap hr
    · intro r hr
      exact nomatch hr
  exact hkeeps r h

theorem Usable.grant (h : Usable f env sender phase r) (hfair : Fair f.requestedBlocks) {stop : Nat}
    (hlow : r.start ≤ stop) (hhigh : stop≤r.stop) {tick : Nat} :
    Grant phase (phase = .Normal) f ⟨⟨r.start,stop⟩,some sender,tick,false⟩ := by
  have hin : InPartGap f ⟨r.start,stop⟩ := h.inPartGap.sub (Nat.le_refl _) hlow hhigh
  have hsub : ∀ b : Interval, Meets b ⟨r.start,stop⟩ → Meets b r :=
    fun b hmeet => ⟨Nat.le_trans hmeet.1 hhigh,hmeet.2⟩
  rcases h.free with hfree | ⟨hlate,hsecond⟩
  · refine ⟨hin,Or.inl fun b hb hmeet => ?_,fun _ x hx hx' hmem => ?_⟩
    · obtain ⟨h1,h2⟩ := hsub _ hmeet
      have hb' := hfair.nonempty b hb
      refine hfree (max b.start r.start) (Nat.le_max_right _ _) (by omega) ?_
      refine mem_union.mpr ⟨b.toInterval,?_,Nat.le_max_left _ _,by omega⟩
      exact List.mem_append_left _ (List.mem_append_left _ (List.mem_map.mpr ⟨b,hb,rfl⟩))
    · refine hfree x hx (Nat.le_trans hx' hhigh) ?_
      rw [List.append_assoc]
      exact mem_union_append.mpr (Or.inr hmem)
  · obtain ⟨pre,held,post,hlist,hother,hrest⟩ := maySecondSourceTake_held hsecond
    exact ⟨hin,Or.inr ⟨hlate,pre,held,post,hlist,hother,
      fun b hb hmeet => hrest b hb (hsub _ hmeet)⟩,fun hnormal => absurd hnormal hlate⟩

/-- The blocks found so far were granted one after the other. -/
def Round.Ok (phase : EndPhase) (f : BlockFile Client) (a : Round Client) : Prop :=
  Grants phase (phase = .Normal) f a.newblocks a.file

theorem allocateLoop_ok (hfair : Fair f.requestedBlocks) {partNum limit : Nat} (left : Nat) :
    ∀ (searchFrom : Nat) (a : Round Client), a.Ok phase f →
      (allocateLoop env sender phase partNum limit left searchFrom a).Ok phase f := by
  induction left with
  | zero => exact fun _ _ ha => ha
  | succ left ih =>
    intro searchFrom a ha
    rw [allocateLoop]
    split
    · exact ha
    · next r hnext =>
      have husable := nextFreeBlock_usable (ha.fair hfair) hnext
      have hne := husable.inPartGap.nonempty
      have hpush : ∀ stop,r.start ≤ stop → stop≤r.stop →
          (a.push ⟨⟨r.start,stop⟩,some sender,env.nowTick,false⟩).Ok phase f :=
        fun stop hlow hhigh => Grants.snoc ha (husable.grant (ha.fair hfair) hlow hhigh)
      by_cases hlimit : limit>0
      · simp only [hlimit,true_and,if_true]
        split_ifs with hlong
        · exact hpush _ (by omega) (by omega)
        · exact hpush _ hne (Nat.le_refl _)
      · simp only [hlimit,false_and,if_false]
        exact ih _ _ (hpush _ hne (Nat.le_refl _))

theorem allocateFromPart_ok (hfair : Fair f.requestedBlocks) {partNum : Nat} {a : Round Client}
    (ha : a.Ok phase f) : (allocateFromPart env sender phase partNum a).Ok phase f :=
  allocateLoop_ok hfair _ 0 a ha

theorem allocateRanked_ok (hfair : Fair f.requestedBlocks) (candidates : List PartCandidate) :
    ∀ a : Round Client × Nat, a.1.Ok phase f →
      (allocateRanked env sender phase candidates a).1.Ok phase f := by
  induction candidates with
  | nil => exact fun _ ha => ha
  | cons cand rest ih =>
    intro a ha
    rw [allocateRanked]
    split_ifs with hdone
    · exact ha
    · exact ih _ (allocateFromPart_ok hfair ha)

theorem getNextRequestedBlock_ok (hfair : Fair f.requestedBlocks) (count : Nat) :
    (f.getNextRequestedBlock env sender count).1.Ok
      (endPhase f.fileSize (totalGapSize f.gapList) env.datarate) f := by
  have hstart : (⟨f,[],count⟩ : Round Client).Ok
      (endPhase f.fileSize (totalGapSize f.gapList) env.datarate) f := Grants.nil
  rw [getNextRequestedBlock]
  simp only
  split_ifs
  all_goals first
    | exact hstart
    | exact allocateFromPart_ok hfair hstart
    | exact allocateRanked_ok hfair _ _ hstart
    | exact allocateRanked_ok hfair _ _ (allocateFromPart_ok hfair hstart)

end Selection

end BlockFile

open Math Math.Interval Utils

/-- What takes blocks of a file, or gives them back. -/
inductive AllocCall (Client : Type) where
  | getNextRequestedBlock (env : AllocEnv Client) (sender : Client) (count : Nat)
  | getNextHttpRange (sort : List (Span Client) → List (Span Client)) (sorts : SortsByStart sort)
      (nowTick : Nat) (sender : Client) (maxBytes : Nat)
  | reservePartForExternalTransfer (partNumber : Nat)
  | removeBlockFromList (start stop : Nat)
  /-- `removeBlockFromList` of one entry. -/
  | removeBlock (index : Nat)
  | releaseReservedBlocks (blocks : List (RequestedBlock Client))

namespace BlockFile

variable {Client : Type}

section Allocators

variable {f : BlockFile Client}

theorem not_meets_of_free {r b : Interval} {taken : List Interval} (hr : r∈taken)
    (hne : r.start≤r.stop) (hb : b.start≤b.stop)
    (hfree : ∀ x,b.start≤x → x≤b.stop → x∉union taken) : ¬Meets r b := by
  intro ⟨h1,h2⟩
  exact hfree (max r.start b.start) (Nat.le_max_right _ _) (by omega)
    (mem_union.mpr ⟨r,hr,Nat.le_max_left _ _,by omega⟩)

theorem not_meets_of_not_requested {r : Interval} (hr : ¬f.isAlreadyRequested r.start r.stop=true) :
    ∀ b∈f.requestedBlocks,¬Meets b.toInterval r := by
  intro b hb hmeet
  exact hr (List.any_eq_true.mpr ⟨b,hb,decide_eq_true ⟨hmeet.1,hmeet.2⟩⟩)

theorem reservePart_grants (partNumber : Nat) :
    Grants .Normal False f (f.reservePartForExternalTransfer partNumber).2
      (f.reservePartForExternalTransfer partNumber).1 := by
  rw [reservePartForExternalTransfer]
  split_ifs with hdone
  · exact .nil
  · apply walkBlocks_keeps (I := fun a : BlockFile Client × List (RequestedBlock Client) =>
      Grants .Normal False f a.2 a.1)
    · intro searchFrom r a hnext ha
      have hin := (getNextEmptyBlockInPart_spec hnext).inPartGap
      rw [reserveBlock]
      by_cases hheld : a.1.isAlreadyRequested r.start r.stop=true
      · rw [if_pos hheld]
        exact ha
      · rw [if_neg hheld]
        have hgap : InPartGap a.1 r := by
          obtain ⟨h1,h2,h3⟩ := hin
          rw [← ha.same.1] at h3
          exact ⟨h1,h2,h3⟩
        exact ha.snoc ⟨hgap,Or.inl (not_meets_of_not_requested hheld),
          fun hfalse => absurd hfalse id⟩
    · exact .nil

variable [DecidableEq Client]

theorem getNextHttpRange_grants (hfair : Fair f.requestedBlocks)
    {sort : List (Span Client) → List (Span Client)} (hsort : SortsByStart sort)
    (nowTick : Nat) (sender : Client) (maxBytes : Nat) :
    let out := (getNextHttpRange sort f.gapList f.requestedBlocks nowTick sender maxBytes).blocks
    Grants .Normal False f out { f with requestedBlocks := f.requestedBlocks++out } := by
  intro out
  have hblocks := @getNextHttpRange_blocks Client _ sort f.gapList f.requestedBlocks nowTick
    f.fileSize maxBytes sender hsort f.gaps hfair.nonempty
  rcases hblocks with hnone | ⟨i,first,last,run,hstretch,hfirst,hlast,hrun,heq⟩
  · refine grants_of_apart (fun b hb => ?_) ?_ fun b hb => ?_
    · exact absurd hb (by simp [out,hnone])
    · simp [out,hnone]
    · exact absurd hb (by simp [out,hnone])
  · obtain ⟨gap,hgap,hg1,hg2⟩ := hstretch.inGap
    have hmem : ∀ b∈out,b.toInterval∈run := by
      intro b hb
      simp only [out,heq] at hb
      obtain ⟨c,hc,rfl⟩ := List.mem_map.mp hb
      exact hc
    refine grants_of_apart (fun b hb => ?_) ?_ fun b hb r hr => ?_
    · have hin := hrun.inside _ (hmem b hb)
      exact ⟨hin.2.1,hrun.onePart _ (hmem b hb),gap,hgap,by omega,by omega⟩
    · have hasc : out.Pairwise fun a b => a.stop<b.start := by
        simp only [out,heq]
        exact List.pairwise_map.mpr hrun.ascending
      refine hasc.imp fun {a b} hlt hmeet => ?_
      have hback := hmeet.2
      omega
    · have hin := hrun.inside _ (hmem b hb)
      exact not_meets_of_free (List.mem_map.mpr ⟨r,hr,rfl⟩) (hfair.nonempty r hr) hin.2.1
        fun x hx hx' => hstretch.free x (by omega) (by omega)

/-- A call, with the blocks it hands out. -/
def perform (f : BlockFile Client) : AllocCall Client → BlockFile Client × List (RequestedBlock Client)
  | .getNextRequestedBlock env sender count =>
    let round := (f.getNextRequestedBlock env sender count).1
    (round.file, round.newblocks)
  | .getNextHttpRange sort _ nowTick sender maxBytes =>
    let out := (getNextHttpRange sort f.gapList f.requestedBlocks nowTick sender maxBytes).blocks
    ({ f with requestedBlocks := f.requestedBlocks ++ out }, out)
  | .reservePartForExternalTransfer partNumber => f.reservePartForExternalTransfer partNumber
  | .removeBlockFromList start stop => (f.removeBlockFromList start stop, [])
  | .removeBlock index => ({ f with requestedBlocks := f.requestedBlocks.eraseIdx index }, [])
  | .releaseReservedBlocks blocks => (f.releaseReservedBlocks blocks, [])

/-- The phase a call doubles reservations by; only `getNextRequestedBlock` looks at one. -/
def callPhase (f : BlockFile Client) : AllocCall Client → EndPhase
  | .getNextRequestedBlock env _ _ =>
    endPhase f.fileSize (totalGapSize f.gapList) env.datarate
  | _ => .Normal

/-- The calls that only hand out what they shrank around the buffers. -/
def LooksAtBuffers (f : BlockFile Client) : AllocCall Client → Prop
  | .getNextRequestedBlock env _ _ =>
    endPhase f.fileSize (totalGapSize f.gapList) env.datarate = .Normal
  | _ => False

/-- The reservations are the same, whatever else was written, verified or measured. -/
def SameReservations (f g : BlockFile Client) : Prop :=
  g.requestedBlocks.map (fun b => (b.toInterval, b.holder)) =
    f.requestedBlocks.map fun b => (b.toInterval, b.holder)

/-- Any mix of calls, from a file without reservations; between them the rest of the file may change. -/
inductive Reachable : BlockFile Client → Prop
  | start (f : BlockFile Client) : f.requestedBlocks = [] → Reachable f
  | perform {f : BlockFile Client} (call : AllocCall Client) : Reachable f →
      Reachable (f.perform call).1
  | change {f : BlockFile Client} (g : BlockFile Client) : SameReservations f g → Reachable f →
      Reachable g

omit [DecidableEq Client] in
theorem Fair.sublist {l l' : List (RequestedBlock Client)} (h : Fair l) (hsub : l'.Sublist l) :
    Fair l' :=
  ⟨fun b hb => h.nonempty b (hsub.subset hb),
    fun x => Nat.le_trans (hsub.countP_le) (h.twoAtMost x),h.notTwice.sublist hsub⟩

omit [DecidableEq Client] in
theorem releaseReservedBlocks_sublist (blocks : List (RequestedBlock Client)) :
    ∀ f : BlockFile Client,
      (f.releaseReservedBlocks blocks).requestedBlocks.Sublist f.requestedBlocks := by
  induction blocks with
  | nil => exact fun f => List.Sublist.refl _
  | cons b blocks ih =>
    intro f
    exact (ih (f.removeBlockFromList b.start b.stop)).trans List.eraseP_sublist

omit [DecidableEq Client] in
theorem Fair.of_same {g : BlockFile Client} (h : Fair f.requestedBlocks)
    (hsame : SameReservations f g) : Fair g.requestedBlocks := by
  have hkey : ∀ l : List (RequestedBlock Client), Fair l ↔
      (∀ k∈l.map (fun b => (b.toInterval, b.holder)), k.1.start≤k.1.stop) ∧
      (∀ x,(l.map (fun b => (b.toInterval, b.holder))).countP
        (fun k => decide (k.1.start≤x ∧ x≤k.1.stop))≤2) ∧
      (l.map (fun b => (b.toInterval, b.holder))).Pairwise fun a b =>
        ∀ client,a.2=some client → b.2=some client → ¬Meets a.1 b.1 := by
    intro l
    simp only [List.forall_mem_map,List.countP_map,List.pairwise_map]
    exact ⟨fun h => ⟨h.nonempty,h.twoAtMost,h.notTwice⟩,fun h => ⟨h.1,h.2.1,h.2.2⟩⟩
  rw [hkey,hsame,← hkey]
  exact h

theorem perform_cases (hfair : Fair f.requestedBlocks) (call : AllocCall Client) :
    Grants (f.callPhase call) (f.LooksAtBuffers call) f (f.perform call).2 (f.perform call).1 ∨
      ((f.perform call).2=[] ∧
        (f.perform call).1.requestedBlocks.Sublist f.requestedBlocks) := by
  cases call with
  | getNextRequestedBlock env sender count =>
    exact Or.inl (getNextRequestedBlock_ok hfair count)
  | getNextHttpRange sort sorts nowTick sender maxBytes =>
    exact Or.inl (getNextHttpRange_grants hfair sorts nowTick sender maxBytes)
  | reservePartForExternalTransfer partNumber => exact Or.inl (reservePart_grants partNumber)
  | removeBlockFromList start stop => exact Or.inr ⟨rfl,List.eraseP_sublist⟩
  | removeBlock index => exact Or.inr ⟨rfl,List.eraseIdx_sublist _ _⟩
  | releaseReservedBlocks blocks => exact Or.inr ⟨rfl,releaseReservedBlocks_sublist blocks f⟩

theorem Reachable.fair (h : Reachable f) : Fair f.requestedBlocks := by
  induction h with
  | start f hnone =>
    rw [hnone]
    exact ⟨fun b hb => absurd hb List.not_mem_nil,fun x => Nat.zero_le 2,List.Pairwise.nil⟩
  | perform call _ ih =>
    rcases perform_cases ih call with hgrants | ⟨-,hsub⟩
    · exact hgrants.fair ih
    · exact ih.sublist hsub
  | change g hsame _ ih => exact ih.of_same hsame

end Allocators

end BlockFile

end EmuleQt.Files
