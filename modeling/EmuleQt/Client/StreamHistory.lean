import EmuleQt.Client.ReservationRuns

namespace EmuleQt.Client

open Crypto Framework Utils

/-- Data that was handed to the file for a block, and whether the file took it. -/
structure HandedPiece where
  start : Nat
  data : List UInt8
  accepted : Bool

def written (pieces : List HandedPiece) : List UInt8 := pieces.flatMap (·.data)

/-- Every piece begins where the one before it ends. -/
def Consecutive : Nat → List HandedPiece → Prop
  | _, [] => True
  | start, p :: pieces => p.start = start ∧ Consecutive (start + p.data.length) pieces

theorem consecutive_concat {pieces : List HandedPiece} {start : Nat} {p : HandedPiece} :
    Consecutive start (pieces++[p]) ↔
      Consecutive start pieces ∧ p.start=start+(written pieces).length := by
  induction pieces generalizing start with
  | nil => simp [Consecutive,written]
  | cons q pieces ih =>
    have hlen : (written (q::pieces)).length=q.data.length+(written pieces).length :=
      List.length_append
    rw [List.cons_append,Consecutive,Consecutive,ih,and_assoc,hlen,Nat.add_assoc]

theorem written_concat (pieces : List HandedPiece) (p : HandedPiece) :
    written (pieces++[p])=written pieces++p.data := by
  rw [written,List.flatMap_append,List.flatMap_singleton,written]

theorem mem_consecutive {pieces : List HandedPiece} {start : Nat} {p : HandedPiece}
    (h : Consecutive start pieces) (hp : p∈pieces) :
    start≤p.start ∧ p.start+p.data.length ≤ start+(written pieces).length := by
  induction pieces generalizing start with
  | nil => cases hp
  | cons q pieces ih =>
    obtain ⟨rfl,hrest⟩ := h
    have hlen : (written (q::pieces)).length=q.data.length+(written pieces).length :=
      List.length_append
    rcases List.mem_cons.mp hp with rfl | hp
    · omega
    · have := ih hrest hp
      omega

namespace StreamEvent

/-- The part of an event that is compressed data for the block. -/
def zippedFor (r : Reservation) : StreamEvent → List UInt8
  | fed block zipped => if block=r then zipped else []
  | handed _ _ _ _ => []

def pieceFor (r : Reservation) : StreamEvent → Option HandedPiece
  | fed _ _ => none
  | handed block start data accepted =>
    if block=r then some ⟨start,data,accepted⟩ else none

end StreamEvent

namespace DownloadClient

variable {z : Inflate} {File : Type} {s s' s'' : DownloadClient z File} {f : File}
  {r : Reservation}

/-- All that has gone into a block's stream. -/
def fed (s : DownloadClient z File) (r : Reservation) : List UInt8 :=
  s.history.flatMap (·.zippedFor r)

/-- All that was handed to the file for a block, oldest first. -/
def pieces (s : DownloadClient z File) (r : Reservation) : List HandedPiece :=
  s.history.filterMap (·.pieceFor r)

/-- A step that leaves the streams alone: blocks may go, and new ones come. -/
structure Kept (s s' : DownloadClient z File) : Prop where
  history : s'.history = s.history
  nextId : s.nextId ≤ s'.nextId
  pending : ∀ p ∈ s'.pendingBlocks,
    (∃ q ∈ s.pendingBlocks, p = { q with queued := p.queued }) ∨
      ∃ b : Reservation, s.nextId ≤ b.id ∧ p = { PendingBlock.fresh b with queued := p.queued }

theorem kept_of_subset (hhistory : s'.history=s.history) (hnext : s'.nextId=s.nextId)
    (hpending : ∀ p∈s'.pendingBlocks,p∈s.pendingBlocks) : Kept s s' :=
  ⟨hhistory,hnext.ge,fun p hp => .inl ⟨p,hpending p hp,rfl⟩⟩

theorem Kept.refl (s : DownloadClient z File) : Kept s s := kept_of_subset rfl rfl fun _ hp => hp

theorem Kept.trans (h : Kept s s') (h' : Kept s' s'') : Kept s s'' := by
  refine ⟨h'.history.trans h.history,Nat.le_trans h.nextId h'.nextId,fun p hp => ?_⟩
  obtain ⟨q,hq,hpq⟩ | ⟨b,hb,hpb⟩ := h'.pending p hp
  · obtain ⟨q',hq',hqq'⟩ | ⟨b,hb,hqb⟩ := h.pending q hq
    · exact .inl ⟨q',hq',by rw [hpq,hqq']⟩
    · exact .inr ⟨b,hb,by rw [hpq,hqb]⟩
  · exact .inr ⟨b,Nat.le_trans h.nextId hb,hpb⟩

theorem Kept.of_nil (h : Kept s s') (hnil : s'.pendingBlocks=[])
    (hhistory : s''.history=s.history) (hnext : s''.nextId=s.nextId) : Kept s'' s' := by
  refine ⟨h.history.trans hhistory.symm,hnext ▸ h.nextId,fun p hp => ?_⟩
  rw [hnil] at hp
  cases hp

theorem Kept.blocks (h : Kept s s') {b : Reservation} (hb : b∈s'.blocks) :
    b∈s.blocks ∨ s.nextId≤b.id := by
  obtain ⟨p,hp,rfl⟩ := List.mem_map.mp hb
  obtain ⟨q,hq,hpq⟩ | ⟨b,hb,hpb⟩ := h.pending p hp
  · have hblock : p.block=q.block := by rw [hpq]
    exact .inl (hblock ▸ List.mem_map_of_mem hq)
  · have hblock : p.block=b := by
      rw [hpb]
      rfl
    exact .inr (hblock ▸ hb)

theorem kept_sendCancelTransfer (s : DownloadClient z File) : Kept s s.sendCancelTransfer :=
  kept_of_subset rfl rfl fun _ hp => hp

theorem kept_shorter (s : DownloadClient z File) (before after : List (PendingBlock z))
    (cur : PendingBlock z) :
    Kept { s with pendingBlocks := before++cur::after }
      { s with pendingBlocks := before++after } := by
  refine kept_of_subset rfl rfl fun p hp => ?_
  rcases List.mem_append.mp hp with hp | hp
  · exact List.mem_append_left _ hp
  · exact List.mem_append_right _ (List.mem_cons_of_mem _ hp)

variable [DecidableEq File]

theorem kept_removeBlockFromList (s : DownloadClient z File) (f : File) (r : Reservation) :
    Kept s (s.removeBlockFromList f r) := kept_of_subset rfl rfl fun _ hp => hp

theorem kept_clear (s : DownloadClient z File) : Kept s s.clearDownloadBlockRequests := by
  have hfold : ∀ (f : File) (ps : List (PendingBlock z)) (s : DownloadClient z File),
      Kept s (ps.foldl (fun (s : DownloadClient z File) (p : PendingBlock z) =>
        s.removeBlockFromList f p.block) s) := by
    intro f ps
    induction ps with
    | nil => exact Kept.refl
    | cons p ps ih => exact fun s => (kept_removeBlockFromList s f p.block).trans (ih _)
  unfold clearDownloadBlockRequests
  cases s.reqFile with
  | none => exact kept_of_subset rfl rfl nofun
  | some f => exact (hfold f s.pendingBlocks s).trans (kept_of_subset rfl rfl nofun)

theorem kept_setDownloadState (s : DownloadClient z File) (state : DownloadState) :
    Kept s (s.setDownloadState state) := by
  unfold setDownloadState
  split_ifs
  · exact Kept.refl s
  · have hquiet : Kept s { s with unmatchedPackets := 0, abandonedBlocks := [] } :=
      kept_of_subset rfl rfl fun _ hp => hp
    exact (hquiet.trans (kept_clear _)).trans (kept_of_subset rfl rfl fun _ hp => hp)
  · exact kept_of_subset rfl rfl fun _ hp => hp

theorem kept_setReqFile (s : DownloadClient z File) (f : Option File) :
    Kept s (s.setReqFile f) := by
  unfold setReqFile
  by_cases hswitch : s.reqFile.isSome ∧ s.reqFile≠f ∧ s.pendingBlocks≠[]
  · rw [if_pos hswitch]
    exact (kept_clear s).trans (kept_of_subset rfl rfl fun _ hp => hp)
  · rw [if_neg hswitch]
    exact kept_of_subset rfl rfl fun _ hp => hp

theorem kept_doSwap (s : DownloadClient z File) (swapTo : Option File) :
    Kept s (s.doSwap swapTo).1 := by
  unfold doSwap
  cases swapTo with
  | none => exact Kept.refl s
  | some file =>
    cases s.reqFile with
    | none => exact Kept.refl s
    | some oldFile =>
      dsimp only
      split_ifs
      · exact Kept.refl s
      · exact ((kept_setDownloadState s .None).trans (kept_clear _)).trans
          (kept_of_subset rfl rfl fun _ hp => hp)

theorem kept_createBlockRequests (s : DownloadClient z File) (select : Nat → List BlockSpan)
    (blockCount : Nat) : Kept s (s.createBlockRequests select blockCount) := by
  unfold createBlockRequests
  cases s.reqFile with
  | none => exact Kept.refl s
  | some file =>
    dsimp only
    split_ifs
    · exact Kept.refl s
    · exact Kept.refl s
    · exact Kept.refl s
    · refine ⟨rfl,Nat.le_add_right _ _,fun p hp => ?_⟩
      rcases List.mem_append.mp hp with hp | hp
      · exact .inl ⟨p,hp,rfl⟩
      · obtain ⟨b,hb,rfl⟩ := List.mem_map.mp hp
        exact .inr ⟨b,(mem_reservations hb).2.1,rfl⟩

theorem mem_queueUnsent {n : Nat} {pending : List (PendingBlock z)} {p : PendingBlock z}
    (hp : p∈queueUnsent n pending) : ∃ q∈pending, p = { q with queued := p.queued } := by
  induction pending generalizing n with
  | nil => cases n <;> cases hp
  | cons q pending ih =>
    cases n with
    | zero => exact ⟨p,hp,rfl⟩
    | succ n =>
      have hrest : ∀ n,p∈queueUnsent n pending →
          ∃ q'∈q::pending, p = { q' with queued := p.queued } := fun n hin => by
        obtain ⟨q',hq',heq⟩ := ih hin
        exact ⟨q',List.mem_cons_of_mem q hq',heq⟩
      rw [queueUnsent] at hp
      split_ifs at hp with hsent
      · rcases List.mem_cons.mp hp with rfl | hp
        · exact ⟨p,List.mem_cons_self,rfl⟩
        · exact hrest _ hp
      · rcases List.mem_cons.mp hp with rfl | hp
        · exact ⟨q,List.mem_cons_self,rfl⟩
        · exact hrest _ hp

theorem kept_sendBlockRequests (s : DownloadClient z File) (env : RequestEnv) :
    Kept s (s.sendBlockRequests env) := by
  unfold sendBlockRequests
  have hmore := kept_createBlockRequests s env.select env.blockCount
  split
  · exact Kept.refl s
  dsimp only
  split_ifs
  · exact hmore
  · exact hmore.trans ((kept_sendCancelTransfer _).trans (kept_setDownloadState _ _))
  · exact hmore.trans ⟨rfl,Nat.le_refl _,fun p hp => .inl (mem_queueUnsent hp)⟩

theorem kept_unmatched (s : DownloadClient z File) (env : PacketEnv) (nStartPos : Nat) :
    Kept s (s.unmatched env nStartPos) := by
  unfold unmatched isInAbandonedBlock
  dsimp only
  split_ifs
  · exact Kept.refl s
  · exact kept_of_subset rfl rfl fun _ hp => hp
  · refine Kept.trans ?_ ((kept_sendCancelTransfer _).trans (kept_setDownloadState _ _))
    exact kept_of_subset rfl rfl fun _ hp => hp
  · exact kept_of_subset rfl rfl fun _ hp => hp
  · refine Kept.trans ?_ ((kept_sendCancelTransfer _).trans (kept_setDownloadState _ _))
    exact kept_of_subset rfl rfl fun _ hp => hp
  · exact kept_of_subset rfl rfl fun _ hp => hp

theorem kept_stopTransfer (s : DownloadClient z File) : Kept s s.stopTransfer := by
  unfold stopTransfer
  split_ifs
  · exact (kept_sendCancelTransfer s).trans (kept_setDownloadState _ _)
  · exact Kept.refl s

section Packets

variable {env : PacketEnv} {before after : List (PendingBlock z)} {cur : PendingBlock z}
  {result : Option WriteResult} {complete : Bool}

theorem Kept.finishBlock {others : List (PendingBlock z)}
    (h : Kept s { s' with pendingBlocks := others }) (env : RequestEnv) (f : File)
    (r : Reservation) : Kept s (s'.finishBlock env f r others) :=
  (h.trans (kept_removeBlockFromList _ f r)).trans (kept_sendBlockRequests _ env)

theorem settle_accepted (s : DownloadClient z File) (env : PacketEnv) (f : File)
    (before after : List (PendingBlock z)) (cur : PendingBlock z) (complete paused : Bool) :
    (({ s with pendingBlocks := before++cur::after } :
        DownloadClient z File).stopTransfer.pendingBlocks=[] ∧
      s.settle env f before after cur (some ⟨true,paused⟩) complete =
        ({ s with pendingBlocks := before++cur::after } :
          DownloadClient z File).stopTransfer) ∨
    s.settle env f before after cur (some ⟨true,paused⟩) complete =
      if complete then
        ({ s with pendingBlocks := before++cur::after } : DownloadClient z File).finishBlock
          env.toRequestEnv f cur.block (before++after)
      else { s with pendingBlocks := before++cur::after } := by
  have hsome : before++cur::after≠[] := List.append_ne_nil_of_right_ne_nil _ nofun
  have hgo : ∀ t : DownloadClient z File, t.pendingBlocks=before++cur::after →
      (if t.pendingBlocks≠[] ∧ complete=true then
        t.finishBlock env.toRequestEnv f cur.block (before++after) else t) =
      if complete=true then
        t.finishBlock env.toRequestEnv f cur.block (before++after) else t := by
    intro t ht
    rw [ht]
    simp only [ne_eq,hsome,not_false_eq_true,true_and]
  unfold settle
  dsimp only
  cases paused with
  | false =>
    exact .inr (hgo _ rfl)
  | true =>
    rw [if_pos rfl]
    rcases stopTransfer_cases ({ s with pendingBlocks := before++cur::after } :
      DownloadClient z File) with hnone | hsame
    · refine .inl ⟨hnone,if_neg fun hmore => hmore.1 hnone⟩
    · rw [hsame]
      exact .inr (hgo _ rfl)

theorem kept_settle (s : DownloadClient z File) :
    Kept { s with pendingBlocks := before++cur::after }
      (s.settle env f before after cur result complete) := by
  by_cases haccepted : ∃ paused, result=some ⟨true,paused⟩
  · obtain ⟨paused,rfl⟩ := haccepted
    obtain ⟨-,heq⟩ | heq := settle_accepted s env f before after cur complete paused
    · rw [heq]
      exact kept_stopTransfer _
    · rw [heq]
      split_ifs
      · exact (kept_shorter s before after cur).finishBlock _ _ _
      · exact Kept.refl _
  · unfold settle
    split
    next paused => exact absurd ⟨paused,rfl⟩ haccepted
    next =>
      split_ifs
      · refine Kept.finishBlock ?_ _ _ _
        exact (kept_shorter s before after cur).trans (kept_of_subset rfl rfl fun _ hp => hp)
      · exact Kept.refl _

theorem kept_settle_complete (s : DownloadClient z File) (paused : Bool) :
    Kept { s with pendingBlocks := before++after }
      (s.settle env f before after cur (some ⟨true,paused⟩) true) := by
  obtain ⟨hnil,heq⟩ | heq := settle_accepted s env f before after cur true paused
  · rw [heq]
    exact (kept_stopTransfer _).of_nil hnil rfl rfl
  · rw [heq,if_pos rfl]
    refine Kept.finishBlock ?_ _ _ _
    exact kept_of_subset rfl rfl fun _ hp => hp

theorem kept_settle_filled (s : DownloadClient z File) (herror : cur.zStreamError=false)
    (hfull : env.isComplete cur.block.startOffset cur.block.endOffset=true) :
    Kept { s with pendingBlocks := before++after }
      (s.settle env f before after cur none false) := by
  unfold settle
  dsimp only
  rw [if_pos ⟨herror,hfull⟩]
  refine Kept.finishBlock ?_ _ _ _
  exact kept_of_subset rfl rfl fun _ hp => hp

end Packets

end DownloadClient

end EmuleQt.Client
