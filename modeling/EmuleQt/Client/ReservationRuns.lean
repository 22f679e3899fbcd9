import EmuleQt.Client.BlockPackets
import Mathlib.Data.List.Nodup

namespace EmuleQt.Client

open Crypto Framework Utils

namespace DownloadClient

variable {z : Inflate} {File : Type} {s s' : DownloadClient z File} {f g : File}
  {r : Reservation} {strict : Prop}

/-- The blocks this client works on. -/
def blocks (s : DownloadClient z File) : List Reservation := s.pendingBlocks.map (·.block)

/-- The blocks of a file that this client holds. -/
def held (s : DownloadClient z File) (f : File) : List Reservation :=
  (s.requestedBlocks f).filter (·.mine)

theorem mem_held : r∈s.held f ↔ r∈s.requestedBlocks f ∧ r.mine=true := List.mem_filter

/-- What the client holds it works on; where `strict`, it also holds what it works on. -/
structure Sound (strict : Prop) (s : DownloadClient z File) : Prop where
  unique : ∀ f, (s.held f).Nodup
  pending : ∀ f, ∀ r ∈ s.held f, s.reqFile = some f ∧ r ∈ s.blocks
  idle : s.reqFile = none → s.blocks = []
  distinct : (s.blocks.map (·.id)).Nodup
  own : ∀ r ∈ s.blocks, r.mine = true ∧ r.id < s.nextId
  reserved : strict → ∀ r ∈ s.blocks, ∃ f, s.reqFile = some f ∧ r ∈ s.requestedBlocks f
  clean : strict → ∀ p ∈ s.pendingBlocks, p.zStreamError = false

theorem sound_init : Sound strict (init : DownloadClient z File) where
  unique _ := List.nodup_nil
  pending _ _ hr := absurd hr List.not_mem_nil
  idle _ := rfl
  distinct := List.nodup_nil
  own _ hr := absurd hr List.not_mem_nil
  reserved _ _ hr := absurd hr List.not_mem_nil
  clean _ _ hp := absurd hp List.not_mem_nil

theorem Sound.congr (h : Sound strict s) (hfile : s'.reqFile=s.reqFile)
    (hblocks : s'.blocks=s.blocks) (hlists : s'.requestedBlocks=s.requestedBlocks)
    (hnext : s'.nextId=s.nextId)
    (hclean : strict → ∀ p∈s'.pendingBlocks,p.zStreamError=false) : Sound strict s' := by
  have hheld : s'.held=s.held := by
    funext f
    rw [held,held,hlists]
  exact ⟨by rw [hheld]; exact h.unique,by rw [hheld,hfile,hblocks]; exact h.pending,
    by rw [hfile,hblocks]; exact h.idle,by rw [hblocks]; exact h.distinct,
    by rw [hblocks,hnext]; exact h.own,by rw [hblocks,hfile,hlists]; exact h.reserved,hclean⟩

theorem Sound.other (h : Sound strict s) (hfile : s'.reqFile=s.reqFile)
    (hpending : s'.pendingBlocks=s.pendingBlocks)
    (hlists : s'.requestedBlocks=s.requestedBlocks) (hnext : s'.nextId=s.nextId) :
    Sound strict s' := by
  refine h.congr hfile ?_ hlists hnext fun hs p hp => h.clean hs p (hpending ▸ hp)
  rw [blocks,blocks,hpending]

theorem Sound.held_nil (h : Sound strict s) (hpending : s.pendingBlocks=[]) (g : File) :
    s.held g=[] := by
  refine List.eq_nil_iff_forall_not_mem.mpr fun b hb => ?_
  have hin := (h.pending g b hb).2
  rw [blocks,hpending] at hin
  cases hin

theorem sound_of_nothing (hpending : s.pendingBlocks=[]) (hheld : ∀ g,s.held g=[]) :
    Sound strict s := by
  have hblocks : s.blocks=[] := by rw [blocks,hpending,List.map_nil]
  refine ⟨fun g => ?_,fun g b hb => ?_,fun _ => hblocks,?_,fun b hb => ?_,fun _ b hb => ?_,
    fun _ p hp => ?_⟩
  · rw [hheld g]
    exact List.nodup_nil
  · rw [hheld g] at hb
    cases hb
  · rw [hblocks]
    exact List.nodup_nil
  · rw [hblocks] at hb
    cases hb
  · rw [hblocks] at hb
    cases hb
  · rw [hpending] at hp
    cases hp

theorem Sound.update {before after : List (PendingBlock z)} {cur cur' : PendingBlock z}
    (h : Sound strict s) (hlist : s.pendingBlocks=before++cur::after)
    (hblock : cur'.block=cur.block) (hclean : strict → cur'.zStreamError=false) :
    Sound strict { s with pendingBlocks := before++cur'::after } := by
  refine h.congr rfl ?_ rfl rfl fun hs p hp => ?_
  · rw [blocks,blocks,hlist,List.map_append,List.map_append,List.map_cons,List.map_cons,
      hblock]
  · rcases List.mem_append.mp hp with hp | hp
    · exact h.clean hs p (hlist ▸ List.mem_append_left _ hp)
    · rcases List.mem_cons.mp hp with rfl | hp
      · exact hclean hs
      · exact h.clean hs p (hlist ▸ List.mem_append_right _ (List.mem_cons_of_mem _ hp))

theorem Sound.sendCancelTransfer (h : Sound strict s) : Sound strict s.sendCancelTransfer :=
  h.other rfl rfl rfl rfl

/-- Worked on and reserved is the same for this client's blocks. -/
def Agree (s : DownloadClient z File) : Prop :=
  (∀ r ∈ s.blocks, ∃ f, s.reqFile = some f ∧ r ∈ s.requestedBlocks f) ∧
    ∀ f, ∀ r ∈ s.held f, s.reqFile = some f ∧ r ∈ s.blocks

theorem Sound.agree (h : Sound True s) : s.Agree := ⟨h.reserved trivial,h.pending⟩

theorem not_agree_of_locked (hfile : s.reqFile=some f) (hin : r∈s.blocks)
    (hout : r∉s.requestedBlocks f) : ¬ s.Agree := by
  rintro ⟨hreserved,-⟩
  obtain ⟨g,hg,hmem⟩ := hreserved r hin
  obtain rfl : f=g := Option.some.inj (hfile.symm.trans hg)
  exact hout hmem

theorem readBlockPacket_file {fileHash : File → MD4Hash} {data : List UInt8}
    {packed i64Offsets : Bool} {p : BlockPacket File}
    (hread : s.readBlockPacket fileHash data packed i64Offsets = .ok (some p)) :
    s.reqFile=some p.file := by
  unfold readBlockPacket at hread
  split_ifs at hread
  · cases hread
  · cases hread
  split at hread
  · cases hread
  · split at hread
    · cases hread
    next hfile =>
      split_ifs at hread
      · cases hread
      split at hread
      · cases hread
      · dsimp only at hread
        split_ifs at hread
        cases hread
        exact hfile

variable [DecidableEq File]

theorem held_removeBlockFromList :
    (s.removeBlockFromList f r).held g=if g=f then (s.held f).erase r else s.held g := by
  unfold held removeBlockFromList
  dsimp only
  split_ifs with hg
  · rw [hg,Function.update_self,List.erase_filter]
  · rw [Function.update_of_ne hg]

theorem Sound.removeBlockFromList (h : Sound strict s) (hstrict : ¬ strict) (f : File)
    (r : Reservation) : Sound strict (s.removeBlockFromList f r) := by
  refine ⟨fun g => ?_,fun g b hb => ?_,h.idle,h.distinct,h.own,
    fun hs => absurd hs hstrict,fun hs => absurd hs hstrict⟩
  · rw [held_removeBlockFromList]
    split_ifs
    · exact (h.unique f).erase r
    · exact h.unique g
  · rw [held_removeBlockFromList] at hb
    refine h.pending g b ?_
    split_ifs at hb with hg
    · rw [hg]
      exact List.mem_of_mem_erase hb
    · exact hb

theorem Sound.removeOther (h : Sound strict s) (f : File) (hout : r∉s.blocks) :
    Sound strict (s.removeBlockFromList f r) := by
  have hheld : ∀ g,(s.removeBlockFromList f r).held g=s.held g := by
    intro g
    rw [held_removeBlockFromList]
    split_ifs with hg
    · rw [hg]
      exact List.erase_of_not_mem fun hin => hout (h.pending f r hin).2
    · rfl
  refine ⟨fun g => ?_,fun g b hb => ?_,h.idle,h.distinct,h.own,fun hs b hb => ?_,h.clean⟩
  · rw [hheld]
    exact h.unique g
  · rw [hheld] at hb
    exact h.pending g b hb
  · obtain ⟨g,hg,hmem⟩ := h.reserved hs b hb
    have hin : b∈(s.removeBlockFromList f r).held g := by
      rw [hheld]
      exact mem_held.mpr ⟨hmem,(h.own b hb).1⟩
    exact ⟨g,hg,(mem_held.mp hin).1⟩

/-- A block leaves both lists. -/
theorem Sound.drop {cur : PendingBlock z} {before after : List (PendingBlock z)}
    (h : Sound strict s) (hfile : s.reqFile=some f)
    (hlist : s.pendingBlocks=before++cur::after) :
    Sound strict (({ s with pendingBlocks := before++after } :
      DownloadClient z File).removeBlockFromList f cur.block) := by
  have hblocks : s.blocks=before.map (·.block)++cur.block::after.map (·.block) := by
    rw [blocks,hlist,List.map_append,List.map_cons]
  have hsub : ∀ b∈(before++after).map (·.block), b∈s.blocks := by
    intro b hb
    rw [List.map_append] at hb
    rw [hblocks]
    rcases List.mem_append.mp hb with hb | hb
    · exact List.mem_append_left _ hb
    · exact List.mem_append_right _ (List.mem_cons_of_mem _ hb)
  have hids := h.distinct
  rw [hblocks,List.map_append,List.map_cons] at hids
  obtain ⟨hfresh,hrest⟩ := List.nodup_cons.mp (List.nodup_middle.mp hids)
  have hne : ∀ b∈(before++after).map (·.block), b≠cur.block := by
    rintro b hb rfl
    refine hfresh ?_
    rw [← List.map_append,← List.map_append]
    exact List.mem_map_of_mem hb
  refine ⟨fun g => ?_,fun g b hb => ?_,fun hnone => ?_,?_,fun b hb => h.own b (hsub b hb),
    fun hs b hb => ?_,fun hs p hp => h.clean hs p ?_⟩
  · rw [held_removeBlockFromList]
    split_ifs
    · exact (h.unique f).erase _
    · exact h.unique g
  · rw [held_removeBlockFromList] at hb
    split_ifs at hb with hg
    · obtain ⟨hb1,hb2⟩ := (List.Nodup.mem_erase_iff (h.unique f)).mp hb
      obtain ⟨hreq,hpending⟩ := h.pending f b hb2
      refine ⟨hg ▸ hreq,?_⟩
      rw [hblocks] at hpending
      change b∈(before++after).map (·.block)
      rw [List.map_append]
      rcases List.mem_append.mp hpending with hin | hin
      · exact List.mem_append_left _ hin
      · rcases List.mem_cons.mp hin with heq | hin
        · exact absurd heq hb1
        · exact List.mem_append_right _ hin
    · have hother := (h.pending g b hb).1
      exact absurd (Option.some.inj (hother.symm.trans hfile)) hg
  · exact absurd (hfile.symm.trans hnone) (Option.some_ne_none f)
  · change (((before++after).map (·.block)).map (·.id)).Nodup
    rw [List.map_append,List.map_append]
    exact hrest
  · obtain ⟨g,hg,hmem⟩ := h.reserved hs b (hsub b hb)
    obtain rfl : f=g := Option.some.inj (hfile.symm.trans hg)
    refine ⟨f,hfile,?_⟩
    change b∈Function.update s.requestedBlocks f _ f
    rw [Function.update_self]
    exact (List.mem_erase_of_ne (hne b hb)).mpr hmem
  · rw [hlist]
    rcases List.mem_append.mp hp with hp | hp
    · exact List.mem_append_left _ hp
    · exact List.mem_append_right _ (List.mem_cons_of_mem _ hp)

theorem held_foldl (f g : File) (ps : List (PendingBlock z)) (s : DownloadClient z File) :
    (ps.foldl (fun (s : DownloadClient z File) (p : PendingBlock z) =>
      s.removeBlockFromList f p.block) s).held g =
    if g=f then (s.held f).diff (ps.map (·.block)) else s.held g := by
  induction ps generalizing s with
  | nil => split_ifs with hg <;> simp [hg]
  | cons p ps ih =>
    rw [List.foldl_cons,ih,held_removeBlockFromList,held_removeBlockFromList,if_pos rfl,
      List.map_cons,List.diff_cons]
    split_ifs <;> rfl

theorem reqFile_foldl (f : File) (ps : List (PendingBlock z)) (s : DownloadClient z File) :
    (ps.foldl (fun (s : DownloadClient z File) (p : PendingBlock z) =>
      s.removeBlockFromList f p.block) s).reqFile=s.reqFile := by
  induction ps generalizing s with
  | nil => rfl
  | cons p ps ih => exact ih _

theorem Sound.clear (h : Sound strict s) : Sound strict s.clearDownloadBlockRequests ∧
    s.clearDownloadBlockRequests.reqFile=s.reqFile ∧
    s.clearDownloadBlockRequests.pendingBlocks=[] ∧
    ∀ g,s.clearDownloadBlockRequests.held g=[] := by
  have hempty : ∀ g,s.clearDownloadBlockRequests.held g=[] := by
    intro g
    unfold clearDownloadBlockRequests
    cases hfile : s.reqFile with
    | none =>
      refine List.eq_nil_iff_forall_not_mem.mpr fun b hb => ?_
      have hreq := (h.pending g b hb).1
      rw [hfile] at hreq
      cases hreq
    | some f =>
      refine List.eq_nil_iff_forall_not_mem.mpr fun b hb => ?_
      have hb' : b∈(s.pendingBlocks.foldl (fun (s : DownloadClient z File)
          (p : PendingBlock z) => s.removeBlockFromList f p.block) s).held g := hb
      rw [held_foldl] at hb'
      split_ifs at hb' with hg
      · obtain ⟨hin,hout⟩ := (List.Nodup.mem_sdiff_iff (h.unique f)).mp hb'
        exact hout (h.pending f b hin).2
      · have hreq := (h.pending g b hb').1
        rw [hfile] at hreq
        exact hg (Option.some.inj hreq).symm
  have hreq : s.clearDownloadBlockRequests.reqFile=s.reqFile := by
    unfold clearDownloadBlockRequests
    cases hfile : s.reqFile with
    | none => rfl
    | some f => exact (reqFile_foldl f s.pendingBlocks s).trans hfile
  have hnone : s.clearDownloadBlockRequests.pendingBlocks=[] := by
    unfold clearDownloadBlockRequests
    cases s.reqFile <;> rfl
  exact ⟨sound_of_nothing hnone hempty,hreq,hnone,hempty⟩

theorem Sound.setDownloadState (h : Sound strict s) (state : DownloadState) :
    Sound strict (s.setDownloadState state) := by
  have hquiet : Sound strict { s with unmatchedPackets := 0, abandonedBlocks := [] } :=
    h.other rfl rfl rfl rfl
  unfold DownloadClient.setDownloadState
  split_ifs with hsame hdownloading
  · exact h
  · exact hquiet.clear.1.other rfl rfl rfl rfl
  · exact h.other rfl rfl rfl rfl

theorem Sound.setReqFile (h : Sound strict s) (f : Option File) :
    Sound strict (s.setReqFile f) := by
  unfold DownloadClient.setReqFile
  by_cases hswitch : s.reqFile.isSome ∧ s.reqFile≠f ∧ s.pendingBlocks≠[]
  · rw [if_pos hswitch]
    obtain ⟨-,-,hpending,hheld⟩ := h.clear
    exact sound_of_nothing hpending hheld
  · rw [if_neg hswitch]
    by_cases hsame : s.reqFile=f
    · exact h.other hsame.symm rfl rfl rfl
    · have hpending : s.pendingBlocks=[] := by
        by_contra hne
        cases hfile : s.reqFile with
        | none => exact hne (List.map_eq_nil_iff.mp (h.idle hfile))
        | some g => exact hswitch ⟨by rw [hfile]; rfl,hsame,hne⟩
      exact sound_of_nothing hpending (h.held_nil hpending)

theorem Sound.doSwap (h : Sound strict s) (swapTo : Option File) :
    Sound strict (s.doSwap swapTo).1 := by
  unfold DownloadClient.doSwap
  cases swapTo with
  | none => exact h
  | some file =>
    cases s.reqFile with
    | none => exact h
    | some oldFile =>
      dsimp only
      split_ifs with hsame
      · exact h
      · obtain ⟨-,-,hpending,hheld⟩ := (h.setDownloadState .None).clear
        exact sound_of_nothing hpending hheld

theorem mem_reservations {spans : List BlockSpan} {n : Nat} {b : Reservation}
    (hb : b∈reservations n spans) : b.mine=true ∧ n≤b.id ∧ b.id<n+spans.length := by
  induction spans generalizing n with
  | nil => cases hb
  | cons span spans ih =>
    rw [List.length_cons]
    rcases List.mem_cons.mp hb with rfl | hb
    · exact ⟨rfl,Nat.le_refl n,by dsimp only; omega⟩
    · obtain ⟨hmine,hlow,hhigh⟩ := ih hb
      exact ⟨hmine,by omega,by omega⟩

theorem reservations_nodup (n : Nat) (spans : List BlockSpan) :
    ((reservations n spans).map (·.id)).Nodup := by
  induction spans generalizing n with
  | nil => exact List.nodup_nil
  | cons span spans ih =>
    refine List.nodup_cons.mpr ⟨fun hin => ?_,ih (n+1)⟩
    obtain ⟨b,hb,hid⟩ := List.mem_map.mp hin
    have hlow := (mem_reservations hb).2.1
    simp only at hid
    omega

theorem blocks_fresh (news : List Reservation) :
    (news.map (PendingBlock.fresh (z := z))).map (·.block)=news := by
  rw [List.map_map]
  exact List.map_id news

theorem Sound.reserve (h : Sound strict s) (hfile : s.reqFile=some f)
    (spans : List BlockSpan) : Sound strict (s.reserve f spans) := by
  have hblocks : (s.reserve f spans).blocks=s.blocks++reservations s.nextId spans := by
    unfold blocks DownloadClient.reserve
    rw [List.map_append,blocks_fresh]
  have hmine : (reservations s.nextId spans).filter (·.mine)=reservations s.nextId spans :=
    List.filter_eq_self.mpr fun b hb => (mem_reservations hb).1
  have hheld : ∀ g,(s.reserve f spans).held g =
      if g=f then s.held f++reservations s.nextId spans else s.held g := by
    intro g
    unfold held DownloadClient.reserve
    dsimp only
    split_ifs with hg
    · rw [hg,Function.update_self,List.filter_append,hmine]
    · rw [Function.update_of_ne hg]
  have hnew : ∀ b∈s.blocks,∀ b'∈reservations s.nextId spans, b.id≠b'.id := by
    intro b hb b' hb' heq
    have hold := (h.own b hb).2
    have hlow := (mem_reservations hb').2.1
    omega
  refine ⟨fun g => ?_,fun g b hb => ?_,fun hnone => ?_,?_,fun b hb => ?_,fun hs b hb => ?_,
    fun hs p hp => ?_⟩
  · rw [hheld]
    split_ifs with hg
    · refine List.nodup_append.mpr ⟨h.unique f,(reservations_nodup _ _).of_map _,?_⟩
      rintro b hb b' hb' rfl
      exact hnew b (h.pending f b hb).2 b hb' rfl
    · exact h.unique g
  · rw [hheld] at hb
    rw [hblocks]
    split_ifs at hb with hg
    · rcases List.mem_append.mp hb with hb | hb
      · exact ⟨hg ▸ (h.pending f b hb).1,List.mem_append_left _ (h.pending f b hb).2⟩
      · exact ⟨hg ▸ hfile,List.mem_append_right _ hb⟩
    · exact ⟨(h.pending g b hb).1,List.mem_append_left _ (h.pending g b hb).2⟩
  · exact absurd (hfile.symm.trans hnone) (Option.some_ne_none f)
  · rw [hblocks,List.map_append]
    refine List.nodup_append.mpr ⟨h.distinct,reservations_nodup _ _,?_⟩
    intro i hi j hj heq
    obtain ⟨b,hb,rfl⟩ := List.mem_map.mp hi
    obtain ⟨b',hb',rfl⟩ := List.mem_map.mp hj
    exact hnew b hb b' hb' heq
  · rw [hblocks] at hb
    have hnext : (s.reserve f spans).nextId=s.nextId+spans.length := rfl
    rcases List.mem_append.mp hb with hb | hb
    · obtain ⟨hmine',hid⟩ := h.own b hb
      exact ⟨hmine',by omega⟩
    · obtain ⟨hmine',-,hid⟩ := mem_reservations hb
      exact ⟨hmine',by omega⟩
  · rw [hblocks] at hb
    refine ⟨f,hfile,?_⟩
    change b∈Function.update s.requestedBlocks f _ f
    rw [Function.update_self]
    rcases List.mem_append.mp hb with hb | hb
    · obtain ⟨g,hg,hmem⟩ := h.reserved hs b hb
      obtain rfl : f=g := Option.some.inj (hfile.symm.trans hg)
      exact List.mem_append_left _ hmem
    · exact List.mem_append_right _ hb
  · rcases List.mem_append.mp hp with hp | hp
    · exact h.clean hs p hp
    · obtain ⟨b,-,rfl⟩ := List.mem_map.mp hp
      rfl

theorem Sound.createBlockRequests (h : Sound strict s) (select : Nat → List BlockSpan)
    (blockCount : Nat) : Sound strict (s.createBlockRequests select blockCount) := by
  unfold DownloadClient.createBlockRequests
  cases hfile : s.reqFile with
  | none => exact h
  | some file =>
    dsimp only
    split_ifs
    · exact h
    · exact h
    · exact h
    · exact h.reserve hfile _

theorem queueUnsent_blocks (n : Nat) (pending : List (PendingBlock z)) :
    (queueUnsent n pending).map (·.block)=pending.map (·.block) := by
  induction pending generalizing n with
  | nil => cases n <;> rfl
  | cons p pending ih =>
    cases n with
    | zero => rfl
    | succ n =>
      rw [queueUnsent]
      split_ifs with hq
      · rw [List.map_cons,List.map_cons,ih]
      · rw [List.map_cons,List.map_cons,ih]

theorem queueUnsent_error {n : Nat} {pending : List (PendingBlock z)}
    (h : ∀ p∈pending,p.zStreamError=false) :
    ∀ p∈queueUnsent n pending,p.zStreamError=false := by
  induction pending generalizing n with
  | nil =>
    intro p hp
    cases n <;> cases hp
  | cons q pending ih =>
    cases n with
    | zero => exact h
    | succ n =>
      have hq := h q List.mem_cons_self
      have hrest := fun p hp => h p (List.mem_cons_of_mem q hp)
      intro p hp
      rw [queueUnsent] at hp
      split_ifs at hp with hsent
      · rcases List.mem_cons.mp hp with rfl | hp
        · exact hq
        · exact ih hrest p hp
      · rcases List.mem_cons.mp hp with rfl | hp
        · exact hq
        · exact ih hrest p hp

theorem Sound.sendBlockRequests (h : Sound strict s) (env : RequestEnv) :
    Sound strict (s.sendBlockRequests env) := by
  unfold DownloadClient.sendBlockRequests
  have hmore := h.createBlockRequests env.select env.blockCount
  split
  · exact h
  dsimp only
  split_ifs with hempty hverdict
  · exact hmore
  · exact hmore.sendCancelTransfer.setDownloadState .NoNeededParts
  · exact hmore.congr rfl (queueUnsent_blocks 3 _) rfl rfl
      fun hs => queueUnsent_error (hmore.clean hs)

theorem Sound.unmatched (h : Sound strict s) (env : PacketEnv) (nStartPos : Nat) :
    Sound strict (s.unmatched env nStartPos) := by
  unfold DownloadClient.unmatched isInAbandonedBlock
  dsimp only
  split_ifs
  · exact h
  · exact h.other rfl rfl rfl rfl
  · refine Sound.setDownloadState (Sound.sendCancelTransfer ?_) .OnQueue
    exact h.other rfl rfl rfl rfl
  · exact h.other rfl rfl rfl rfl
  · refine Sound.setDownloadState (Sound.sendCancelTransfer ?_) .OnQueue
    exact h.other rfl rfl rfl rfl
  · exact h.other rfl rfl rfl rfl

theorem Sound.stopTransfer (h : Sound strict s) : Sound strict s.stopTransfer := by
  unfold DownloadClient.stopTransfer
  split_ifs
  · exact h.sendCancelTransfer.setDownloadState .OnQueue
  · exact h

section Packets

variable {env : PacketEnv} {before after : List (PendingBlock z)} {cur cur' : PendingBlock z}
  {size nStartPos nEndPos : Nat} {payload data : List UInt8} {packed i64Offsets : Bool}
  {fileHash : File → MD4Hash}

theorem Sound.finishBlock (h : Sound strict s) (env : RequestEnv) (hfile : s.reqFile=some f)
    (hlist : s.pendingBlocks=before++cur::after) :
    Sound strict (s.finishBlock env f cur.block (before++after)) :=
  (h.drop hfile hlist).sendBlockRequests env

theorem stopTransfer_cases (s : DownloadClient z File) :
    s.stopTransfer.pendingBlocks=[] ∨ s.stopTransfer=s := by
  unfold DownloadClient.stopTransfer
  split_ifs with hdownloading
  · left
    unfold DownloadClient.setDownloadState
    have hstate : s.sendCancelTransfer.downloadState = .Downloading := hdownloading
    rw [hstate,if_neg nofun,if_pos rfl]
    unfold clearDownloadBlockRequests
    split <;> rfl
  · exact .inr rfl

theorem Sound.settle {written : Option WriteResult} {complete : Bool} (h : Sound strict s)
    (hfile : s.reqFile=some f) (hlist : s.pendingBlocks=before++cur::after)
    (hblock : cur'.block=cur.block) (hclean : strict → cur'.zStreamError=false) :
    Sound strict (s.settle env f before after cur' written complete) := by
  have hnow := h.update hlist hblock hclean
  unfold DownloadClient.settle
  dsimp only
  split
  next paused =>
    rcases stopTransfer_cases ({ s with pendingBlocks := before++cur'::after } :
      DownloadClient z File) with hnone | hsame
    · have hidle := hnow.stopTransfer
      split_ifs with hpaused hmore hmore
      · exact absurd hnone hmore.1
      · exact hidle
      · exact hnow.finishBlock env.toRequestEnv hfile rfl
      · exact hnow
    · rw [hsame,ite_self]
      split_ifs
      · exact hnow.finishBlock env.toRequestEnv hfile rfl
      · exact hnow
  next =>
    split_ifs with hfilled
    · have hsame : Sound strict ({ s with
          pendingBlocks := before++cur'::after
          abandonedBlocks :=
            s.abandonedBlocks++[⟨cur'.block.startOffset,cur'.block.endOffset,env.now⟩] } :
          DownloadClient z File) := hnow.other rfl rfl rfl rfl
      exact hsame.finishBlock env.toRequestEnv hfile rfl
    · exact hnow

theorem Sound.receivePlain (h : Sound strict s) (hfile : s.reqFile=some f)
    (hlist : s.pendingBlocks=before++cur::after)
    (hclean : strict → cur.zStreamError=false) (hfits : strict → nEndPos≤cur.block.endOffset) :
    Sound strict (s.receivePlain env f before after cur nStartPos nEndPos payload) := by
  unfold DownloadClient.receivePlain
  split_ifs with hover
  · exact h.removeBlockFromList (fun hs => Nat.not_le.mpr hover (hfits hs)) f cur.block
  · exact h.settle hfile hlist rfl hclean

theorem Sound.settle_complete (h : Sound strict s) (hfile : s.reqFile=some f)
    (hlist : s.pendingBlocks=before++cur::after) (hblock : cur'.block=cur.block)
    (herror : cur'.zStreamError=false)
    (hfull : env.isComplete cur.block.startOffset cur.block.endOffset=true) (complete : Bool) :
    Sound strict
      ((s.removeBlockFromList f cur.block).settle env f before after cur' none complete) := by
  have hdrop := h.drop hfile hlist
  have hout : cur.block∉(({ s with pendingBlocks := before++after } :
      DownloadClient z File).removeBlockFromList f cur.block).blocks := by
    have hids := h.distinct
    rw [blocks,hlist,List.map_append,List.map_cons,List.map_append,List.map_cons] at hids
    obtain ⟨hfresh,-⟩ := List.nodup_cons.mp (List.nodup_middle.mp hids)
    intro hin
    refine hfresh ?_
    rw [← List.map_append,← List.map_append]
    exact List.mem_map_of_mem hin
  unfold DownloadClient.settle
  dsimp only
  rw [hblock,if_pos ⟨herror,hfull⟩]
  refine Sound.sendBlockRequests ?_ env.toRequestEnv
  exact (hdrop.removeOther f hout).other rfl rfl rfl rfl

/-- The data is for the block and no further, and it decompresses. -/
def fitsBlock (env : PacketEnv) (cur : PendingBlock z) (packed : Bool) (size nEndPos : Nat)
    (payload : List UInt8) : Bool :=
  if packed then
    let r := unzipBlock cur size payload
    Unzipped.isOk r &&
      (r.lenUnzipped=0 || !overruns cur r ||
        env.isComplete cur.block.startOffset cur.block.endOffset)
  else nEndPos≤cur.block.endOffset

theorem Sound.receivePacked (h : Sound strict s) (hfile : s.reqFile=some f)
    (hlist : s.pendingBlocks=before++cur::after) (herror : cur.zStreamError=false)
    (hfits : strict → fitsBlock env cur true size nEndPos payload=true) :
    Sound strict (s.receivePacked env f before after cur size payload) := by
  unfold DownloadClient.receivePacked
  unfold fitsBlock at hfits
  dsimp only at hfits ⊢
  generalize unzipBlock cur size payload=r at hfits ⊢
  have hfed : Sound strict { s with history := s.history++[.fed cur.block payload] } :=
    h.other rfl rfl rfl rfl
  by_cases hok : Unzipped.isOk r=true
  · rw [if_pos hok]
    have hnow : (⟨cur.block,r.zStream,r.totalUnzipped,cur.zStreamError,cur.queued⟩ :
      PendingBlock z).block=cur.block := rfl
    have hsame : overruns ⟨cur.block,r.zStream,r.totalUnzipped,cur.zStreamError,cur.queued⟩ r =
      overruns cur r := rfl
    split_ifs with hnone hover
    · exact hfed.settle hfile hlist hnow fun _ => herror
    · rw [hsame] at hover
      by_cases hfull : env.isComplete cur.block.startOffset cur.block.endOffset=true
      · exact hfed.settle_complete hfile hlist hnow herror hfull false
      · have hstrict : ¬ strict := by
          intro hs
          have hfit := hfits hs
          rw [hok,hover,Bool.eq_false_iff.mpr hfull,decide_eq_false hnone] at hfit
          cases hfit
        exact (hfed.removeBlockFromList hstrict f cur.block).settle hfile hlist hnow
          fun _ => herror
    · refine Sound.settle ?_ hfile hlist hnow fun _ => herror
      exact h.other rfl rfl rfl rfl
  · have hstrict : ¬ strict := by
      intro hs
      have hfit := hfits hs
      rw [Bool.eq_false_iff.mpr hok] at hfit
      cases hfit
    rw [if_neg hok]
    exact (hfed.removeBlockFromList hstrict f cur.block).settle hfile hlist rfl
      fun hs => absurd hs hstrict

/-- The packet fits the block it is for; data for no block at all does no harm. -/
def fits (env : PacketEnv) (packed : Bool) (size nStartPos nEndPos : Nat) (payload : List UInt8)
    (s : DownloadClient z File) : Bool :=
  match splitFirst (covers nStartPos) s.pendingBlocks with
  | none => true
  | some (_, cur, _) => fitsBlock env cur packed size nEndPos payload

theorem Sound.receiveBlock (h : Sound strict s) (hfile : s.reqFile=some f)
    (hfits : strict → s.fits env packed size nStartPos nEndPos payload=true) :
    Sound strict (s.receiveBlock env f packed size nStartPos nEndPos payload) := by
  unfold DownloadClient.receiveBlock
  unfold fits at hfits
  cases hfound : splitFirst (covers nStartPos) s.pendingBlocks with
  | none => exact h.unmatched env nStartPos
  | some found =>
    obtain ⟨before,cur,after⟩ := found
    rw [hfound] at hfits
    dsimp only at hfits ⊢
    obtain ⟨hlist,-,-⟩ := splitFirst_some hfound
    have hin : cur∈s.pendingBlocks := hlist ▸ List.mem_append_right _ List.mem_cons_self
    cases herror : cur.zStreamError with
    | true =>
      refine h.removeBlockFromList (fun hs => ?_) f cur.block
      rw [h.clean hs cur hin] at herror
      cases herror
    | false =>
      rw [if_neg Bool.false_ne_true]
      cases packed with
      | true => exact h.receivePacked hfile hlist herror hfits
      | false =>
        refine h.receivePlain hfile hlist (fun _ => herror) fun hs => ?_
        exact of_decide_eq_true (hfits hs)

/-- The call is no block packet, or none that is more than its block and none that does not
decompress. -/
def intact (fileHash : File → MD4Hash) (s : DownloadClient z File) : Call File → Bool
  | .processBlockPacket env data packed i64Offsets =>
    match s.readBlockPacket fileHash data packed i64Offsets with
    | .ok (some p) => s.fits env packed data.length p.nStartPos p.nEndPos p.payload
    | _ => true
  | _ => true

theorem Sound.processBlockPacket (h : Sound strict s)
    (hintact : strict → s.intact fileHash (.processBlockPacket env data packed i64Offsets)=true) :
    Sound strict
      ((s.processBlockPacket fileHash env data packed i64Offsets).toOption.getD s) := by
  unfold DownloadClient.processBlockPacket
  unfold intact at hintact
  cases hread : s.readBlockPacket fileHash data packed i64Offsets with
  | error e => exact h
  | ok found =>
    cases found with
    | none => exact h
    | some p =>
      dsimp only at hintact
      rw [hread] at hintact
      exact h.receiveBlock (readBlockPacket_file hread) hintact

theorem Sound.others (h : Sound strict s) (file : File) (blocks : List Reservation) :
    Sound strict (s.step fileHash (.others file blocks)) := by
  have hlist : ∀ g,(s.step fileHash (.others file blocks)).requestedBlocks g=if g=file then
      blocks.filter (fun b => !b.mine)++(s.requestedBlocks file).filter (·.mine)
      else s.requestedBlocks g := by
    intro g
    rw [step]
    dsimp only
    split_ifs with hg
    · rw [hg,Function.update_self]
    · rw [Function.update_of_ne hg]
  have hheld : ∀ g,(s.step fileHash (.others file blocks)).held g=s.held g := by
    intro g
    rw [held,hlist]
    split_ifs with hg
    · have hnone : (blocks.filter (fun b => !b.mine)).filter (·.mine)=[] := by
        refine List.filter_eq_nil_iff.mpr fun b hb => ?_
        have hmine := (List.mem_filter.mp hb).2
        rw [Bool.not_eq_true'] at hmine
        rw [hmine]
        exact Bool.false_ne_true
      rw [List.filter_append,hnone,List.nil_append,List.filter_filter,hg,held]
      simp only [Bool.and_self]
    · rfl
  refine ⟨fun g => ?_,fun g b hb => ?_,h.idle,h.distinct,h.own,fun hs b hb => ?_,h.clean⟩
  · rw [hheld]
    exact h.unique g
  · rw [hheld] at hb
    exact h.pending g b hb
  · obtain ⟨g,hg,hmem⟩ := h.reserved hs b hb
    have hin : b∈(s.step fileHash (.others file blocks)).held g := by
      rw [hheld]
      exact mem_held.mpr ⟨hmem,(h.own b hb).1⟩
    exact ⟨g,hg,(mem_held.mp hin).1⟩

theorem Sound.step (h : Sound strict s) (call : Call File)
    (hintact : strict → s.intact fileHash call=true) :
    Sound strict (s.step fileHash call) := by
  cases call with
  | setReqFile f => exact h.setReqFile f
  | clearDownloadBlockRequests => exact h.clear.1
  | createBlockRequests select blockCount => exact h.createBlockRequests select blockCount
  | sendBlockRequests env => exact h.sendBlockRequests env
  | processBlockPacket env data packed i64Offsets => exact h.processBlockPacket hintact
  | doSwap swapTo => exact h.doSwap swapTo
  | setDownloadState state => exact h.setDownloadState state
  | others file blocks => exact h.others file blocks

theorem Sound.not_mem_removeBlockFromList (h : Sound strict s) (f : File) (hmine : r.mine=true) :
    r∉(s.removeBlockFromList f r).requestedBlocks f := by
  intro hin
  have hheld : r∈(s.removeBlockFromList f r).held f := mem_held.mpr ⟨hin,hmine⟩
  rw [held_removeBlockFromList,if_pos rfl] at hheld
  exact (List.Nodup.mem_erase_iff (h.unique f)).mp hheld |>.1 rfl

theorem Sound.not_agree_receiveBlock (h : Sound True s) (hfile : s.reqFile=some f)
    (hfits : s.fits env packed size nStartPos nEndPos payload=false) :
    ¬ (s.receiveBlock env f packed size nStartPos nEndPos payload).Agree := by
  unfold fits at hfits
  unfold DownloadClient.receiveBlock
  cases hfound : splitFirst (covers nStartPos) s.pendingBlocks with
  | none =>
    rw [hfound] at hfits
    cases hfits
  | some found =>
    obtain ⟨before,cur,after⟩ := found
    rw [hfound] at hfits
    dsimp only at hfits ⊢
    obtain ⟨hlist,-,-⟩ := splitFirst_some hfound
    have hin : cur∈s.pendingBlocks := hlist ▸ List.mem_append_right _ List.mem_cons_self
    have hblock : cur.block∈s.blocks := List.mem_map_of_mem hin
    have hgone := h.not_mem_removeBlockFromList f (h.own _ hblock).1
    have herror := h.clean trivial cur hin
    rw [herror,if_neg Bool.false_ne_true]
    unfold fitsBlock at hfits
    cases packed with
    | false =>
      unfold DownloadClient.receivePlain
      rw [if_pos (Nat.not_le.mp (of_decide_eq_false hfits))]
      exact not_agree_of_locked hfile hblock hgone
    | true =>
      rw [if_pos rfl] at hfits ⊢
      unfold DownloadClient.receivePacked
      dsimp only at hfits ⊢
      generalize unzipBlock cur size payload=r at hfits ⊢
      have hstill : ∀ cur' : PendingBlock z, cur'.block=cur.block →
          cur.block∈(before++cur'::after).map (·.block) := fun cur' hcur' => by
        rw [List.map_append,List.map_cons,hcur']
        exact List.mem_append_right _ List.mem_cons_self
      by_cases hok : Unzipped.isOk r=true
      · rw [if_pos hok]
        rw [hok,Bool.true_and] at hfits
        obtain ⟨hfits,hopen⟩ := Bool.or_eq_false_iff.mp hfits
        obtain ⟨hsome,hover⟩ := Bool.or_eq_false_iff.mp hfits
        have hover' : overruns ⟨cur.block,r.zStream,r.totalUnzipped,cur.zStreamError,
            cur.queued⟩ r=true := by
          rw [Bool.not_eq_false'] at hover
          exact hover
        rw [if_neg (of_decide_eq_false hsome),if_pos hover']
        unfold DownloadClient.settle
        dsimp only
        rw [hopen,if_neg (fun hfull => Bool.false_ne_true hfull.2)]
        exact not_agree_of_locked hfile (hstill _ rfl) hgone
      · rw [if_neg hok]
        exact not_agree_of_locked hfile (hstill _ rfl) hgone

theorem Sound.agree_step_iff (h : Sound True s) (call : Call File) :
    (s.step fileHash call).Agree ↔ s.intact fileHash call=true := by
  constructor
  · intro hagree
    by_contra hbroken
    rw [Bool.not_eq_true] at hbroken
    cases call with
    | processBlockPacket env data packed i64Offsets =>
      unfold intact at hbroken
      dsimp only at hbroken
      split at hbroken
      next p hread =>
        refine h.not_agree_receiveBlock (readBlockPacket_file hread) hbroken ?_
        have hstep : s.step fileHash (.processBlockPacket env data packed i64Offsets) =
            s.receiveBlock env p.file packed data.length p.nStartPos p.nEndPos p.payload := by
          rw [DownloadClient.step,DownloadClient.processBlockPacket,hread]
          rfl
        rwa [hstep] at hagree
      next => cases hbroken
    | _ => cases hbroken
  · intro hintact
    exact (h.step call fun _ => hintact).agree

end Packets

theorem sound_reached (fileHash : File → MD4Hash) (calls : List (Call File)) :
    Sound False (reached fileHash calls : DownloadClient z File) := by
  have hstep : ∀ (s : DownloadClient z File) (call : Call File), Sound False s → True →
      Sound False (s.step fileHash call) := fun s call h _ => h.step call fun hs => hs.elim
  exact run_invariant hstep sound_init (along_true _ _ calls)

/-- Every packet of the run is intact. -/
def Intact (z : Inflate) (fileHash : File → MD4Hash) (calls : List (Call File)) : Prop :=
  Along (step fileHash) (fun s call => s.intact fileHash call = true)
    (init : DownloadClient z File) calls

instance (z : Inflate) (fileHash : File → MD4Hash) (calls : List (Call File)) :
    Decidable (Intact z fileHash calls) :=
  inferInstanceAs (Decidable (Along _ _ _ _))

theorem sound_reached_of_intact {fileHash : File → MD4Hash} {calls : List (Call File)}
    (hcalls : Intact z fileHash calls) :
    Sound True (reached fileHash calls : DownloadClient z File) := by
  have hstep : ∀ (s : DownloadClient z File) (call : Call File), Sound True s →
      s.intact fileHash call=true → Sound True (s.step fileHash call) :=
    fun s call h hintact => h.step call fun _ => hintact
  exact run_invariant hstep sound_init hcalls

/-- What a client holds it always works on. It also holds what it works on as long as every packet
is intact, and the first one that is not breaks that. -/
theorem reservations_agree (z : Inflate) (fileHash : File → MD4Hash) (calls : List (Call File)) :
    let s : DownloadClient z File := reached fileHash calls
    (∀ f,∀ r∈s.held f,s.reqFile=some f ∧ r∈s.blocks) ∧
      (Intact z fileHash calls → s.Agree ∧
        ∀ call,(s.step fileHash call).Agree ↔ s.intact fileHash call=true) := by
  refine ⟨(sound_reached fileHash calls).pending,fun hcalls => ?_⟩
  have h := sound_reached_of_intact hcalls
  exact ⟨h.agree,fun call => h.agree_step_iff call⟩

def openFile (spans : List BlockSpan) : PacketEnv where
  hasSocket := true
  slowEMule := false
  downDatarate := 0
  select _ := spans
  awaitsFinalVerdict := true
  now := 0
  writeToBuffer _ _ _ := ⟨true, false⟩
  isComplete _ _ := false

/-- A source that has been asked for a block of a file. -/
def asked (span : BlockSpan) : List (Call Unit) :=
  [.setReqFile (some ()), .setDownloadState .Downloading,
    .sendBlockRequests (openFile [span]).toRequestEnv]

def fourBytes : BlockSpan := ⟨0,3,by decide,by decide,by decide⟩

/-- A packet with the first `n` bytes. -/
def plainPacket (n : UInt8) : List UInt8 :=
  List.replicate 16 0++[0,0,0,0,n,0,0,0]++List.replicate n.toNat 65

theorem reservations_agree_four :
    (reached (fun _ => Digest.zero 16)
      (asked fourBytes ++ [.processBlockPacket (openFile []) (plainPacket 4) false false]) :
      DownloadClient storedMachine.toInflate Unit).Agree :=
  ((reservations_agree storedMachine.toInflate (fun _ => Digest.zero 16) _).2 (by decide)).1

/-- More than was asked for: the file forgets who works on the block, and the client does not. -/
theorem overrun_unreserved :
    ¬ (reached (fun _ => Digest.zero 16)
      (asked fourBytes ++ [.processBlockPacket (openFile []) (plainPacket 8) false false]) :
      DownloadClient storedMachine.toInflate Unit).Agree := by
  have hcalls : Intact storedMachine.toInflate (fun _ => Digest.zero 16)
      (asked fourBytes) := by decide
  have h := sound_reached_of_intact hcalls
  rw [reached,run_append,run_cons,run_nil]
  rw [reached] at h
  rw [h.agree_step_iff]
  decide

end DownloadClient

end EmuleQt.Client
