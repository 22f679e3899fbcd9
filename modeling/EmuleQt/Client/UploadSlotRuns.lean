import EmuleQt.Client.UploadSlot
import EmuleQt.Framework.Run
import Mathlib.Algebra.Order.BigOperators.Group.List
import Mathlib.Algebra.Group.Action.Defs

namespace EmuleQt.Client

open Files Framework Math Math.Interval Utils

section Blocks

variable {range : BlockRange} {block : RequestedBlock} {blocks : List RequestedBlock}

def BlockRange.size (b : BlockRange) : Nat := b.endOffset.toNat - b.startOffset.toNat

/-- Not empty and at most three AICH blocks long. -/
def BlockRange.Fits (b : BlockRange) : Prop :=
  b.startOffset < b.endOffset ∧ b.size ≤ 3 * EMBLOCKSIZE

theorem BlockRange.length_toNat (h : range.startOffset≤range.endOffset) :
    range.length.toNat=range.size := UInt64.toNat_sub_of_le _ _ h

def RequestedBlock.inFlight (b : RequestedBlock) : Nat := if b.readQueued then b.size else 0

def queuedBytes (blocks : List RequestedBlock) : Nat := (blocks.map (·.inFlight)).sum

def ranges (blocks : List RequestedBlock) : List BlockRange := blocks.map (·.toBlockRange)

def totalSize (blocks : List RequestedBlock) : Nat := (blocks.map (·.size)).sum

@[simp] theorem queuedBytes_nil : queuedBytes []=0 := rfl

@[simp] theorem queuedBytes_cons :
    queuedBytes (block::blocks)=block.inFlight+queuedBytes blocks := rfl

@[simp] theorem queuedBytes_append (more : List RequestedBlock) :
    queuedBytes (blocks++more)=queuedBytes blocks+queuedBytes more := by
  simp [queuedBytes]

@[simp] theorem ranges_nil : ranges []=[] := rfl

@[simp] theorem ranges_cons : ranges (block::blocks)=block.toBlockRange::ranges blocks := rfl

@[simp] theorem ranges_append (more : List RequestedBlock) :
    ranges (blocks++more)=ranges blocks++ranges more := List.map_append

theorem mem_ranges : range∈ranges blocks ↔ ∃ b∈blocks, b.toBlockRange=range := List.mem_map

theorem totalSize_cons : totalSize (block::blocks)=block.size+totalSize blocks := rfl

theorem queuedBytes_le : queuedBytes blocks≤totalSize blocks := by
  refine List.sum_le_sum fun b _ => ?_
  unfold RequestedBlock.inFlight
  split_ifs
  · exact Nat.le_refl _
  · exact Nat.zero_le _

theorem totalSize_le {size : Nat} (h : ∀ b∈blocks,b.size ≤ size) :
    totalSize blocks≤blocks.length*size := by
  have hsum := List.sum_le_card_nsmul (blocks.map (·.size)) size fun x hx => by
    obtain ⟨b,hb,rfl⟩ := List.mem_map.mp hx
    exact h b hb
  rwa [List.length_map,smul_eq_mul] at hsum

theorem any_sameBlock :
    blocks.any (UploadSlot.sameBlock range)=true ↔ range∈ranges blocks := by
  simp [UploadSlot.sameBlock,mem_ranges]

end Blocks

section Files

variable {fileSize start stop : Nat} {f : SharedFile} {range : BlockRange}

/-- What is neither missing nor still on its way to the disk. -/
def PartData.OnDisk (part : PartData fileSize) (x : Nat) : Prop :=
  x ∉ union part.gapList ∧ x ∉ union part.bufferedData ∧ x ∉ union part.flushingData

theorem not_mem_of_no_overlap {bds : List Interval}
    (h : bds.any (fun bd => decide (bd.start ≤ stop ∧ bd.stop≥start))=false) {x : Nat}
    (hstart : start≤x) (hstop : x ≤ stop) : x∉union bds := by
  rintro ⟨bd,hbd,hlow,hhigh⟩
  have hapart := List.any_eq_false.mp h bd hbd
  exact hapart (decide_eq_true ⟨Nat.le_trans hlow hstop,Nat.le_trans hstart hhigh⟩)

theorem PartData.onDisk_of_isCompleteBDSafe {part : PartData fileSize} (hstop : stop<fileSize)
    (h : part.isCompleteBDSafe start stop=true) {x : Nat} (hstart : start≤x)
    (hx : x ≤ stop) : part.OnDisk x := by
  have hmin : min stop (fileSize-1)=stop := Nat.min_eq_left (Nat.le_sub_one_of_lt hstop)
  unfold isCompleteBDSafe at h
  rw [if_neg (Nat.ne_zero_of_lt hstop),hmin] at h
  dsimp only at h
  split_ifs at h with hgaps
  obtain ⟨hle,hcomplete⟩ := not_or.mp hgaps
  simp only [Bool.not_eq_false] at hcomplete
  simp only [Bool.and_eq_true,Bool.not_eq_true'] at h
  exact ⟨(isCompleteRange_iff (Nat.not_lt.mp hle) part.wellFormed).mp hcomplete x hstart hx,
    not_mem_of_no_overlap h.1 hstart hx,not_mem_of_no_overlap h.2 hstart hx⟩

/-- The block may be served from the file as it stands. -/
def SharedFile.Holds (f : SharedFile) (range : BlockRange) : Prop :=
  range.Fits ∧ range.endOffset ≤ f.fileSize ∧
    ∀ part, f.partData = some part →
      ∀ x, range.startOffset.toNat ≤ x → x < range.endOffset.toNat → part.OnDisk x

theorem SharedFile.holds_of_checks (hcomplete : UploadSlot.incomplete f range=false)
    (hbounds : ¬ (range.startOffset≥range.endOffset ∨ range.endOffset>f.fileSize))
    (hlength : ¬ range.length>UInt64.ofNat (EMBLOCKSIZE*3)) : f.Holds range := by
  obtain ⟨hstart,hend⟩ := not_or.mp hbounds
  have hlt : range.startOffset<range.endOffset := UInt64.not_le.mp hstart
  have hle : range.endOffset≤f.fileSize := UInt64.not_lt.mp hend
  have hsize : range.size≤3*EMBLOCKSIZE := by
    have hlength' := UInt64.le_iff_toNat_le.mp (UInt64.not_lt.mp hlength)
    rw [BlockRange.length_toNat (UInt64.le_of_lt hlt)] at hlength'
    exact Nat.le_trans hlength' (by decide)
  refine ⟨⟨hlt,hsize⟩,hle,fun part hpart x hx hx' => ?_⟩
  unfold UploadSlot.incomplete at hcomplete
  rw [hpart] at hcomplete
  simp only [gt_iff_lt,hlt,decide_true,Bool.true_and,Bool.not_eq_false'] at hcomplete
  have hlast : (range.endOffset-1).toNat=range.endOffset.toNat-1 := by
    have hone : (1 : UInt64)≤range.endOffset := by
      exact Nat.lt_of_le_of_lt (Nat.zero_le _) (UInt64.lt_iff_toNat_lt.mp hlt)
    rw [UInt64.toNat_sub_of_le _ _ hone]
    rfl
  have hle' := UInt64.le_iff_toNat_le.mp hle
  rw [hlast] at hcomplete
  exact PartData.onDisk_of_isCompleteBDSafe (by omega) hcomplete hx (by omega)

end Files

namespace UploadSlot

/-- Every read goes to a block that was accepted before. -/
def Backed : List BlockEvent → Prop
  | [] => True
  | .accepted _ _ :: history => Backed history
  | .readQueued range _ :: history => (∃ g, .accepted range g ∈ history) ∧ Backed history

theorem Backed.append {reads history : List BlockEvent} (h : Backed history)
    (hreads : ∀ e∈reads,∃ range f g, e = .readQueued range f ∧ .accepted range g∈history) :
    Backed (reads++history) := by
  induction reads with
  | nil => exact h
  | cons e reads ih =>
    obtain ⟨range,f,g,rfl,hg⟩ := hreads e List.mem_cons_self
    exact ⟨⟨g,List.mem_append_right reads hg⟩,
      ih fun e he => hreads e (List.mem_cons_of_mem _ he)⟩

theorem Backed.before {later earlier : List BlockEvent} {range : BlockRange} {f : SharedFile}
    (h : Backed (later ++ .readQueued range f::earlier)) : ∃ g, .accepted range g∈earlier := by
  induction later with
  | nil => exact h.1
  | cons e later ih =>
    cases e with
    | accepted _ _ => exact ih h
    | readQueued _ _ => exact ih h.2

section Pass

variable {env : Surroundings} {limit bytes : UInt64} {blocks : List RequestedBlock}

theorem readLoop_ranges :
    (ranges (readLoop env limit blocks bytes).blockRequests).Sublist (ranges blocks) := by
  induction blocks generalizing bytes with
  | nil => exact List.Sublist.refl _
  | cons block rest ih =>
    rw [readLoop]
    split_ifs with hqueued hfull
    · exact ih.cons_cons _
    · exact List.Sublist.refl _
    · cases env.getFileByID block.fileID with
      | none => exact ih.cons _
      | some srcFile =>
        dsimp only
        split_ifs with hhold
        · exact List.Sublist.refl _
        · exact ih.cons_cons _

theorem readLoop_bytes (hfits : ∀ b∈blocks,b.toBlockRange.Fits)
    (hsum : bytes.toNat+totalSize blocks<2^64) :
    queuedBytes (readLoop env limit blocks bytes).blockRequests+bytes.toNat =
      queuedBytes blocks+(readLoop env limit blocks bytes).blockReadBytesQueued.toNat := by
  induction blocks generalizing bytes with
  | nil => rfl
  | cons block rest ih =>
    have hrest : ∀ b∈rest,b.toBlockRange.Fits := fun b hb => hfits b (List.mem_cons_of_mem _ hb)
    rw [totalSize_cons] at hsum
    have hroom : bytes.toNat+totalSize rest<2^64 := by omega
    have hskip := ih hrest hroom
    rw [readLoop]
    split_ifs with hqueued hfull
    · simp only [queuedBytes_cons]
      omega
    · rfl
    · have hidle : block.inFlight=0 := if_neg hqueued
      cases env.getFileByID block.fileID with
      | none =>
        simp only [queuedBytes_cons,hidle]
        omega
      | some srcFile =>
        dsimp only
        split_ifs with hhold
        · rfl
        · have hblock := (hfits block List.mem_cons_self).1
          have hadd : (bytes+block.length).toNat=bytes.toNat+block.size := by
            rw [UInt64.toNat_add,BlockRange.length_toNat (UInt64.le_of_lt hblock)]
            exact Nat.mod_eq_of_lt (by omega)
          have hroom' : (bytes+block.length).toNat+totalSize rest<2^64 := by omega
          have htake := ih hrest hroom'
          have hflagged : ({ block with readQueued := true } : RequestedBlock).inFlight =
            block.size := if_pos rfl
          simp only [queuedBytes_cons,hidle,hflagged]
          omega

theorem readLoop_queued {e : BlockEvent} (he : e∈(readLoop env limit blocks bytes).queued) :
    ∃ b∈blocks, ∃ f, e = .readQueued b.toBlockRange f ∧
      env.getFileByID b.fileID=some f := by
  induction blocks generalizing bytes with
  | nil => cases he
  | cons block rest ih =>
    have hlift : (∃ b∈rest, ∃ f, e = .readQueued b.toBlockRange f ∧
        env.getFileByID b.fileID=some f) → ∃ b∈block::rest, ∃ f,
          e = .readQueued b.toBlockRange f ∧ env.getFileByID b.fileID=some f :=
      fun ⟨b,hb,hf⟩ => ⟨b,List.mem_cons_of_mem _ hb,hf⟩
    rw [readLoop] at he
    split_ifs at he with hqueued hfull
    · exact hlift (ih he)
    · cases he
    · cases hfile : env.getFileByID block.fileID with
      | none =>
        rw [hfile] at he
        exact hlift (ih he)
      | some srcFile =>
        rw [hfile] at he
        dsimp only at he
        split_ifs at he with hhold
        · cases he
        · rcases List.mem_append.mp he with he | he
          · exact hlift (ih he)
          · exact ⟨block,List.mem_cons_self,srcFile,List.mem_singleton.mp he,hfile⟩

theorem readLoop_flagged {b : RequestedBlock}
    (hb : b∈(readLoop env limit blocks bytes).blockRequests) (hflag : b.readQueued=true) :
    b∈blocks ∨ ∃ f, .readQueued b.toBlockRange f∈(readLoop env limit blocks bytes).queued := by
  induction blocks generalizing bytes with
  | nil => cases hb
  | cons block rest ih =>
    rw [readLoop] at hb ⊢
    split_ifs at hb ⊢ with hqueued hfull
    · rcases List.mem_cons.mp hb with rfl | hb
      · exact .inl List.mem_cons_self
      · exact (ih hb).imp_left (List.mem_cons_of_mem _)
    · exact .inl hb
    · cases hfile : env.getFileByID block.fileID with
      | none =>
        rw [hfile] at hb
        exact (ih hb).imp_left (List.mem_cons_of_mem _)
      | some srcFile =>
        rw [hfile] at hb
        dsimp only at hb ⊢
        split_ifs at hb ⊢ with hhold
        · exact .inl hb
        · rcases List.mem_cons.mp hb with rfl | hb
          · exact .inr ⟨srcFile,List.mem_append_right _ List.mem_cons_self⟩
          · rcases ih hb with hold | ⟨f,hf⟩
            · exact .inl (List.mem_cons_of_mem _ hold)
            · exact .inr ⟨f,List.mem_append_left _ hf⟩

end Pass

/-- The total, the two lists and the reads handed out fit together. -/
structure Sound (s : UploadSlot) : Prop where
  bytes : s.blockReadBytesQueued.toNat = queuedBytes s.blockRequests
  distinct : (ranges s.blockRequests ++ ranges s.doneBlocks).Nodup
  accepted : ∀ range ∈ ranges s.blockRequests, ∃ f, .accepted range f ∈ s.history
  holds : ∀ range f, .accepted range f ∈ s.history → f.Holds range
  flagged : ∀ b ∈ s.blockRequests, b.readQueued = true →
    ∃ f, .readQueued b.toBlockRange f ∈ s.history
  backed : Backed s.history
  pending_le : s.blockRequests.length ≤ kMaxPendingBlockRequests
  done_le : s.doneBlocks.length ≤ kMaxDoneBlocks

variable {s : UploadSlot} {env : Surroundings} {range : BlockRange}

theorem Sound.fits (h : Sound s) {b : RequestedBlock} (hb : b∈s.blockRequests) :
    b.toBlockRange.Fits := by
  obtain ⟨f,hf⟩ := h.accepted _ (mem_ranges.mpr ⟨b,hb,rfl⟩)
  exact (h.holds _ f hf).1

theorem Sound.room (h : Sound s) :
    s.blockReadBytesQueued.toNat+totalSize s.blockRequests<2^64 := by
  have htotal := totalSize_le fun b hb => (h.fits hb).2
  have hqueued : queuedBytes s.blockRequests≤totalSize s.blockRequests := queuedBytes_le
  have hmost : s.blockRequests.length*(3*EMBLOCKSIZE) ≤
      kMaxPendingBlockRequests*(3*EMBLOCKSIZE) := Nat.mul_le_mul_right _ h.pending_le
  have hbytes := h.bytes
  have hconst : kMaxPendingBlockRequests*(3*EMBLOCKSIZE)=566231040 := by decide
  omega

theorem sound_init : Sound init where
  bytes := rfl
  distinct := List.nodup_nil
  accepted _ hr := absurd hr List.not_mem_nil
  holds _ _ hf := absurd hf List.not_mem_nil
  flagged _ hb := absurd hb List.not_mem_nil
  backed := trivial
  pending_le := Nat.zero_le _
  done_le := Nat.zero_le _

theorem Sound.startBlockReads (h : Sound s) (env : Surroundings) :
    Sound (s.startBlockReads env) := by
  unfold UploadSlot.startBlockReads
  split_ifs with hidle
  · exact h
  cases env.uploadQueue with
  | none => exact h
  | some queue =>
    dsimp only
    split_ifs with hthread
    · exact h
    have hranges : (ranges (readLoop env (readLimit env.upDatarate) s.blockRequests
        s.blockReadBytesQueued).blockRequests).Sublist (ranges s.blockRequests) := readLoop_ranges
    have hbytes : queuedBytes (readLoop env (readLimit env.upDatarate) s.blockRequests
        s.blockReadBytesQueued).blockRequests+s.blockReadBytesQueued.toNat =
        queuedBytes s.blockRequests+(readLoop env (readLimit env.upDatarate) s.blockRequests
          s.blockReadBytesQueued).blockReadBytesQueued.toNat :=
      readLoop_bytes (fun b hb => h.fits hb) h.room
    refine ⟨?_,?_,fun range hr => ?_,fun range f hf => ?_,fun b hb hflag => ?_,?_,?_,
      h.done_le⟩
    · have htotal := h.bytes
      dsimp only
      omega
    · exact h.distinct.sublist (hranges.append (List.Sublist.refl _))
    · obtain ⟨f,hf⟩ := h.accepted range (hranges.subset hr)
      exact ⟨f,List.mem_append_right _ hf⟩
    · rcases List.mem_append.mp hf with hf | hf
      · obtain ⟨b,-,g,heq,-⟩ := readLoop_queued hf
        cases heq
      · exact h.holds range f hf
    · rcases readLoop_flagged hb hflag with hold | ⟨f,hf⟩
      · obtain ⟨f,hf⟩ := h.flagged b hold hflag
        exact ⟨f,List.mem_append_right _ hf⟩
      · exact ⟨f,List.mem_append_left _ hf⟩
    · refine h.backed.append fun e he => ?_
      obtain ⟨b,hb,f,rfl,-⟩ := readLoop_queued he
      obtain ⟨g,hg⟩ := h.accepted _ (mem_ranges.mpr ⟨b,hb,rfl⟩)
      exact ⟨b.toBlockRange,f,g,rfl,hg⟩
    · have hlength := hranges.length_le
      simp only [ranges,List.length_map] at hlength
      exact Nat.le_trans hlength h.pending_le

theorem Sound.flushSendBlocks (h : Sound s) : Sound s.flushSendBlocks where
  bytes := rfl
  distinct := List.nodup_nil
  accepted _ hr := absurd hr List.not_mem_nil
  holds := h.holds
  flagged _ hb := absurd hb List.not_mem_nil
  backed := h.backed
  pending_le := Nat.zero_le _
  done_le := Nat.zero_le _

theorem Sound.of_blocks {s' : UploadSlot} (h : Sound s)
    (hrequests : s'.blockRequests=s.blockRequests) (hdone : s'.doneBlocks=s.doneBlocks)
    (hbytes : s'.blockReadBytesQueued=s.blockReadBytesQueued)
    (hhistory : s'.history=s.history) : Sound s' := by
  obtain ⟨h1,h2,h3,h4,h5,h6,h7,h8⟩ := h
  exact ⟨by rw [hbytes,hrequests,h1],by rwa [hrequests,hdone],by rwa [hrequests,hhistory],
    by rwa [hhistory],by rwa [hrequests,hhistory],by rwa [hhistory],by rwa [hrequests],
    by rwa [hdone]⟩

theorem Sound.removeFromUploadQueue (h : Sound s) (queue : UploadQueueView) :
    Sound (s.removeFromUploadQueue queue) := by
  unfold UploadSlot.removeFromUploadQueue
  split_ifs
  · exact Sound.flushSendBlocks (h.of_blocks rfl rfl rfl rfl)
  · exact h

theorem Sound.ban (h : Sound s) : Sound s.ban := h.of_blocks rfl rfl rfl rfl

theorem Sound.accept (h : Sound s) {srcFile : SharedFile} {reqBlock : BlockRange}
    (hholds : srcFile.Holds reqBlock) (hdone : reqBlock∉ranges s.doneBlocks)
    (hrequests : reqBlock∉ranges s.blockRequests)
    (hroom : s.blockRequests.length<kMaxPendingBlockRequests) :
    Sound { s with
      blockRequests := s.blockRequests++[{ toBlockRange := reqBlock }]
      slotBlocksAccepted := s.slotBlocksAccepted+1
      history := .accepted reqBlock srcFile::s.history } := by
  refine ⟨?_,?_,fun range hr => ?_,fun range f hf => ?_,fun b hb hflag => ?_,h.backed,?_,
    h.done_le⟩
  · have hnew : ({ toBlockRange := reqBlock } : RequestedBlock).inFlight=0 := if_neg nofun
    simp only [queuedBytes_append,queuedBytes_cons,queuedBytes_nil,hnew]
    exact h.bytes
  · have hmoved : (ranges s.blockRequests++reqBlock::ranges s.doneBlocks).Nodup := by
      refine List.nodup_middle.mpr (List.nodup_cons.mpr ⟨?_,h.distinct⟩)
      rw [List.mem_append]
      exact not_or.mpr ⟨hrequests,hdone⟩
    simpa using hmoved
  · rw [ranges_append,ranges_cons,ranges_nil] at hr
    rcases List.mem_append.mp hr with hr | hr
    · obtain ⟨f,hf⟩ := h.accepted range hr
      exact ⟨f,List.mem_cons_of_mem _ hf⟩
    · obtain rfl := List.mem_singleton.mp hr
      exact ⟨srcFile,List.mem_cons_self⟩
  · rcases List.mem_cons.mp hf with heq | hf
    · cases heq
      exact hholds
    · exact h.holds range f hf
  · rcases List.mem_append.mp hb with hb | hb
    · obtain ⟨f,hf⟩ := h.flagged b hb hflag
      exact ⟨f,List.mem_cons_of_mem _ hf⟩
    · obtain rfl := List.mem_singleton.mp hb
      cases hflag
  · rw [List.length_append,List.length_singleton]
    exact hroom

theorem Sound.admitBlock (h : Sound s) (env : Surroundings) (srcFile : SharedFile)
    (reqBlock : BlockRange) : Sound (s.admitBlock env srcFile reqBlock) := by
  unfold UploadSlot.admitBlock
  split_ifs with hincomplete hbounds hlength hdup hrepeat hfull
  · exact h
  · exact h
  · exact h
  · exact h
  · cases env.uploadQueue with
    | none => exact h.ban
    | some queue => exact h.ban.removeFromUploadQueue queue
  · exact h
  · obtain ⟨hdone,hrequests⟩ := not_or.mp hdup
    rw [any_sameBlock] at hdone hrequests
    have hholds : srcFile.Holds reqBlock :=
      SharedFile.holds_of_checks (Bool.eq_false_iff.mpr hincomplete) hbounds hlength
    exact (h.accept hholds hdone hrequests (Nat.not_le.mp hfull)).startBlockReads env

theorem Sound.addReqBlock (h : Sound s) (env : Surroundings) (reqBlock : BlockRange) :
    Sound (s.addReqBlock env reqBlock) := by
  have hasked : Sound { s with slotBlocksAsked := s.slotBlocksAsked+1 } :=
    h.of_blocks rfl rfl rfl rfl
  unfold UploadSlot.addReqBlock
  split_ifs with hstate
  · exact h
  dsimp only
  split_ifs with hcollection
  · exact hasked
  cases env.getFileByID reqBlock.fileID with
  | none => exact hasked
  | some srcFile => exact hasked.admitBlock env srcFile reqBlock

theorem sameBlock_iff {b : RequestedBlock} : sameBlock range b=true ↔ b.toBlockRange=range :=
  beq_iff_eq

theorem bytes_sub {bytes : UInt64} {rest : Nat} (hle : range.startOffset≤range.endOffset)
    (h : bytes.toNat=range.size+rest) :
    (bytes-min bytes range.length).toNat=rest := by
  have hlength := BlockRange.length_toNat hle
  have hle' : range.length≤bytes := UInt64.le_iff_toNat_le.mpr (by omega)
  have hmin : min bytes range.length=range.length := by
    show (if bytes≤range.length then bytes else range.length)=range.length
    split_ifs with hge
    · exact UInt64.le_antisymm hge hle'
    · rfl
  rw [hmin,UInt64.toNat_sub_of_le _ _ hle']
  omega

theorem Sound.requeueBlockRead (h : Sound s) (range : BlockRange) :
    Sound (s.requeueBlockRead range).1 := by
  unfold UploadSlot.requeueBlockRead
  split
  · exact h
  next before block after hsplit =>
    obtain ⟨hlist,hfound,-⟩ := splitFirst_some hsplit
    obtain ⟨hqueued,hsame⟩ := Bool.and_eq_true_iff.mp hfound
    obtain rfl := sameBlock_iff.mp hsame
    have hmem : block∈s.blockRequests := hlist ▸ List.mem_append_right _ List.mem_cons_self
    have hranges : ranges (before ++ { block with readQueued := false } :: after) =
        ranges s.blockRequests := by simp [hlist]
    refine ⟨?_,?_,?_,h.holds,fun b hb hflag => ?_,h.backed,?_,h.done_le⟩
    · have hidle : ({ block with readQueued := false } : RequestedBlock).inFlight=0 :=
        if_neg nofun
      have hbusy : block.inFlight=block.size := if_pos hqueued
      have htotal := h.bytes
      simp only [hlist,queuedBytes_append,queuedBytes_cons,hbusy] at htotal
      simp only [queuedBytes_append,queuedBytes_cons,hidle]
      have hsplit : s.blockReadBytesQueued.toNat =
          block.size+(queuedBytes before+queuedBytes after) := by omega
      have hleft := bytes_sub (UInt64.le_of_lt (h.fits hmem).1) hsplit
      exact hleft.trans (by omega)
    · dsimp only
      rw [hranges]
      exact h.distinct
    · dsimp only
      rw [hranges]
      exact h.accepted
    · have hb' : b∈s.blockRequests := by
        rw [hlist]
        rcases List.mem_append.mp hb with hb | hb
        · exact List.mem_append_left _ hb
        · rcases List.mem_cons.mp hb with rfl | hb
          · cases hflag
          · exact List.mem_append_right _ (List.mem_cons_of_mem _ hb)
      exact h.flagged b hb' hflag
    · have hlength := h.pending_le
      simpa [hlist] using hlength

theorem Sound.markBlockDone (h : Sound s) (range : BlockRange) :
    Sound (s.markBlockDone range).1 := by
  unfold UploadSlot.markBlockDone
  split
  · exact h
  next before block after hsplit =>
    obtain ⟨hlist,hsame,-⟩ := splitFirst_some hsplit
    obtain rfl := sameBlock_iff.mp hsame
    have hmem : block∈s.blockRequests := hlist ▸ List.mem_append_right _ List.mem_cons_self
    have hsub : (before++after).Sublist s.blockRequests :=
      hlist ▸ (List.Sublist.refl before).append (List.sublist_cons_self block after)
    refine ⟨?_,?_,fun range hr => ?_,h.holds,fun b hb => h.flagged b (hsub.subset hb),
      h.backed,?_,?_⟩
    · have htotal := h.bytes
      simp only [hlist,queuedBytes_append,queuedBytes_cons] at htotal
      simp only [queuedBytes_append]
      split_ifs with hqueued
      · have hbusy : block.inFlight=block.size := if_pos hqueued
        exact bytes_sub (UInt64.le_of_lt (h.fits hmem).1) (by omega)
      · have hidle : block.inFlight=0 := if_neg hqueued
        omega
    · have hdistinct := h.distinct
      have hkept : (ranges ((block::s.doneBlocks).take kMaxDoneBlocks)).Sublist
          (block.toBlockRange::ranges s.doneBlocks) :=
        (List.take_sublist kMaxDoneBlocks (block::s.doneBlocks)).map _
      simp only [hlist,ranges_append,ranges_cons,List.append_assoc,List.cons_append]
        at hdistinct
      have hmoved : (ranges before++(ranges after ++
          block.toBlockRange::ranges s.doneBlocks)).Nodup := by
        refine (List.Perm.nodup_iff ?_).mp hdistinct
        exact List.Perm.append_left _ List.perm_middle.symm
      rw [ranges_append,List.append_assoc]
      exact hmoved.sublist ((List.Sublist.refl _).append ((List.Sublist.refl _).append hkept))
    · exact h.accepted range ((hsub.map (·.toBlockRange)).subset hr)
    · exact Nat.le_trans hsub.length_le h.pending_le
    · exact List.length_take_le _ _

theorem Sound.processRequestParts (h : Sound s) (env : Surroundings) (data : List UInt8)
    (i64Offsets : Bool) : Sound (s.processRequestParts env data i64Offsets) := by
  have hall : ∀ (blocks : List BlockRange) (s : UploadSlot), Sound s →
      Sound (blocks.foldl (fun s b => s.addReqBlock env b) s) := by
    intro blocks
    induction blocks with
    | nil => exact fun _ hs => hs
    | cons b blocks ih => exact fun s hs => ih _ (hs.addReqBlock env b)
  unfold UploadSlot.processRequestParts
  by_cases hshort : data.length<(if i64Offsets then 64 else 40)
  · rwa [if_pos hshort]
  rw [if_neg hshort]
  cases readRequestParts i64Offsets data with
  | error e => exact h
  | ok r => exact hall _ s h

theorem Sound.step (h : Sound s) (call : Call) : Sound (s.step call) := by
  cases call with
  | addReqBlock env reqBlock => exact h.addReqBlock env reqBlock
  | processRequestParts env data i64Offsets => exact h.processRequestParts env data i64Offsets
  | startBlockReads env => exact h.startBlockReads env
  | requeueBlockRead range => exact h.requeueBlockRead range
  | markBlockDone range => exact h.markBlockDone range
  | flushSendBlocks => exact h.flushSendBlocks
  | setUploadState state => exact h.of_blocks rfl rfl rfl rfl
  | setCollectionUploadSlot v => exact h.of_blocks rfl rfl rfl rfl

theorem Sound.not_done (h : Sound s) (hdone : (s.markBlockDone range).2=true) :
    range∉ranges s.doneBlocks := by
  unfold UploadSlot.markBlockDone at hdone
  split at hdone
  · cases hdone
  next before block after hsplit =>
    obtain ⟨hlist,hsame,-⟩ := splitFirst_some hsplit
    obtain rfl := sameBlock_iff.mp hsame
    have hrequest : block.toBlockRange∈ranges s.blockRequests :=
      mem_ranges.mpr ⟨block,hlist ▸ List.mem_append_right _ List.mem_cons_self,rfl⟩
    exact List.disjoint_of_nodup_append h.distinct hrequest

section Sizes

variable {sizeOf : Crypto.MD4Hash → UInt64}

/-- A hash names files of one size only. -/
def Surroundings.OneSize (sizeOf : Crypto.MD4Hash → UInt64) (env : Surroundings) : Prop :=
  ∀ fileID f, env.getFileByID fileID=some f → f.fileSize=sizeOf fileID

def Call.OneSize (sizeOf : Crypto.MD4Hash → UInt64) : Call → Prop
  | .addReqBlock env _ => Surroundings.OneSize sizeOf env
  | .processRequestParts env _ _ => Surroundings.OneSize sizeOf env
  | .startBlockReads env => Surroundings.OneSize sizeOf env
  | _ => True

/-- Every file a block was looked up in has the size its hash names. -/
def Sized (sizeOf : Crypto.MD4Hash → UInt64) (history : List BlockEvent) : Prop :=
  ∀ e ∈ history, match e with
    | .accepted range f => f.fileSize = sizeOf range.fileID
    | .readQueued range f => f.fileSize = sizeOf range.fileID

theorem Sized.startBlockReads (h : Sized sizeOf s.history)
    (henv : Surroundings.OneSize sizeOf env) : Sized sizeOf (s.startBlockReads env).history := by
  unfold UploadSlot.startBlockReads
  split_ifs with hidle
  · exact h
  cases env.uploadQueue with
  | none => exact h
  | some queue =>
    dsimp only
    split_ifs with hthread
    · exact h
    intro e he
    rcases List.mem_append.mp he with he | he
    · obtain ⟨b,-,f,rfl,hf⟩ := readLoop_queued he
      exact henv b.fileID f hf
    · exact h e he

theorem Sized.admitBlock {srcFile : SharedFile} {reqBlock : BlockRange}
    (h : Sized sizeOf s.history) (henv : Surroundings.OneSize sizeOf env)
    (hfile : env.getFileByID reqBlock.fileID=some srcFile) :
    Sized sizeOf (s.admitBlock env srcFile reqBlock).history := by
  unfold UploadSlot.admitBlock
  split_ifs
  · exact h
  · exact h
  · exact h
  · exact h
  · cases env.uploadQueue with
    | none => exact h
    | some queue =>
      dsimp only [UploadSlot.removeFromUploadQueue]
      split_ifs
      · exact h
      · exact h
  · exact h
  · refine Sized.startBlockReads (fun e he => ?_) henv
    rcases List.mem_cons.mp he with rfl | he
    · exact henv reqBlock.fileID srcFile hfile
    · exact h e he

theorem Sized.addReqBlock {reqBlock : BlockRange} (h : Sized sizeOf s.history)
    (henv : Surroundings.OneSize sizeOf env) :
    Sized sizeOf (s.addReqBlock env reqBlock).history := by
  unfold UploadSlot.addReqBlock
  split_ifs with hstate
  · exact h
  dsimp only
  split_ifs with hcollection
  · exact h
  cases hfile : env.getFileByID reqBlock.fileID with
  | none => exact h
  | some srcFile => exact Sized.admitBlock h henv hfile

theorem Sized.processRequestParts {data : List UInt8} {i64Offsets : Bool}
    (h : Sized sizeOf s.history) (henv : Surroundings.OneSize sizeOf env) :
    Sized sizeOf (s.processRequestParts env data i64Offsets).history := by
  have hall : ∀ (blocks : List BlockRange) (s : UploadSlot), Sized sizeOf s.history →
      Sized sizeOf (blocks.foldl (fun s b => s.addReqBlock env b) s).history := by
    intro blocks
    induction blocks with
    | nil => exact fun _ hs => hs
    | cons b blocks ih => exact fun s hs => ih _ (Sized.addReqBlock hs henv)
  unfold UploadSlot.processRequestParts
  by_cases hshort : data.length<(if i64Offsets then 64 else 40)
  · rwa [if_pos hshort]
  rw [if_neg hshort]
  cases readRequestParts i64Offsets data with
  | error e => exact h
  | ok r => exact hall _ s h

theorem history_requeueBlockRead : (s.requeueBlockRead range).1.history=s.history := by
  unfold requeueBlockRead
  split <;> rfl

theorem history_markBlockDone : (s.markBlockDone range).1.history=s.history := by
  unfold markBlockDone
  split <;> rfl

theorem Sized.step {call : Call} (h : Sized sizeOf s.history) (hcall : Call.OneSize sizeOf call) :
    Sized sizeOf (s.step call).history := by
  cases call with
  | addReqBlock env reqBlock => exact Sized.addReqBlock h hcall
  | processRequestParts env data i64Offsets => exact Sized.processRequestParts h hcall
  | startBlockReads env => exact Sized.startBlockReads h hcall
  | requeueBlockRead range => exact history_requeueBlockRead (s := s) ▸ h
  | markBlockDone range => exact history_markBlockDone (s := s) ▸ h
  | flushSendBlocks => exact h
  | setUploadState state => exact h
  | setCollectionUploadSlot v => exact h

end Sizes

/-- A slot after some calls, from a client that has just been made. -/
def after (calls : List Call) : UploadSlot := run step init calls

theorem sound_after (calls : List Call) : Sound (after calls) := by
  have hstep : ∀ s call,Sound s → True → Sound (step s call) := fun _ call h _ => h.step call
  exact run_invariant hstep sound_init (along_true step init calls)

theorem sized_after {sizeOf : Crypto.MD4Hash → UInt64} {calls : List Call}
    (hcalls : ∀ call∈calls,Call.OneSize sizeOf call) : Sized sizeOf (after calls).history := by
  have hstep : ∀ s call,Sized sizeOf s.history → Call.OneSize sizeOf call →
      Sized sizeOf (step s call).history := fun _ _ h hcall => h.step hcall
  have hinit : Sized sizeOf init.history := fun e he => absurd he List.not_mem_nil
  exact run_invariant hstep hinit (along_of_forall init hcalls)

theorem uploadSlot_inStep (calls : List Call) :
    let s := after calls
    s.blockReadBytesQueued.toNat=queuedBytes s.blockRequests ∧
      (ranges s.blockRequests++ranges s.doneBlocks).Nodup ∧
      (∀ range,(s.markBlockDone range).2=true → range∉ranges s.doneBlocks) ∧
      (∀ b∈s.blockRequests,b.readQueued=true →
        ∃ f, .readQueued b.toBlockRange f∈s.history) ∧
      (∀ earlier later range f,s.history=later ++ .readQueued range f::earlier →
        ∃ g, .accepted range g∈earlier ∧ g.Holds range) ∧
      (∀ sizeOf,(∀ call∈calls,Call.OneSize sizeOf call) →
        ∀ range f,.readQueued range f∈s.history → range.endOffset≤f.fileSize) ∧
      s.blockRequests.length≤kMaxPendingBlockRequests ∧
      s.doneBlocks.length≤kMaxDoneBlocks := by
  have h := sound_after calls
  have hbacked : ∀ earlier later range f,
      (after calls).history=later ++ .readQueued range f::earlier →
        ∃ g, .accepted range g∈earlier ∧ g.Holds range := by
    intro earlier later range f heq
    obtain ⟨g,hg⟩ := Backed.before (heq ▸ h.backed)
    refine ⟨g,hg,h.holds range g ?_⟩
    rw [heq]
    exact List.mem_append_right later (List.mem_cons_of_mem _ hg)
  refine ⟨h.bytes,h.distinct,fun range => h.not_done,h.flagged,hbacked,?_,h.pending_le,
    h.done_le⟩
  intro sizeOf hcalls range f hread
  obtain ⟨later,earlier,heq⟩ := List.append_of_mem hread
  obtain ⟨g,hg,-,hend,-⟩ := hbacked earlier later range f heq
  have hsized := sized_after hcalls
  have hg' : .accepted range g∈(after calls).history := by
    rw [heq]
    exact List.mem_append_right later (List.mem_cons_of_mem _ hg)
  have hsame : f.fileSize=g.fileSize := (hsized _ hread).trans (hsized _ hg').symm
  rwa [hsame]

end UploadSlot

end EmuleQt.Client
