import EmuleQt.Client.StreamHistory
import EmuleQt.Net.Packet

namespace EmuleQt.Client

open Crypto Framework Net Utils

/-- What was handed to the file for a block is the start of what its stream decompresses to, byte
for byte where the block has it. -/
structure InPlace (z : Inflater) (r : Reservation) (zipped : List UInt8)
    (pieces : List HandedPiece) : Prop where
  consecutive : Consecutive r.startOffset pieces
  inside : (written pieces).length≤r.length
  faithful : ∀ rest, written pieces <+: z.decompress (zipped++rest)

/-- A block's stream is where its counter says, or it has ended. -/
def Working (z : Inflater) (p : PendingBlock z.toInflate) (zipped : List UInt8)
    (pieces : List HandedPiece) : Prop :=
  (∃ out, Streams z p.zStream zipped out ∧ p.totalUnzipped = out.length ∧ out.length < 2 ^ 32 ∧
    (out.length ≤ p.block.length → written pieces = out)) ∨
  (p.zStream = none ∧ ∃ w, w <+: zipped ∧ z.Whole w)

/-- The stream that the block needs: all of it, and nothing else. -/
def Fills (z : Inflater) (b : BlockSpan) (stream : List UInt8) : Prop :=
  z.Whole stream ∧ (z.decompress stream).length = b.length

/-- More data for a stream that has not ended, and that stays where a counter of 32 bits can
follow it. -/
def GoesOn (z : Inflater) (zipped payload : List UInt8) : Prop :=
  (∀ w, w <+: zipped → ¬ z.Whole w) ∧ (z.decompress (zipped++payload)).length<2^32

theorem InPlace.feed {z : Inflater} {r : Reservation} {zipped : List UInt8}
    {pieces : List HandedPiece} (h : InPlace z r zipped pieces) (more : List UInt8) : InPlace z r (zipped++more) pieces := by
  refine ⟨h.consecutive,h.inside,fun rest => ?_⟩
  rw [List.append_assoc]
  exact h.faithful (more++rest)

section Unrolled

variable {z : Inflater} {cur : PendingBlock z.toInflate} {r : Unzipped z.toInflate}
  {base payload : List UInt8}

theorem Unrolled.small (h : Unrolled z payload base r)
    (hsmall : (z.decompress payload).length<2^32) :
    (base++r.output).length<2^32 ∧ r.totalUnzipped=(base++r.output).length := by
  have hpiece := h.faithful []
  rw [List.append_nil] at hpiece
  have hlt := Nat.lt_of_le_of_lt hpiece.length_le hsmall
  exact ⟨hlt,h.totalUnzipped.trans (Nat.mod_eq_of_lt hlt)⟩

theorem Unrolled.working {pieces : List HandedPiece} (h : Unrolled z payload base r)
    (hsmall : (z.decompress payload).length<2^32)
    (hwritten : (base++r.output).length≤cur.block.length →
      written pieces=base++r.output) :
    Working z { cur with zStream := r.zStream, totalUnzipped := r.totalUnzipped } payload
      pieces := by
  obtain ⟨hlt,htotal⟩ := h.small hsmall
  cases hstream : r.zStream with
  | none =>
    obtain ⟨w,hw,hwhole,-⟩ := h.ended hstream
    exact .inr ⟨rfl,w,hw,hwhole⟩
  | some zs => exact .inl ⟨base++r.output,h.goesOn zs hstream,htotal,hlt,hwritten⟩

theorem Unrolled.whole (h : Unrolled z payload base r) (hwhole : z.Whole payload) :
    r.zStream=none ∧ z.decompress payload=base++r.output := by
  cases hstream : r.zStream with
  | none =>
    obtain ⟨w,hw,hend,hall⟩ := h.ended hstream
    rw [z.whole_unique w payload hend hwhole hw] at hall
    exact ⟨rfl,hall⟩
  | some zs => exact absurd hwhole (z.not_whole _ _ _ (h.goesOn zs hstream).1)

end Unrolled

namespace DownloadClient

section Counters

variable {z : Inflater} {cur : PendingBlock z.toInflate} {r : Unzipped z.toInflate}
  {base : List UInt8} {size : Nat}

theorem firstBuffer_lt (size : Nat) : firstBuffer size<2^32 := by
  unfold firstBuffer EMBLOCKSIZE
  omega

theorem firstBuffer_pos (hsome : 0<size) (hsize : size≤kMaxReadBuffer) :
    0<firstBuffer size := by
  unfold kMaxReadBuffer at hsize
  unfold firstBuffer
  omega

theorem writeStart_eq (hlen : r.lenUnzipped=r.output.length)
    (htotal : r.totalUnzipped=(base++r.output).length)
    (hsmall : (base++r.output).length<2^32) :
    writeStart cur r=cur.block.startOffset+base.length := by
  have hend := cur.block.end_lt
  have hle := cur.block.start_le
  unfold MAX_EMULE_FILE_SIZE at hend
  rw [List.length_append] at htotal hsmall
  unfold writeStart
  omega

theorem overruns_iff (hlen : r.lenUnzipped=r.output.length)
    (htotal : r.totalUnzipped=(base++r.output).length)
    (hsmall : (base++r.output).length<2^32) (hsome : r.lenUnzipped≠0) :
    overruns cur r=true ↔ cur.block.length<(base++r.output).length := by
  have hstart : writeStart cur r=cur.block.startOffset+base.length :=
    writeStart_eq hlen htotal hsmall
  have hend := cur.block.end_lt
  have hle := cur.block.start_le
  unfold MAX_EMULE_FILE_SIZE at hend
  rw [List.length_append] at htotal hsmall ⊢
  unfold overruns
  rw [decide_eq_true_iff,hstart]
  unfold writeEnd BlockSpan.length
  omega

theorem unzipBlock_spec {zipped payload : List UInt8} (hstreams : Streams z cur.zStream zipped base)
    (htotal : cur.totalUnzipped=base.length)
    (hok : Unzipped.isOk (unzipBlock cur size payload)=true) :
    Unrolled z (zipped++payload) base (unzipBlock cur size payload) := by
  have hcode : (unzipBlock cur size payload).code = .Z_OK := (of_decide_eq_true hok).1
  unfold unzipBlock at hcode ⊢
  rw [htotal] at hcode ⊢
  exact unzip_spec hstreams (firstBuffer_lt size) hcode

theorem unzipBlock_ok {zipped payload stream : List UInt8}
    (hstreams : Streams z cur.zStream zipped base) (htotal : cur.totalUnzipped=base.length)
    (hfills : Fills z cur.block.toBlockSpan stream) (hsub : zipped++payload <+: stream)
    (hpayload : payload≠[]) (hsome : 0<size) (hsize : size≤kMaxReadBuffer) :
    Unzipped.isOk (unzipBlock cur size payload)=true := by
  have hcode : (unzipBlock cur size payload).code = .Z_OK := by
    unfold unzipBlock
    rw [htotal]
    exact unzip_ok hstreams hfills.1 hfills.2.le cur.block.length_le hsub (firstBuffer_lt size)
      hpayload (firstBuffer_pos hsome hsize)
  have hspec : Unrolled z (zipped++payload) base (unzipBlock cur size payload) := by
    unfold unzipBlock at hcode ⊢
    rw [htotal] at hcode ⊢
    exact unzip_spec hstreams (firstBuffer_lt size) hcode
  obtain ⟨rest,rfl⟩ := hsub
  have hpiece := (hspec.faithful rest).length_le
  have hblock : cur.block.length≤EMBLOCKSIZE := cur.block.length_le
  rw [hfills.2,List.length_append,← hspec.lenUnzipped] at hpiece
  unfold EMBLOCKSIZE at hblock
  exact decide_eq_true ⟨hcode,by omega⟩

end Counters

variable {z : Inflater} {File : Type} {s s' t : DownloadClient z.toInflate File} {f : File}
  {r : Reservation} {delivered : Prop} {before after : List (PendingBlock z.toInflate)}
  {cur cur' : PendingBlock z.toInflate} {size : Nat} {payload : List UInt8}
  {extra : List HandedPiece}

/-- What holds of the streams of a client; where `delivered`, a stream that fills its block is not
refused. -/
structure Unzipping (delivered : Prop) (z : Inflater) (s : DownloadClient z.toInflate File) :
    Prop where
  unknown : ∀ r, s.nextId≤r.id → s.fed r=[] ∧ s.pieces r=[]
  inPlace : ∀ r, InPlace z r (s.fed r) (s.pieces r)
  working : ∀ p∈s.pendingBlocks, p.zStreamError=false →
    Working z p (s.fed p.block) (s.pieces p.block)
  unbroken : delivered → ∀ p∈s.pendingBlocks, ∀ stream, Fills z p.block.toBlockSpan stream →
    s.fed p.block <+: stream → p.zStreamError=false

/-- A block that has got its whole stream has left the list, all of it written. -/
def Finished (z : Inflater) (s : DownloadClient z.toInflate File) : Prop :=
  ∀ r, Fills z r.toBlockSpan (s.fed r) → (∀ p ∈ s.pieces r, p.accepted = true) →
    r ∉ s.blocks ∧ written (s.pieces r) = z.decompress (s.fed r)

theorem Kept.fed {z : Inflate} {s s' : DownloadClient z File} (h : Kept s s') (r : Reservation) :
    s'.fed r=s.fed r ∧ s'.pieces r=s.pieces r := by
  unfold DownloadClient.fed pieces
  rw [h.history]
  exact ⟨rfl,rfl⟩

theorem Unzipping.kept (h : Unzipping delivered z s) (hk : Kept s s') :
    Unzipping delivered z s' := by
  refine ⟨fun r hr => ?_,fun r => ?_,fun p hp herror => ?_,fun hd p hp stream hfills hsub => ?_⟩
  · rw [(hk.fed r).1,(hk.fed r).2]
    exact h.unknown r (Nat.le_trans hk.nextId hr)
  · rw [(hk.fed r).1,(hk.fed r).2]
    exact h.inPlace r
  · rw [(hk.fed _).1,(hk.fed _).2]
    obtain ⟨q,hq,hpq⟩ | ⟨b,hb,hpb⟩ := hk.pending p hp
    · rw [hpq] at herror ⊢
      exact h.working q hq herror
    · rw [hpb]
      obtain ⟨hfed,hpieces⟩ := h.unknown b hb
      refine .inl ⟨[],⟨hfed,rfl⟩,rfl,by decide,fun _ => ?_⟩
      exact (congrArg written hpieces).trans rfl
  · obtain ⟨q,hq,hpq⟩ | ⟨b,hb,hpb⟩ := hk.pending p hp
    · rw [(hk.fed _).1] at hsub
      rw [hpq] at hfills hsub ⊢
      exact h.unbroken hd q hq stream hfills hsub
    · rw [hpb]
      rfl

theorem Finished.kept (h : Finished z s) (hu : Unzipping delivered z s) (hk : Kept s s') :
    Finished z s' := by
  intro r hfills haccepted
  rw [(hk.fed r).1] at hfills ⊢
  rw [(hk.fed r).2] at haccepted ⊢
  obtain ⟨hout,hwritten⟩ := h r hfills haccepted
  refine ⟨fun hin => ?_,hwritten⟩
  rcases hk.blocks hin with hin | hnew
  · exact hout hin
  · rw [(hu.unknown r hnew).1] at hfills
    exact z.not_whole_nil hfills.1

/-- A packet's data has gone into the stream of a block, and `extra` was handed on. -/
structure FedTo (s t : DownloadClient z.toInflate File) (b : Reservation) (payload : List UInt8)
    (extra : List HandedPiece) : Prop where
  fed : t.fed b=s.fed b++payload
  pieces : t.pieces b=s.pieces b++extra
  other : ∀ r, r≠b → t.fed r=s.fed r ∧ t.pieces r=s.pieces r
  nextId : t.nextId=s.nextId

theorem fedTo_quiet (hhistory : t.history=s.history++[.fed r payload])
    (hnext : t.nextId=s.nextId) : FedTo s t r payload [] := by
  refine ⟨?_,?_,fun b hb => ?_,hnext⟩
  · unfold DownloadClient.fed
    rw [hhistory,List.flatMap_append,List.flatMap_singleton,StreamEvent.zippedFor,if_pos rfl]
  · unfold pieces
    rw [hhistory,List.filterMap_append]
    rfl
  · unfold DownloadClient.fed pieces
    rw [hhistory,List.flatMap_append,List.flatMap_singleton,StreamEvent.zippedFor,
      if_neg hb.symm,List.append_nil,List.filterMap_append]
    exact ⟨rfl,List.append_nil _⟩

theorem fedTo_handed {start : Nat} {data : List UInt8} {accepted : Bool}
    (hhistory : t.history=s.history++[.fed r payload]++[.handed r start data accepted])
    (hnext : t.nextId=s.nextId) : FedTo s t r payload [⟨start,data,accepted⟩] := by
  refine ⟨?_,?_,fun b hb => ?_,hnext⟩
  · unfold DownloadClient.fed
    rw [hhistory,List.flatMap_append,List.flatMap_append,List.flatMap_singleton,
      List.flatMap_singleton,StreamEvent.zippedFor,if_pos rfl]
    exact List.append_nil _
  · unfold pieces
    rw [hhistory,List.filterMap_append,List.filterMap_append]
    simp [StreamEvent.pieceFor]
  · unfold DownloadClient.fed pieces
    rw [hhistory]
    simp [StreamEvent.pieceFor,StreamEvent.zippedFor,hb.symm]

theorem Sound.other_block (h : Sound delivered s)
    (hlist : s.pendingBlocks=before++cur::after) :
    ∀ p∈before++after,p.block≠cur.block := by
  have hids := h.distinct
  rw [blocks,hlist,List.map_append,List.map_cons,List.map_append,List.map_cons] at hids
  obtain ⟨hfresh,-⟩ := List.nodup_cons.mp (List.nodup_middle.mp hids)
  intro p hp heq
  refine hfresh ?_
  rw [← List.map_append,← List.map_append,← heq]
  exact List.mem_map_of_mem (List.mem_map_of_mem hp)

theorem Unzipping.feed {strict : Prop} (h : Unzipping delivered z s) (hsound : Sound strict s)
    (hlist : s.pendingBlocks=before++cur::after)
    (hfed : FedTo s t cur.block payload extra)
    (htlist : t.pendingBlocks=before++cur'::after) (hblock : cur'.block=cur.block)
    (hplace : InPlace z cur.block (s.fed cur.block++payload) (s.pieces cur.block++extra))
    (hworking : cur'.zStreamError=false →
      Working z cur' (s.fed cur.block++payload) (s.pieces cur.block++extra))
    (hunbroken : delivered → ∀ stream,Fills z cur.block.toBlockSpan stream →
      s.fed cur.block++payload <+: stream → cur'.zStreamError=false) :
    Unzipping delivered z t := by
  have hcur : cur∈s.pendingBlocks := hlist ▸ List.mem_append_right _ List.mem_cons_self
  have hid := (hsound.own _ (List.mem_map_of_mem hcur)).2
  have hsplit : ∀ p∈t.pendingBlocks,
      p=cur' ∨ (p∈s.pendingBlocks ∧ p.block≠cur.block) := by
    intro p hp
    rw [htlist] at hp
    rw [hlist]
    have hother := hsound.other_block hlist p
    rcases List.mem_append.mp hp with hp | hp
    · exact .inr ⟨List.mem_append_left _ hp,hother (List.mem_append_left _ hp)⟩
    · rcases List.mem_cons.mp hp with heq | hp
      · exact .inl heq
      · exact .inr ⟨List.mem_append_right _ (List.mem_cons_of_mem _ hp),
          hother (List.mem_append_right _ hp)⟩
  refine ⟨fun r hr => ?_,fun r => ?_,fun p hp herror => ?_,fun hd p hp stream hfills hsub => ?_⟩
  · rw [hfed.nextId] at hr
    have hne : r≠cur.block := by
      rintro rfl
      omega
    rw [(hfed.other r hne).1,(hfed.other r hne).2]
    exact h.unknown r hr
  · by_cases hne : r=cur.block
    · rw [hne,hfed.fed,hfed.pieces]
      exact hplace
    · rw [(hfed.other r hne).1,(hfed.other r hne).2]
      exact h.inPlace r
  · obtain rfl | ⟨hin,hne⟩ := hsplit p hp
    · rw [hblock,hfed.fed,hfed.pieces]
      exact hworking herror
    · rw [(hfed.other _ hne).1,(hfed.other _ hne).2]
      exact h.working p hin herror
  · obtain rfl | ⟨hin,hne⟩ := hsplit p hp
    · rw [hblock] at hfills
      rw [hblock,hfed.fed] at hsub
      exact hunbroken hd stream hfills hsub
    · rw [(hfed.other _ hne).1] at hsub
      exact h.unbroken hd p hin stream hfills hsub

theorem Finished.feed (h : Finished z s) (hu : Unzipping delivered z s)
    (hlist : s.pendingBlocks=before++cur::after)
    (hfed : FedTo s t cur.block payload extra)
    (htlist : t.pendingBlocks=before++cur'::after) (hblock : cur'.block=cur.block)
    (hk : Kept t s')
    (hown : Fills z cur.block.toBlockSpan (s.fed cur.block++payload) →
      (∀ p∈s.pieces cur.block++extra, p.accepted=true) →
      cur.block∉s'.blocks ∧
        written (s.pieces cur.block++extra)=z.decompress (s.fed cur.block++payload)) :
    Finished z s' := by
  intro r hfills haccepted
  rw [(hk.fed r).1] at hfills ⊢
  rw [(hk.fed r).2] at haccepted ⊢
  by_cases hne : r=cur.block
  · rw [hne,hfed.fed] at hfills
    rw [hne,hfed.pieces] at haccepted
    rw [hne,hfed.fed,hfed.pieces]
    exact hown hfills haccepted
  · rw [(hfed.other r hne).1] at hfills ⊢
    rw [(hfed.other r hne).2] at haccepted ⊢
    obtain ⟨hout,hwritten⟩ := h r hfills haccepted
    refine ⟨fun hin => ?_,hwritten⟩
    rcases hk.blocks hin with hin | hnew
    · refine hout ?_
      rw [blocks,htlist,List.map_append,List.map_cons,hblock] at hin
      rwa [blocks,hlist,List.map_append,List.map_cons]
    · rw [hfed.nextId] at hnew
      rw [(hu.unknown r hnew).1] at hfills
      exact z.not_whole_nil hfills.1

theorem Unzipping.broken (h : Unzipping delivered z s) (hsound : Sound False s)
    (hlist : s.pendingBlocks=before++cur::after)
    (hbroken : delivered → ∀ stream,Fills z cur.block.toBlockSpan stream →
      ¬ s.fed cur.block++payload <+: stream)
    (hfinished : delivered → Finished z s) (hk : Kept t s')
    (hfed : FedTo s t cur.block payload [])
    (htlist : t.pendingBlocks=before++cur'::after) (hblock : cur'.block=cur.block)
    (herror : cur'.zStreamError=true) :
    Unzipping delivered z s' ∧ (delivered → Finished z s') := by
  have hplace := (h.inPlace cur.block).feed payload
  rw [← List.append_nil (s.pieces cur.block)] at hplace
  refine ⟨Unzipping.kept ?_ hk,fun hd => ?_⟩
  · refine h.feed hsound hlist hfed htlist hblock hplace (fun hok => ?_) fun hd stream hf hsub => ?_
    · rw [herror] at hok
      cases hok
    · exact absurd hsub (hbroken hd stream hf)
  · refine (hfinished hd).feed h hlist hfed htlist hblock hk fun hfills _ => ?_
    exact absurd (List.prefix_refl _) (hbroken hd _ hfills)

theorem Unzipping.unrolled {base : List UInt8} {u : Unzipped z.toInflate}
    (h : Unzipping delivered z s) (hsound : Sound False s)
    (hlist : s.pendingBlocks=before++cur::after) (herror : cur.zStreamError=false)
    (hfinished : delivered → Finished z s) (hk : Kept t s')
    (hu : Unrolled z (s.fed cur.block++payload) base u)
    (hsmall : (z.decompress (s.fed cur.block++payload)).length<2^32)
    (hplace : InPlace z cur.block (s.fed cur.block++payload) (s.pieces cur.block++extra))
    (hwritten : (base++u.output).length≤cur.block.length →
      written (s.pieces cur.block++extra)=base++u.output)
    (hfed : FedTo s t cur.block payload extra)
    (htlist : t.pendingBlocks =
      before ++ { cur with zStream := u.zStream, totalUnzipped := u.totalUnzipped } :: after)
    (hgone : delivered → u.zStream=none → (base++u.output).length=cur.block.length →
      (∀ p∈s.pieces cur.block++extra, p.accepted=true) →
      Kept { t with pendingBlocks := before++after } s') :
    Unzipping delivered z s' ∧ (delivered → Finished z s') := by
  refine ⟨Unzipping.kept ?_ hk,fun hd => ?_⟩
  · exact h.feed hsound hlist hfed htlist rfl hplace (fun _ => hu.working hsmall hwritten)
      fun _ _ _ _ => herror
  · refine (hfinished hd).feed h hlist hfed htlist rfl hk fun hfills haccepted => ?_
    obtain ⟨hend,hall⟩ := hu.whole hfills.1
    have hlength : (base++u.output).length=cur.block.length := hall ▸ hfills.2
    refine ⟨fun hin => ?_,(hwritten hlength.le).trans hall.symm⟩
    rcases (hgone hd hend hlength haccepted).blocks hin with hin | hnew
    · obtain ⟨p,hp,heq⟩ := List.mem_map.mp hin
      exact hsound.other_block hlist p hp heq
    · have hcur : cur∈s.pendingBlocks := hlist ▸ List.mem_append_right _ List.mem_cons_self
      have hid := (hsound.own _ (List.mem_map_of_mem hcur)).2
      have hnext : t.nextId=s.nextId := hfed.nextId
      change t.nextId≤cur.block.id at hnew
      omega

section Packets

variable [DecidableEq File] {env : PacketEnv}

/-- What the file has taken it has. -/
def FilledWhenWritten (env : PacketEnv) (r : Reservation) (pieces : List HandedPiece) : Prop :=
  (∀ p∈pieces, p.accepted=true) → (written pieces).length=r.length →
    env.isComplete r.startOffset r.endOffset=true

theorem Unzipping.receivePacked (h : Unzipping delivered z s) (hsound : Sound False s)
    (hlist : s.pendingBlocks=before++cur::after) (herror : cur.zStreamError=false)
    (hgoes : GoesOn z (s.fed cur.block) payload) (hpayload : payload≠[]) (hsome : 0<size)
    (hfinished : delivered → Finished z s) (hsize : delivered → size≤kMaxReadBuffer)
    (hfilled : delivered → FilledWhenWritten env cur.block (s.pieces cur.block)) :
    Unzipping delivered z (s.receivePacked env f before after cur size payload) ∧
      (delivered → Finished z (s.receivePacked env f before after cur size payload)) := by
  have hcur : cur∈s.pendingBlocks := hlist ▸ List.mem_append_right _ List.mem_cons_self
  obtain ⟨base,hstreams,htotal,-,hwritten⟩ :=
    (h.working cur hcur herror).resolve_right fun ⟨_,w,hw,hend⟩ => hgoes.1 w hw hend
  have hplace := (h.inPlace cur.block).feed payload
  have hhonest : delivered → ∀ stream,Fills z cur.block.toBlockSpan stream →
      s.fed cur.block++payload <+: stream → Unzipped.isOk (unzipBlock cur size payload)=true :=
    fun hd stream hfills hsub =>
      unzipBlock_ok hstreams htotal hfills hsub hpayload hsome (hsize hd)
  have hspec : Unzipped.isOk (unzipBlock cur size payload)=true →
      Unrolled z (s.fed cur.block++payload) base (unzipBlock cur size payload) :=
    unzipBlock_spec hstreams htotal
  unfold DownloadClient.receivePacked
  dsimp only
  generalize unzipBlock cur size payload=u at hhonest hspec ⊢
  by_cases hok : Unzipped.isOk u=true
  · rw [if_pos hok]
    have hu := hspec hok
    obtain ⟨hlt,htotal'⟩ := hu.small hgoes.2
    have hquiet := hplace
    rw [← List.append_nil (s.pieces cur.block)] at hquiet
    by_cases hnone : u.lenUnzipped=0
    · -- the trailer of a stream, or input that has put nothing out yet
      have hout : base++u.output=base := by
        have hnil : u.output=[] := List.eq_nil_of_length_eq_zero (hu.lenUnzipped.symm.trans hnone)
        rw [hnil,List.append_nil]
      rw [if_pos hnone]
      refine h.unrolled hsound hlist herror hfinished (kept_settle _) hu hgoes.2 hquiet
        (fun hle => ?_) (fedTo_quiet rfl rfl) rfl fun hd _ hlength haccepted => ?_
      · rw [hout] at hle ⊢
        rw [List.append_nil]
        exact hwritten hle
      · rw [hout] at hlength
        rw [List.append_nil] at haccepted
        refine kept_settle_filled _ herror (hfilled hd haccepted ?_)
        rw [hwritten hlength.le]
        exact hlength
    · rw [if_neg hnone]
      have hover : overruns ⟨cur.block,u.zStream,u.totalUnzipped,cur.zStreamError,cur.queued⟩ u
          = true ↔ cur.block.length<(base++u.output).length :=
        overruns_iff hu.lenUnzipped htotal' hlt hnone
      split_ifs with hpast
      · have hlonger := hover.mp hpast
        refine h.unrolled hsound hlist herror hfinished (kept_settle _) hu hgoes.2 hquiet
          (fun hle => ?_) (fedTo_quiet rfl rfl) rfl fun _ _ hlength _ => ?_
        · exact absurd hlonger (Nat.not_lt.mpr hle)
        · exact absurd hlonger hlength.le.not_gt
      · have hinside : (base++u.output).length≤cur.block.length :=
          Nat.le_of_not_lt fun hlonger => hpast (hover.mpr hlonger)
        have hbase : base.length≤cur.block.length := by
          rw [List.length_append] at hinside
          omega
        have hstart : writeStart ⟨cur.block,u.zStream,u.totalUnzipped,cur.zStreamError,
            cur.queued⟩ u=cur.block.startOffset+base.length :=
          writeStart_eq hu.lenUnzipped htotal' hlt
        have hdata : u.output.take u.lenUnzipped=u.output := by
          rw [hu.lenUnzipped,List.take_length]
        rw [hstart,hdata]
        generalize env.writeToBuffer _ _ _ = w
        have hall : written (s.pieces cur.block ++
            [⟨cur.block.startOffset+base.length,u.output,w.accepted⟩])=base++u.output := by
          rw [written_concat,hwritten hbase]
        refine h.unrolled hsound hlist herror hfinished (kept_settle _) hu hgoes.2 ⟨?_,?_,?_⟩
          (fun _ => hall) (fedTo_handed rfl rfl) rfl fun _ hend _ haccepted => ?_
        · refine consecutive_concat.mpr ⟨hplace.consecutive,?_⟩
          rw [hwritten hbase]
        · rw [hall]
          exact hinside
        · rw [hall]
          exact hu.faithful
        · have hw := haccepted _ (List.mem_append_right _ List.mem_cons_self)
          obtain ⟨accepted,paused⟩ := w
          obtain rfl : accepted=true := hw
          have hnow : u.zStream.isNone=true := by
            rw [hend]
            rfl
          rw [hnow]
          exact kept_settle_complete _ paused
  · rw [if_neg hok]
    refine h.broken hsound hlist (fun hd stream hfills hsub => hok (hhonest hd stream hfills hsub))
      hfinished (kept_settle _) (fedTo_quiet rfl rfl) rfl rfl rfl

theorem kept_receivePlain (s : DownloadClient z.toInflate File) (nStartPos nEndPos : Nat)
    (hlist : s.pendingBlocks=before++cur::after) :
    Kept s (s.receivePlain env f before after cur nStartPos nEndPos payload) := by
  unfold receivePlain
  split_ifs
  · exact kept_removeBlockFromList s f cur.block
  · refine Kept.trans ?_ (kept_settle s)
    exact kept_of_subset rfl rfl fun _ hp => hlist.symm ▸ hp

/-- The packet's data goes into a stream that goes on, or into none. -/
def PacketGoesOn (z : Inflater) (s : DownloadClient z.toInflate File) (packed : Bool)
    (nStartPos : Nat) (payload : List UInt8) : Prop :=
  packed=true → ∀ before cur after,
    splitFirst (covers nStartPos) s.pendingBlocks=some (before, cur, after) →
    cur.zStreamError=false → GoesOn z (s.fed cur.block) payload

theorem Unzipping.receiveBlock {packed : Bool} {nStartPos nEndPos : Nat}
    (h : Unzipping delivered z s) (hsound : Sound False s)
    (hgoes : PacketGoesOn z s packed nStartPos payload) (hpayload : packed=true → payload≠[])
    (hsome : 0<size) (hfinished : delivered → Finished z s)
    (hsize : delivered → size≤kMaxReadBuffer)
    (hfilled : delivered → ∀ r∈s.blocks,FilledWhenWritten env r (s.pieces r)) :
    Unzipping delivered z (s.receiveBlock env f packed size nStartPos nEndPos payload) ∧
      (delivered → Finished z (s.receiveBlock env f packed size nStartPos nEndPos payload)) := by
  have hkept : ∀ t,Kept s t → Unzipping delivered z t ∧ (delivered → Finished z t) :=
    fun t hk => ⟨h.kept hk,fun hd => (hfinished hd).kept h hk⟩
  unfold DownloadClient.receiveBlock
  cases hfound : splitFirst (covers nStartPos) s.pendingBlocks with
  | none => exact hkept _ (kept_unmatched s env nStartPos)
  | some found =>
    obtain ⟨before,cur,after⟩ := found
    obtain ⟨hlist,-,-⟩ := splitFirst_some hfound
    have hcur : cur.block∈s.blocks :=
      List.mem_map_of_mem (hlist ▸ List.mem_append_right _ List.mem_cons_self)
    dsimp only
    cases herror : cur.zStreamError with
    | true => exact hkept _ (kept_removeBlockFromList s f cur.block)
    | false =>
      rw [if_neg Bool.false_ne_true]
      cases packed with
      | false => exact hkept _ (kept_receivePlain s nStartPos nEndPos hlist)
      | true =>
        exact h.receivePacked hsound hlist herror (hgoes rfl before cur after hfound herror)
          (hpayload rfl) hsome hfinished hsize fun hd => hfilled hd cur.block hcur

end Packets

section Calls

variable {env : PacketEnv} {data : List UInt8} {packed i64Offsets : Bool}
  {fileHash : File → MD4Hash}

theorem readBlockHeader_packed {r : (Nat × Option Nat) × List UInt8} {rest : List UInt8}
    (hread : readBlockHeader true i64Offsets rest = .ok r) : r.1.2=none := by
  obtain ⟨nStartPos,rest',-,hread⟩ := Reader.of_bind_ok hread
  obtain ⟨-,rest'',-,hread⟩ := Reader.of_bind_ok hread
  cases hread
  rfl

theorem readBlockPacket_some {p : BlockPacket File}
    (hread : s.readBlockPacket fileHash data packed i64Offsets = .ok (some p)) :
    0<data.length ∧ (packed=true → p.payload≠[]) := by
  unfold readBlockPacket at hread
  split_ifs at hread with hnil hstate
  · cases hread
  · cases hread
  refine ⟨List.length_pos_iff.mpr hnil,?_⟩
  rintro rfl hempty
  split at hread
  · cases hread
  · split at hread
    · cases hread
    split_ifs at hread
    · cases hread
    split at hread
    · cases hread
    next nStartPos nEndPos? payload hheader =>
      obtain rfl : nEndPos? = none := readBlockHeader_packed hheader
      dsimp only at hread
      split_ifs at hread with hbad
      cases hread
      obtain rfl : payload=[] := hempty
      refine hbad (.inl ?_)
      exact Nat.mod_le _ _

/-- Every packet of compressed data is for a stream that goes on. -/
def goesOn (z : Inflater) (fileHash : File → MD4Hash) (s : DownloadClient z.toInflate File) :
    Call File → Prop
  | .processBlockPacket _ data packed i64Offsets => ∀ p,
    s.readBlockPacket fileHash data packed i64Offsets = .ok (some p) →
      PacketGoesOn z s packed p.nStartPos p.payload
  | _ => True

/-- A packet is as the socket gives it out, and the file has what it has taken. -/
def delivers (s : DownloadClient z.toInflate File) : Call File → Prop
  | .processBlockPacket env data _ _ =>
    data.length ≤ kMaxReadBuffer ∧ ∀ r ∈ s.blocks, FilledWhenWritten env r (s.pieces r)
  | _ => True

theorem Unzipping.step [DecidableEq File] (h : Unzipping delivered z s)
    (hsound : Sound False s) (call : Call File)
    (hgoes : goesOn z fileHash s call) (hfinished : delivered → Finished z s)
    (hdelivers : delivered → s.delivers call) :
    Unzipping delivered z (s.step fileHash call) ∧
      (delivered → Finished z (s.step fileHash call)) := by
  have hkept : ∀ t,Kept s t → Unzipping delivered z t ∧ (delivered → Finished z t) :=
    fun t hk => ⟨h.kept hk,fun hd => (hfinished hd).kept h hk⟩
  cases call with
  | setReqFile f => exact hkept _ (kept_setReqFile s f)
  | clearDownloadBlockRequests => exact hkept _ (kept_clear s)
  | createBlockRequests select blockCount =>
    exact hkept _ (kept_createBlockRequests s select blockCount)
  | sendBlockRequests env => exact hkept _ (kept_sendBlockRequests s env)
  | doSwap swapTo => exact hkept _ (kept_doSwap s swapTo)
  | setDownloadState state => exact hkept _ (kept_setDownloadState s state)
  | others file blocks => exact hkept _ (kept_of_subset rfl rfl fun _ hp => hp)
  | processBlockPacket env data packed i64Offsets =>
    rw [DownloadClient.step,processBlockPacket]
    cases hread : s.readBlockPacket fileHash data packed i64Offsets with
    | error e => exact hkept _ (Kept.refl s)
    | ok found =>
      cases found with
      | none => exact hkept _ (Kept.refl s)
      | some p =>
        obtain ⟨hsome,hpayload⟩ := readBlockPacket_some hread
        exact h.receiveBlock hsound (hgoes p hread) hpayload hsome hfinished
          (fun hd => (hdelivers hd).1) fun hd => (hdelivers hd).2

end Calls

section Runs

theorem unzipping_init : Unzipping delivered z (init : DownloadClient z.toInflate File) where
  unknown _ _ := ⟨rfl,rfl⟩
  inPlace _ := ⟨trivial,Nat.zero_le _,fun _ => List.nil_prefix⟩
  working _ hp := absurd hp List.not_mem_nil
  unbroken _ _ hp := absurd hp List.not_mem_nil

theorem finished_init : Finished z (init : DownloadClient z.toInflate File) :=
  fun _ hfills _ => absurd hfills.1 z.not_whole_nil

variable [DecidableEq File]

/-- In every packet of the run the streams go on. -/
def StreamsGoOn (z : Inflater) (fileHash : File → MD4Hash) (calls : List (Call File)) : Prop :=
  Along (step fileHash) (goesOn z fileHash) (init : DownloadClient z.toInflate File) calls

def Delivered (z : Inflater) (fileHash : File → MD4Hash) (calls : List (Call File)) : Prop :=
  Along (step fileHash) delivers (init : DownloadClient z.toInflate File) calls

theorem unzipping_reached {fileHash : File → MD4Hash} {calls : List (Call File)}
    (hcalls : StreamsGoOn z fileHash calls) (hdelivers : delivered → Delivered z fileHash calls) :
    Unzipping delivered z (reached fileHash calls : DownloadClient z.toInflate File) ∧
      (delivered → Finished z (reached fileHash calls : DownloadClient z.toInflate File)) := by
  have hstep : ∀ (s : DownloadClient z.toInflate File) (call : Call File),
      (Sound False s ∧ Unzipping delivered z s ∧ (delivered → Finished z s)) →
      (goesOn z fileHash s call ∧ (delivered → s.delivers call)) →
      Sound False (s.step fileHash call) ∧ Unzipping delivered z (s.step fileHash call) ∧
        (delivered → Finished z (s.step fileHash call)) :=
    fun s call ⟨hsound,h,hfinished⟩ ⟨hgoes,hdelivers⟩ =>
      ⟨hsound.step call fun hs => hs.elim,h.step hsound call hgoes hfinished hdelivers⟩
  exact (run_invariant hstep ⟨sound_init,unzipping_init,fun _ => finished_init⟩
    (along_and hcalls hdelivers)).2

/-- The buffer stays within its cap. As long as no packet follows the end of its block's stream,
and the stream stays countable, all that a block's packets hand to the file is the start of what
the stream decompresses to, piece after piece from where the block begins and not past its end; and
a stream that fills its block, of which nothing was refused, is written to the end, and its block
has left the list. -/
theorem unzip_inPlace (z : Inflater) (fileHash : File → MD4Hash) (calls : List (Call File)) :
    let s : DownloadClient z.toInflate File := reached fileHash calls
    (∀ (cur : PendingBlock z.toInflate) (size : Nat) (payload : List UInt8),
      (unzipBlock cur size payload).capacity ≤
        max (firstBuffer size) (unzipCap cur.block.length cur.totalUnzipped)) ∧
    (StreamsGoOn z fileHash calls →
      (∀ r,Consecutive r.startOffset (s.pieces r) ∧
        (∀ p∈s.pieces r,r.startOffset≤p.start ∧ p.start+p.data.length≤r.endOffset+1) ∧
        ∀ rest,written (s.pieces r) <+: z.decompress (s.fed r++rest)) ∧
      (Delivered z fileHash calls → ∀ r,Fills z r.toBlockSpan (s.fed r) →
        (∀ p∈s.pieces r,p.accepted=true) →
        r∉s.blocks ∧ written (s.pieces r)=z.decompress (s.fed r))) := by
  refine ⟨fun cur size payload => unzip_capacity _ _ _ _ _ _,fun hcalls => ?_⟩
  have h := (unzipping_reached hcalls fun hd : False => hd.elim).1
  refine ⟨fun r => ?_,fun hd => (unzipping_reached hcalls fun _ : True => hd).2 trivial⟩
  have hplace := h.inPlace r
  refine ⟨hplace.consecutive,fun p hp => ?_,hplace.faithful⟩
  obtain ⟨hlow,hhigh⟩ := mem_consecutive hplace.consecutive hp
  have hinside := hplace.inside
  have hle := r.start_le
  unfold BlockSpan.length at hinside
  exact ⟨hlow,by omega⟩

def zip : Inflater := storedMachine.toInflater

/-- The header of a stream with one stored block of `n` bytes. -/
def storedHeader (n : UInt8) : List UInt8 := [0x78,0x01,0x01,n,0,255-n,255]

/-- A packet of compressed data for the first byte of the file. -/
def packedPacket (payload : List UInt8) : Call Unit :=
  .processBlockPacket (openFile [])
    (List.replicate 16 0++[0,0,0,0]++[UInt8.ofNat payload.length,0,0,0]++payload)
    true false

/-- `ABCD`, and its check value. -/
def abcd : List UInt8 := storedHeader 4 ++ [65, 66, 67, 68] ++ [0x02, 0x98, 0x01, 0x0b]

theorem unzip_inPlace_abcd :
    let s : DownloadClient zip.toInflate Unit :=
      reached (fun _ => Digest.zero 16) (asked fourBytes++[packedPacket abcd])
    ⟨fourBytes,0,true⟩ ∉ s.blocks ∧
      written (s.pieces ⟨fourBytes,0,true⟩)=zip.decompress (s.fed ⟨fourBytes,0,true⟩) := by
  have hgoes : StreamsGoOn zip (fun _ => Digest.zero 16)
      (asked fourBytes++[packedPacket abcd]) := by
    refine (along_append _ _ _ _ _).mpr ⟨⟨trivial,trivial,trivial,trivial⟩,?_,trivial⟩
    intro p hp
    obtain rfl : ⟨(),0,14,abcd⟩=p := Option.some.inj (Except.ok.inj hp)
    rintro-before cur after hfound -
    obtain ⟨hlist,-,-⟩ := splitFirst_some hfound
    have hfed : ∀ p∈(run (step fun _ => Digest.zero 16) init (asked fourBytes) :
        DownloadClient zip.toInflate Unit).pendingBlocks,
        fed (run (step fun _ => Digest.zero 16) init (asked fourBytes) :
          DownloadClient zip.toInflate Unit) p.block=[] := fun p _ => rfl
    rw [hfed cur (hlist ▸ List.mem_append_right _ List.mem_cons_self)]
    refine ⟨fun w hw => ?_,by decide⟩
    rw [List.prefix_nil.mp hw]
    exact zip.not_whole_nil
  have hdelivered : Delivered zip (fun _ => Digest.zero 16)
      (asked fourBytes++[packedPacket abcd]) := by
    refine (along_append _ _ _ _ _).mpr ⟨⟨trivial,trivial,trivial,trivial⟩,⟨by decide,?_⟩,
      trivial⟩
    intro r hr _ hlength
    have hnone : r.length=0 := hlength.symm
    unfold BlockSpan.length at hnone
    omega
  have hwhole : storedMachine.whole storedMachine.start
      ((reached (fun _ => Digest.zero 16) (asked fourBytes++[packedPacket abcd]) :
        DownloadClient zip.toInflate Unit).fed ⟨fourBytes,0,true⟩)=true := by decide +kernel
  refine ((unzip_inPlace zip (fun _ => Digest.zero 16) (asked fourBytes++[packedPacket abcd])).2
    hgoes).2 hdelivered ⟨fourBytes,0,true⟩ ⟨hwhole,by decide +kernel⟩ (by decide +kernel)

def eightBytes : BlockSpan := ⟨0,7,by decide,by decide,by decide⟩

/-- A second stream after the end of the first: its bytes go where the first had come to, and some
of them nowhere. -/
theorem second_stream_misplaced :
    let s : DownloadClient zip.toInflate Unit :=
      reached (fun _ => Digest.zero 16) (asked eightBytes ++
        [packedPacket (storedHeader 2++[65,66]),packedPacket [0x00,0xc6,0x00,0x84],
          packedPacket (storedHeader 8++[67,68,69,70]),packedPacket [71,72,73,74]])
    written (s.pieces ⟨eightBytes,0,true⟩)=[65,66,67,68,71,72,73,74] ∧
      ¬ written (s.pieces ⟨eightBytes,0,true⟩) <+:
        zip.decompress (s.fed ⟨eightBytes,0,true⟩) := by
  decide +kernel

end Runs

end DownloadClient

end EmuleQt.Client
