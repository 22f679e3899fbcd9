import EmuleQt.Framework.Inflater
import EmuleQt.Utils.Opcodes
import EmuleQt.Crypto.Digest
import EmuleQt.Framework.Keyed
import EmuleQt.Framework.Run

namespace EmuleQt.Client

open Framework Utils

/-- A decompressor at work, and `total_out`. -/
structure ZStream (z : Inflate) where
  state : z.State
  totalOut : Nat

/-- What `unzip` leaves of the block's stream, and the buffer: its size and what is in it. -/
structure Unzipped (z : Inflate) where
  code : ZCode
  zStream : Option (ZStream z)
  totalUnzipped : Nat
  lenUnzipped : Nat
  output : List UInt8
  capacity : Nat

/-- How large the buffer may become; `remaining` is what the block can still hold. -/
def unzipCap (blockLen totalUnzipped : Nat) : Nat :=
  let remaining := if blockLen>totalUnzipped then blockLen-totalUnzipped else 0
  min remaining EMBLOCKSIZE+300

/-- The size a buffer of `len` bytes grows to. -/
def newLength (len lenZipped cap : Nat) : Nat :=
  let grown := if len * 2 = 0 then lenZipped * 2 else len * 2
  max 1 (min grown cap)

/-- What the stream has put out since `totalUnzipped` was set, in 32 bits. -/
def sinceLast (totalOut totalUnzipped : Nat) : Nat := (totalOut+2^32-totalUnzipped)%2^32

theorem lt_newLength {len lenZipped cap : Nat} (hlen : len<cap) (hzipped : lenZipped≠0) :
    len<newLength len lenZipped cap := by
  unfold newLength
  dsimp only
  split_ifs <;> omega

/-- `unzip` from the call of `inflate` on; `output` stands in a buffer of `len` bytes, of which
`availOut` are free. -/
def unzipLoop (z : Inflate) (blockLen totalUnzipped : Nat) (zs : ZStream z)
    (input output : List UInt8) (len availOut : Nat) : Unzipped z :=
  let r := z.inflate zs.state input availOut
  let zs : ZStream z := ⟨r.state,zs.totalOut+r.output.length⟩
  let output := output++r.output
  let alreadyOut := sinceLast zs.totalOut totalUnzipped
  match r.code with
  | .Z_STREAM_END => ⟨.Z_OK,none,zs.totalOut % 2^32,alreadyOut,output,len⟩
  | .Z_OK =>
    if hfull : availOut-r.output.length=0 ∧ input.length-r.consumed ≠ 0 then
      -- never past what the block can still hold: a stream must not size our buffer
      if _hcap : len ≥ unzipCap blockLen totalUnzipped then
        ⟨.Z_BUF_ERROR,some zs,totalUnzipped,0,output,len⟩
      else
        let grown := newLength len input.length (unzipCap blockLen totalUnzipped)
        if alreadyOut > grown then ⟨.Z_DATA_ERROR,some zs,totalUnzipped,0,output,len⟩
        else
          unzipLoop z blockLen totalUnzipped zs (input.drop r.consumed) (output.take alreadyOut)
            grown (grown-alreadyOut)
    else if input.length-r.consumed=0 then
      ⟨.Z_OK,some zs,zs.totalOut % 2^32,alreadyOut,output,len⟩
    else ⟨.Z_OK,some zs,totalUnzipped,len,output,len⟩
  | code => ⟨code,some zs,totalUnzipped,0,output,len⟩
termination_by unzipCap blockLen totalUnzipped-len
decreasing_by
  have hgrown := lt_newLength (Nat.not_le.mp _hcap) (show input.length ≠ 0 by omega)
  omega

/-- `unzip`, not called by itself. A block without a stream gets one. -/
def unzip (z : Inflate) (blockLen totalUnzipped : Nat) (zStream : Option (ZStream z))
    (zipped : List UInt8) (lenUnzipped : Nat) : Unzipped z :=
  match zStream with
  | some zs => unzipLoop z blockLen totalUnzipped zs zipped [] lenUnzipped lenUnzipped
  | none =>
    match z.inflateInit with
    | none => ⟨.Z_MEM_ERROR, none, totalUnzipped, lenUnzipped, [], lenUnzipped⟩
    | some s => unzipLoop z blockLen totalUnzipped ⟨s, 0⟩ zipped [] lenUnzipped lenUnzipped

theorem newLength_le (len lenZipped blockLen totalUnzipped : Nat) :
    newLength len lenZipped (unzipCap blockLen totalUnzipped) ≤
      unzipCap blockLen totalUnzipped := by
  have hcap : 300≤unzipCap blockLen totalUnzipped := Nat.le_add_left 300 _
  unfold newLength
  dsimp only
  omega

theorem unzipCap_le (blockLen totalUnzipped : Nat) :
    unzipCap blockLen totalUnzipped≤EMBLOCKSIZE+300 :=
  Nat.add_le_add_right (Nat.min_le_right _ _) 300

theorem newLength_lt (len lenZipped blockLen totalUnzipped : Nat) :
    newLength len lenZipped (unzipCap blockLen totalUnzipped)<2^32 := by
  have hle := newLength_le len lenZipped blockLen totalUnzipped
  have hcap := unzipCap_le blockLen totalUnzipped
  unfold EMBLOCKSIZE at hcap
  omega

theorem unzipLoop_capacity (z : Inflate) (blockLen totalUnzipped : Nat) (zs : ZStream z)
    (input output : List UInt8) (len availOut : Nat) :
    (unzipLoop z blockLen totalUnzipped zs input output len availOut).capacity ≤
      max len (unzipCap blockLen totalUnzipped) := by
  fun_induction unzipLoop z blockLen totalUnzipped zs input output len availOut with
  | case4 zs input output len availOut r zs' output' alreadyOut hok hfull hcap grown hgrown ih =>
    have hle := newLength_le len input.length blockLen totalUnzipped
    rw [Nat.max_eq_right hle] at ih
    exact Nat.le_trans ih (Nat.le_max_right _ _)
  | _ => exact Nat.le_max_left _ _

theorem unzip_capacity (z : Inflate) (blockLen totalUnzipped : Nat) (zStream : Option (ZStream z))
    (zipped : List UInt8) (lenUnzipped : Nat) :
    (unzip z blockLen totalUnzipped zStream zipped lenUnzipped).capacity ≤
      max lenUnzipped (unzipCap blockLen totalUnzipped) := by
  unfold unzip
  cases zStream with
  | some zs => exact unzipLoop_capacity z _ _ _ _ _ _ _
  | none =>
    cases z.inflateInit with
    | none => exact Nat.le_max_left _ _
    | some s => exact unzipLoop_capacity z _ _ _ _ _ _ _

section Streams

variable {z : Inflater} {blockLen len availOut : Nat} {zs : ZStream z.toInflate}
  {taken base all input output stream : List UInt8} {r : Unzipped z.toInflate}

/-- A call that has gone well: the stream had put out `base`, and `all` of it is taken now. -/
structure Unrolled (z : Inflater) (all base : List UInt8) (r : Unzipped z.toInflate) : Prop where
  lenUnzipped : r.lenUnzipped=r.output.length
  totalUnzipped : r.totalUnzipped=(base++r.output).length%2^32
  faithful : ∀ rest, base++r.output <+: z.decompress (all++rest)
  goesOn : ∀ zs, r.zStream=some zs →
    z.Reached zs.state all (base++r.output) ∧ zs.totalOut=(base++r.output).length
  ended : r.zStream=none → ∃ w, w <+: all ∧ z.Whole w ∧ z.decompress w=base++r.output

theorem sinceLast_add (b : Nat) {n : Nat} (hn : n<2^32) : sinceLast (b+n) b=n := by
  have hsum : b+n+2^32-b=n+2^32 := by omega
  rw [sinceLast,hsum,Nat.add_mod_right,Nat.mod_eq_of_lt hn]

theorem inflate_faithful
    (hreached : ∃ taken, taken++input=all ∧ z.Reached zs.state taken (base++output))
    (hcode : (z.inflate zs.state input availOut).code = .Z_OK ∨
      (z.inflate zs.state input availOut).code = .Z_STREAM_END) (rest : List UInt8) :
    base++(output++(z.inflate zs.state input availOut).output) <+:
      z.decompress (all++rest) := by
  obtain ⟨taken,rfl,h⟩ := hreached
  have hpiece := z.faithful _ _ _ h input availOut hcode
    (input.drop (z.inflate zs.state input availOut).consumed++rest)
  rw [← List.append_assoc,List.append_assoc taken,List.take_append_drop] at hpiece
  rwa [← List.append_assoc]

theorem inflate_reached
    (hreached : ∃ taken, taken++input=all ∧ z.Reached zs.state taken (base++output))
    (hok : (z.inflate zs.state input availOut).code = .Z_OK) :
    ∃ taken, taken++input.drop (z.inflate zs.state input availOut).consumed=all ∧
      z.Reached (z.inflate zs.state input availOut).state taken
        (base++(output++(z.inflate zs.state input availOut).output)) := by
  obtain ⟨taken,rfl,h⟩ := hreached
  refine ⟨_,?_,List.append_assoc base _ _ ▸ h.call input availOut hok⟩
  rw [List.append_assoc,List.take_append_drop]

theorem inflate_total (htotal : zs.totalOut=(base++output).length)
    (hroom : output.length+availOut=len) (hlen : len<2^32) (input : List UInt8) :
    zs.totalOut+(z.inflate zs.state input availOut).output.length =
        (base++(output++(z.inflate zs.state input availOut).output)).length ∧
      sinceLast (zs.totalOut+(z.inflate zs.state input availOut).output.length) base.length =
        (output++(z.inflate zs.state input availOut).output).length := by
  have hout := z.output_le zs.state input availOut
  have hsum : zs.totalOut+(z.inflate zs.state input availOut).output.length =
      base.length+(output++(z.inflate zs.state input availOut).output).length := by
    rw [htotal,List.length_append,List.length_append,Nat.add_assoc]
  refine ⟨hsum.trans List.length_append.symm,?_⟩
  rw [hsum,sinceLast_add]
  rw [List.length_append]
  omega

theorem unzipLoop_spec
    (hreached : ∃ taken, taken++input=all ∧ z.Reached zs.state taken (base++output))
    (htotal : zs.totalOut=(base++output).length)
    (hroom : output.length+availOut=len) (hlen : len<2^32)
    (hcode : (unzipLoop z.toInflate blockLen base.length zs input output len availOut).code =
      .Z_OK) :
    Unrolled z all base
      (unzipLoop z.toInflate blockLen base.length zs input output len availOut) := by
  fun_induction unzipLoop z.toInflate blockLen base.length zs input output len availOut with
  | case1 zs input output len availOut r zs' output' alreadyOut hend =>
    obtain ⟨htotal',hsince⟩ := inflate_total htotal hroom hlen input
    refine ⟨hsince,congrArg (· % 2^32) htotal',inflate_faithful hreached (.inr hend),
      fun zs hzs => (by cases hzs),fun _ => ?_⟩
    obtain ⟨taken,rfl,h⟩ := hreached
    obtain ⟨hwhole,hall⟩ := z.ends _ _ _ h input availOut hend
    refine ⟨_,?_,hwhole,hall.trans (List.append_assoc _ _ _)⟩
    exact (List.prefix_append_right_inj taken).mpr (List.take_prefix _ input)
  | case4 zs input output len availOut r zs' output' alreadyOut hok hfull hcap grown hgrown ih =>
    obtain ⟨htotal',hsince⟩ := inflate_total htotal hroom hlen input
    have hgrownLt : grown<2^32 := newLength_lt _ _ _ _
    have hsince' : alreadyOut=output'.length := hsince
    rw [hsince',List.take_length] at ih hcode ⊢
    refine ih (inflate_reached hreached hok) htotal' ?_ hgrownLt hcode
    omega
  | case5 zs input output len availOut r zs' output' alreadyOut hok hfull hleft =>
    obtain ⟨htotal',hsince⟩ := inflate_total htotal hroom hlen input
    refine ⟨hsince,congrArg (· % 2^32) htotal',inflate_faithful hreached (.inl hok),
      fun zs hzs => ?_,fun hzs => (by cases hzs)⟩
    cases hzs
    obtain ⟨taken,hall,h⟩ := inflate_reached hreached hok
    rw [List.drop_eq_nil_of_le (Nat.sub_eq_zero_iff_le.mp hleft),List.append_nil] at hall
    exact ⟨hall ▸ h,htotal'⟩
  | case6 zs input output len availOut r zs' output' hok hfull hleft =>
    rcases z.stops zs.state input availOut hok with htaken | hspent
    · exact absurd (by rw [htaken,Nat.sub_self]) hleft
    · exact absurd ⟨by rw [hspent,Nat.sub_self],hleft⟩ hfull
  | case2 => cases hcode
  | case3 => cases hcode
  | case7 zs input output len availOut r zs' output' hend hok => exact absurd hcode hok

/-- Without an end yet, or with the end in this very input, a stream that fits the block is
taken. -/
theorem unzipLoop_ok (hstream : z.Whole stream) (hfits : (z.decompress stream).length≤blockLen)
    (hblock : blockLen≤EMBLOCKSIZE) (hall : all <+: stream)
    (hreached : ∃ taken, taken++input=all ∧ z.Reached zs.state taken (base++output))
    (htotal : zs.totalOut=(base++output).length)
    (hroom : output.length+availOut=len) (hlen : len<2^32)
    (hinput : input≠[]) (hfree : 0<availOut) :
    (unzipLoop z.toInflate blockLen base.length zs input output len availOut).code = .Z_OK := by
  have haccepts : ∀ {zs : ZStream z.toInflate} {input output : List UInt8} {availOut : Nat},
      (∃ taken, taken++input=all ∧ z.Reached zs.state taken (base++output)) →
      input≠[] → 0<availOut → (z.inflate zs.state input availOut).code = .Z_OK ∨
        (z.inflate zs.state input availOut).code = .Z_STREAM_END := by
    rintro zs input output availOut ⟨taken,rfl,h⟩ hinput hfree
    exact z.accepts _ _ _ h input availOut stream hstream hall hinput hfree
  fun_induction unzipLoop z.toInflate blockLen base.length zs input output len availOut with
  | case1 => rfl
  | case2 zs input output len availOut r zs' output' hok hfull hcap =>
    obtain ⟨rest,rfl⟩ := hall
    have hpiece := (inflate_faithful hreached (.inl hok) rest).length_le
    have hout : r.output.length≤availOut := z.output_le zs.state input availOut
    have hbound : base.length+(output.length+r.output.length)≤blockLen := by
      rw [← List.length_append,← List.length_append]
      exact Nat.le_trans hpiece hfits
    have hmore : blockLen-base.length+300≤unzipCap blockLen base.length := by
      unfold unzipCap
      dsimp only
      split_ifs <;> omega
    omega
  | case3 zs input output len availOut r zs' output' alreadyOut hok hfull hcap grown hgrown =>
    obtain ⟨-,hsince⟩ := inflate_total htotal hroom hlen input
    have hout : r.output.length≤availOut := z.output_le zs.state input availOut
    have hlonger : len<grown :=
      lt_newLength (Nat.not_le.mp hcap) (fun hzero => hfull.2 (by rw [hzero,Nat.zero_sub]))
    have hsince' : alreadyOut=output.length+r.output.length := hsince.trans List.length_append
    omega
  | case4 zs input output len availOut r zs' output' alreadyOut hok hfull hcap grown hgrown ih =>
    obtain ⟨htotal',hsince⟩ := inflate_total htotal hroom hlen input
    have hout : r.output.length≤availOut := z.output_le zs.state input availOut
    have hlonger : len<grown :=
      lt_newLength (Nat.not_le.mp hcap) (fun hzero => hfull.2 (by rw [hzero,Nat.zero_sub]))
    have hgrownLt : grown<2^32 := newLength_lt _ _ _ _
    have hsince' : alreadyOut=output'.length := hsince
    have hlength : output'.length=output.length+r.output.length := List.length_append
    rw [hsince',List.take_length] at ih ⊢
    refine ih (inflate_reached hreached hok) htotal' (by omega) hgrownLt (fun hnil => ?_) (by omega)
    have hdropped := congrArg List.length hnil
    rw [List.length_drop] at hdropped
    exact hfull.2 hdropped
  | case5 => rfl
  | case6 => rfl
  | case7 zs input output len availOut r zs' output' hend hok =>
    rcases haccepts hreached hinput hfree with h | h
    · exact absurd h hok
    · exact absurd h hend

/-- A block's stream has taken `taken` and put out `base`; one that is not there has not begun. -/
def Streams (z : Inflater) (zStream : Option (ZStream z.toInflate)) (taken base : List UInt8) :
    Prop :=
  match zStream with
  | some zs => z.Reached zs.state taken base ∧ zs.totalOut = base.length
  | none => taken = [] ∧ base = []

theorem unzip_spec {zStream : Option (ZStream z.toInflate)} (h : Streams z zStream taken base)
    (hlen : len<2^32)
    (hcode : (unzip z.toInflate blockLen base.length zStream input len).code = .Z_OK) :
    Unrolled z (taken++input) base
      (unzip z.toInflate blockLen base.length zStream input len) := by
  unfold unzip at hcode ⊢
  cases zStream with
  | some zs =>
    obtain ⟨hreached,htotal⟩ := h
    rw [← List.append_nil base] at hreached htotal
    exact unzipLoop_spec ⟨taken,rfl,hreached⟩ htotal (Nat.zero_add len) hlen hcode
  | none =>
    obtain ⟨rfl,rfl⟩ := h
    obtain ⟨s,hs⟩ := Option.isSome_iff_exists.mp z.starts
    rw [hs] at hcode ⊢
    exact unzipLoop_spec ⟨[],rfl,.start hs⟩ rfl (Nat.zero_add len) hlen hcode

theorem unzip_ok {zStream : Option (ZStream z.toInflate)} (h : Streams z zStream taken base)
    (hstream : z.Whole stream) (hfits : (z.decompress stream).length≤blockLen)
    (hblock : blockLen≤EMBLOCKSIZE) (hall : taken++input <+: stream) (hlen : len<2^32)
    (hinput : input≠[]) (hfree : 0<len) :
    (unzip z.toInflate blockLen base.length zStream input len).code = .Z_OK := by
  unfold unzip
  cases zStream with
  | some zs =>
    obtain ⟨hreached,htotal⟩ := h
    rw [← List.append_nil base] at hreached htotal
    exact unzipLoop_ok hstream hfits hblock hall ⟨taken,rfl,hreached⟩ htotal (Nat.zero_add len)
      hlen hinput hfree
  | none =>
    obtain ⟨rfl,rfl⟩ := h
    obtain ⟨s,hs⟩ := Option.isSome_iff_exists.mp z.starts
    rw [hs]
    exact unzipLoop_ok hstream hfits hblock hall ⟨[],rfl,.start hs⟩ rfl (Nat.zero_add len)
      hlen hinput hfree

end Streams

open Crypto Framework Utils

def kMaxUnmatchedPackets : Nat := 32
def kUnmatchedWindowMs : Nat := 15 * 1000

inductive DownloadState where
  | Downloading | OnQueue | Connected | Connecting | WaitCallback | WaitCallbackKad | ReqHashSet
  | NoNeededParts | TooManyConns | TooManyConnsKad | LowToLowIP | Banned | Error | None
  | RemoteQueueFull
  deriving DecidableEq

/-- A block of a file, cut as the file cuts them; `endOffset` is its last byte. -/
structure BlockSpan where
  startOffset : Nat
  endOffset : Nat
  start_le : startOffset≤endOffset
  length_le : endOffset-startOffset<EMBLOCKSIZE
  end_lt : endOffset<MAX_EMULE_FILE_SIZE
  deriving DecidableEq

def BlockSpan.length (b : BlockSpan) : Nat := b.endOffset - b.startOffset + 1

/-- A requested block; `id` tells one object from another, and `mine` says that this client is its
holder. -/
structure Reservation extends BlockSpan where
  id : Nat
  mine : Bool
  deriving DecidableEq

structure PendingBlock (z : Inflate) where
  block : Reservation
  zStream : Option (ZStream z)
  totalUnzipped : Nat
  zStreamError : Bool
  queued : Bool

structure AbandonedBlock where
  start : Nat
  stop : Nat
  tick : Nat

/-- What has gone into a block's stream, and the pieces that were handed to the file. -/
inductive StreamEvent where
  | fed (block : Reservation) (zipped : List UInt8)
  | handed (block : Reservation) (start : Nat) (data : List UInt8) (accepted : Bool)

/-- One client as a source, and the requested blocks of every file. -/
structure DownloadClient (z : Inflate) (File : Type) where
  reqFile : Option File
  downloadState : DownloadState
  pendingBlocks : List (PendingBlock z)
  requestedBlocks : File → List Reservation
  nextId : Nat
  sentCancelTransfer : Bool
  unmatchedPackets : Nat
  unmatchedWindowStart : Nat
  abandonedBlocks : List AbandonedBlock
  history : List StreamEvent

/-- What asking for blocks finds; `select` is what the file's selection comes up with. -/
structure RequestEnv where
  hasSocket : Bool
  slowEMule : Bool
  downDatarate : Nat
  select : Nat → List BlockSpan
  awaitsFinalVerdict : Bool

/-- What the file says to data: whether it takes it, and whether that has made it pause. -/
structure WriteResult where
  accepted : Bool
  paused : Bool

structure PacketEnv extends RequestEnv where
  now : Nat
  writeToBuffer : Nat → Nat → List UInt8 → WriteResult
  isComplete : Nat → Nat → Bool

namespace RequestEnv

def blockCount (env : RequestEnv) : Nat :=
  if env.slowEMule ∧ env.downDatarate < 9 * 1024 then
    if env.downDatarate < 4 * 1024 then 1 else 2
  else if env.downDatarate > 10 * 1024 * 1024 then 40
  else if env.downDatarate > 5 * 1024 * 1024 then 25
  else if env.downDatarate > 1 * 1024 * 1024 then 15
  else if env.downDatarate > 150 * 1024 then 9
  else if env.downDatarate > 75 * 1024 then 6
  else 3

end RequestEnv

/-- New blocks for this client, each an object of its own. -/
def reservations (nextId : Nat) : List BlockSpan → List Reservation
  | [] => []
  | span :: spans => ⟨span, nextId, true⟩ :: reservations (nextId + 1) spans

def PendingBlock.fresh {z : Inflate} (block : Reservation) : PendingBlock z where
  block := block
  zStream := none
  totalUnzipped := 0
  zStreamError := false
  queued := false

/-- Up to `n` blocks that have not been asked for are. -/
def queueUnsent {z : Inflate} : Nat → List (PendingBlock z) → List (PendingBlock z)
  | 0, pending => pending
  | _, [] => []
  | n+1, p::pending =>
    if p.queued then p::queueUnsent (n+1) pending
    else { p with queued := true } :: queueUnsent n pending

namespace DownloadClient

variable {z : Inflate} {File : Type}

def init : DownloadClient z File where
  reqFile := none
  downloadState := .None
  pendingBlocks := []
  requestedBlocks _ := []
  nextId := 0
  sentCancelTransfer := false
  unmatchedPackets := 0
  unmatchedWindowStart := 0
  abandonedBlocks := []
  history := []

def sendCancelTransfer (s : DownloadClient z File) : DownloadClient z File :=
  { s with sentCancelTransfer := true }

/-- `isInAbandonedBlock`; what was given up long ago is forgotten. -/
def isInAbandonedBlock (now offset : Nat) (s : DownloadClient z File) :
    DownloadClient z File × Bool :=
  let recent := s.abandonedBlocks.filter fun b =>
    (now + 2 ^ 64 - b.tick) % 2 ^ 64 ≤ kUnmatchedWindowMs
  ({ s with abandonedBlocks := recent },
    recent.any fun b => offset ≥ b.start ∧ offset ≤ b.stop)

variable [DecidableEq File]

/-- `removeBlockFromList` of a file. -/
def removeBlockFromList (file : File) (block : Reservation) (s : DownloadClient z File) :
    DownloadClient z File :=
  { s with
    requestedBlocks :=
      Function.update s.requestedBlocks file ((s.requestedBlocks file).erase block) }

def clearDownloadBlockRequests (s : DownloadClient z File) : DownloadClient z File :=
  match s.reqFile with
  | none => { s with pendingBlocks := [] }
  | some file =>
    { s.pendingBlocks.foldl (fun (s : DownloadClient z File) (p : PendingBlock z) =>
        s.removeBlockFromList file p.block) s with
      pendingBlocks := [] }

def setDownloadState (state : DownloadState) (s : DownloadClient z File) :
    DownloadClient z File :=
  if state = s.downloadState then s
  else
    let s := if s.downloadState = .Downloading then
        clearDownloadBlockRequests { s with unmatchedPackets := 0, abandonedBlocks := [] }
      else s
    { s with downloadState := state }

def setReqFile (f : Option File) (s : DownloadClient z File) : DownloadClient z File :=
  let s := if s.reqFile.isSome ∧ s.reqFile ≠ f ∧ s.pendingBlocks ≠ [] then
      s.clearDownloadBlockRequests
    else s
  { s with reqFile := f }

/-- `doSwap`, as far as it is about blocks. -/
def doSwap (swapTo : Option File) (s : DownloadClient z File) : DownloadClient z File × Bool :=
  match swapTo, s.reqFile with
  | some file, some oldFile =>
    if file = oldFile then (s, false)
    else
      ({ (s.setDownloadState .None).clearDownloadBlockRequests with
          reqFile := some file
          sentCancelTransfer := false }, true)
  | _, _ => (s, false)

/-- `getNextRequestedBlock` of the file, with the blocks its selection has found. -/
def reserve (file : File) (spans : List BlockSpan) (s : DownloadClient z File) :
    DownloadClient z File :=
  let blocks := reservations s.nextId spans
  { s with
    requestedBlocks :=
      Function.update s.requestedBlocks file (s.requestedBlocks file ++ blocks)
    pendingBlocks := s.pendingBlocks ++ blocks.map PendingBlock.fresh
    nextId := s.nextId + spans.length }

def createBlockRequests (select : Nat → List BlockSpan) (blockCount : Nat)
    (s : DownloadClient z File) : DownloadClient z File :=
  match s.reqFile with
  | none => s
  | some file =>
    if blockCount = 0 then s
    else if s.pendingBlocks.length > 3 * blockCount then s
    else
      let count := blockCount - s.pendingBlocks.countP fun p => !p.queued
      if count = 0 then s else s.reserve file ((select count).take count)

def sendBlockRequests (env : RequestEnv) (s : DownloadClient z File) : DownloadClient z File :=
  if env.hasSocket = false ∨ s.downloadState ≠ .Downloading ∨ s.reqFile.isNone then s
  else
    let s := s.createBlockRequests env.select env.blockCount
    if s.pendingBlocks.isEmpty then
      if env.awaitsFinalVerdict then s
      else s.sendCancelTransfer.setDownloadState .NoNeededParts
    else { s with pendingBlocks := queueUnsent 3 s.pendingBlocks }

/-- Data for no pending block; too much of it ends the transfer. -/
def unmatched (env : PacketEnv) (nStartPos : Nat) (s : DownloadClient z File) :
    DownloadClient z File :=
  if s.downloadState ≠ .Downloading then s
  else
    let (s, abandoned) := s.isInAbandonedBlock env.now nStartPos
    if abandoned then s
    else
      let s := if s.unmatchedPackets=0 ∨
          (env.now+2^64-s.unmatchedWindowStart)%2^64>kUnmatchedWindowMs then
          { s with unmatchedPackets := 0, unmatchedWindowStart := env.now }
        else s
      let s := { s with unmatchedPackets := s.unmatchedPackets+1 }
      if s.unmatchedPackets≥kMaxUnmatchedPackets then
        s.sendCancelTransfer.setDownloadState .OnQueue
      else s

/-- The file has been told to pause: a source that is sending is told to stop. -/
def stopTransfer (s : DownloadClient z File) : DownloadClient z File :=
  if s.downloadState = .Downloading then s.sendCancelTransfer.setDownloadState .OnQueue else s

def finishBlock (env : RequestEnv) (file : File) (block : Reservation)
    (others : List (PendingBlock z)) (s : DownloadClient z File) : DownloadClient z File :=
  (removeBlockFromList file block { s with pendingBlocks := others }).sendBlockRequests env

/-- What follows the write: `cur` is the block as it is now, between `before` and `after`. -/
def settle (env : PacketEnv) (file : File) (before after : List (PendingBlock z))
    (cur : PendingBlock z) (written : Option WriteResult) (complete : Bool)
    (s : DownloadClient z File) : DownloadClient z File :=
  let s := { s with pendingBlocks := before ++ cur :: after }
  match written with
  | some ⟨true, paused⟩ =>
    let s := if paused then s.stopTransfer else s
    if s.pendingBlocks ≠ [] ∧ complete then
      s.finishBlock env.toRequestEnv file cur.block (before ++ after)
    else s
  | _ =>
    -- refused, and someone else has filled the whole block
    if cur.zStreamError = false ∧
        env.isComplete cur.block.startOffset cur.block.endOffset then
      finishBlock env.toRequestEnv file cur.block (before ++ after)
        { s with
          abandonedBlocks :=
            s.abandonedBlocks ++ [⟨cur.block.startOffset, cur.block.endOffset, env.now⟩] }
    else s

/-- Uncompressed data, up to and with `nEndPos`. -/
def receivePlain (env : PacketEnv) (file : File) (before after : List (PendingBlock z))
    (cur : PendingBlock z) (nStartPos nEndPos : Nat) (payload : List UInt8)
    (s : DownloadClient z File) : DownloadClient z File :=
  if nEndPos>cur.block.endOffset then s.removeBlockFromList file cur.block
  else
    s.settle env file before after cur (some (env.writeToBuffer nStartPos nEndPos payload))
      (decide (nEndPos=cur.block.endOffset))

/-- How large the first buffer for a packet of `size` bytes is. -/
def firstBuffer (size : Nat) : Nat := min (size*2%2^32) (EMBLOCKSIZE+300)

/-- What `unzip` makes of a packet's data for a block. -/
def unzipBlock (cur : PendingBlock z) (size : Nat) (payload : List UInt8) : Unzipped z :=
  unzip z cur.block.length cur.totalUnzipped cur.zStream payload (firstBuffer size)

/-- `unzip` has gone well; a length that is negative as an `int` has not. -/
def Unzipped.isOk (r : Unzipped z) : Bool := r.code = .Z_OK ∧ r.lenUnzipped<2^31

def writeStart (cur : PendingBlock z) (r : Unzipped z) : Nat :=
  (cur.block.startOffset + r.totalUnzipped + 2 ^ 64 - r.lenUnzipped) % 2 ^ 64

def writeEnd (cur : PendingBlock z) (r : Unzipped z) : Nat :=
  (cur.block.startOffset + r.totalUnzipped + 2 ^ 64 - 1) % 2 ^ 64

/-- The data unzipped would lie past the block. -/
def overruns (cur : PendingBlock z) (r : Unzipped z) : Bool :=
  writeStart cur r>cur.block.endOffset ∨ writeEnd cur r>cur.block.endOffset

def receivePacked (env : PacketEnv) (file : File) (before after : List (PendingBlock z))
    (cur : PendingBlock z) (size : Nat) (payload : List UInt8) (s : DownloadClient z File) :
    DownloadClient z File :=
  let r := unzipBlock cur size payload
  let s := { s with history := s.history++[StreamEvent.fed cur.block payload] }
  if Unzipped.isOk r then
    let cur := { cur with zStream := r.zStream, totalUnzipped := r.totalUnzipped }
    if r.lenUnzipped=0 then
      s.settle env file before after cur none false
    else if overruns cur r then
      (s.removeBlockFromList file cur.block).settle env file before after cur none false
    else
      let data := r.output.take r.lenUnzipped
      let w := env.writeToBuffer (writeStart cur r) (writeEnd cur r) data
      let piece := StreamEvent.handed cur.block (writeStart cur r) data w.accepted
      settle env file before after cur (some w) cur.zStream.isNone
        { s with history := s.history++[piece] }
  else
    (s.removeBlockFromList file cur.block).settle env file before after
      { cur with zStream := none, zStreamError := true, totalUnzipped := 0 } none false

/-- The byte is one of the block's. -/
def covers (nStartPos : Nat) (p : PendingBlock z) : Bool :=
  p.block.startOffset ≤ nStartPos ∧ p.block.endOffset ≥ nStartPos

/-- A packet's data, once its header is read. -/
def receiveBlock (env : PacketEnv) (file : File) (packed : Bool) (size nStartPos nEndPos : Nat)
    (payload : List UInt8) (s : DownloadClient z File) : DownloadClient z File :=
  match splitFirst (covers nStartPos) s.pendingBlocks with
  | none => s.unmatched env nStartPos
  | some (before, cur, after) =>
    if cur.zStreamError then s.removeBlockFromList file cur.block
    else if packed then s.receivePacked env file before after cur size payload
    else s.receivePlain env file before after cur nStartPos nEndPos payload

/-- Where the data of a packet starts, and where it ends if the header says so. -/
def readBlockHeader (packed i64Offsets : Bool) : Reader (Nat × Option Nat) := do
  let readOffset := if i64Offsets then Reader.readUInt64 else Reader.readUInt32
  let nStartPos ← readOffset
  if packed then
    Reader.skip 4
    return (nStartPos, none)
  else
    let nEndPos ← readOffset
    return (nStartPos, some nEndPos)

/-- What a packet is: the file it is for, its first and its last byte there, and its data. -/
structure BlockPacket (File : Type) where
  file : File
  nStartPos : Nat
  nEndPos : Nat
  payload : List UInt8

/-- The checks of `processBlockPacket`; none for a packet that is ignored. -/
def readBlockPacket (fileHash : File → MD4Hash) (data : List UInt8) (packed i64Offsets : Bool)
    (s : DownloadClient z File) : Except FileException (Option (BlockPacket File)) :=
  if data=[] then .ok none
  else if s.downloadState ≠ .Downloading ∧ s.downloadState ≠ .NoNeededParts then .ok none
  else
    match Digest.read 16 data with
    | .error e => .error e
    | .ok (hash, rest) =>
      match s.reqFile with
      | none => .ok none
      | some file =>
        if hash ≠ fileHash file then .ok none
        else
          match readBlockHeader packed i64Offsets rest with
          | .error e => .error e
          | .ok ((nStartPos, nEndPos?), payload) =>
            let nHeaderSize := data.length-payload.length
            let nEndPos := nEndPos?.getD ((nStartPos+payload.length) % 2^64)
            if nEndPos≤nStartPos ∨
                data.length ≠ (nEndPos-nStartPos+nHeaderSize) % 2^64 then
              .error ⟨"bad data block (processBlockPacket)"⟩
            else .ok (some ⟨file,nStartPos,nEndPos-1,payload⟩)

def processBlockPacket (fileHash : File → MD4Hash) (env : PacketEnv) (data : List UInt8)
    (packed i64Offsets : Bool) (s : DownloadClient z File) :
    Except FileException (DownloadClient z File) :=
  match s.readBlockPacket fileHash data packed i64Offsets with
  | .error e => .error e
  | .ok none => .ok s
  | .ok (some p) =>
    .ok (s.receiveBlock env p.file packed data.length p.nStartPos p.nEndPos p.payload)

/-- What moves the blocks of a client, and what other sources do in the files' lists. -/
inductive Call (File : Type) where
  | setReqFile (f : Option File)
  | clearDownloadBlockRequests
  | createBlockRequests (select : Nat → List BlockSpan) (blockCount : Nat)
  | sendBlockRequests (env : RequestEnv)
  | processBlockPacket (env : PacketEnv) (data : List UInt8) (packed i64Offsets : Bool)
  | doSwap (swapTo : Option File)
  | setDownloadState (state : DownloadState)
  | others (file : File) (blocks : List Reservation)

/-- A packet that is refused with an exception changes nothing. -/
def step (fileHash : File → MD4Hash) (s : DownloadClient z File) : Call File →
    DownloadClient z File
  | .setReqFile f => s.setReqFile f
  | .clearDownloadBlockRequests => s.clearDownloadBlockRequests
  | .createBlockRequests select blockCount => s.createBlockRequests select blockCount
  | .sendBlockRequests env => s.sendBlockRequests env
  | .processBlockPacket env data packed i64Offsets =>
    (s.processBlockPacket fileHash env data packed i64Offsets).toOption.getD s
  | .doSwap swapTo => (s.doSwap swapTo).1
  | .setDownloadState state => s.setDownloadState state
  | .others file blocks =>
    { s with
      requestedBlocks := Function.update s.requestedBlocks file
        (blocks.filter (fun b => !b.mine) ++ (s.requestedBlocks file).filter (·.mine)) }

/-- Where a client stands after these calls. -/
def reached (fileHash : File → MD4Hash) (calls : List (Call File)) : DownloadClient z File :=
  run (step fileHash) init calls

end DownloadClient

end EmuleQt.Client
