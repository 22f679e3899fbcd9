import Mathlib.Data.List.Nodup
import EmuleQt.Framework.Run

namespace EmuleQt.Bt.JoinDiskIo

open Framework

abbrev Hash := List UInt8

/-- A digest that is not the one computed: every bit flipped. -/
def spoiled (h : Hash) : Hash := h.map (~~~ ·)

def readBlock : Nat := 16 * 1024

/-- What the inner disk answers to a hash request; the block hashes are in the torrent's
buffer. -/
structure Hashed where
  hash : Hash
  v2 : List Hash
  failed : Bool

/-- A block read back: the buffer, `none` after an error or without data. -/
abbrev Block := Option (Nat → UInt8)

structure Read where
  data : List UInt8 := []
  left : Int := 0
  failed : Bool := false

/-- A call of the handler of `async_hash`, with the block hashes as they stand then. -/
structure HandlerCall where
  hash : Hash
  v2 : List Hash
  failed : Bool
  /-- Handed back by the pump. -/
  late : Bool
  /-- Made after the abort. -/
  aborted : Bool

/-- One `async_hash` and all that its lambdas share. -/
structure Job where
  piece : Nat
  /-- The hook that was attached to the storage, if one was. -/
  hook : Option Nat
  pieceSize : Int
  hashed : Option Hashed := none
  /-- The torrent's buffer. -/
  v2 : List Hash := []
  read : Read := {}
  /-- The reads that the inner disk has not answered yet. -/
  requested : List Nat := []
  /-- Its answers so far. -/
  blocks : List (Nat × Block) := []
  /-- What the hook was asked about. -/
  asked : List (List UInt8) := []
  /-- The hook has not returned yet. -/
  inside : Bool := false
  verdict : Option Bool := none
  calls : List HandlerCall := []

def Job.hash (job : Job) : Hash := (job.hashed.map (·.hash)).getD []

/-- `Pending::finish`. -/
def Job.finish (spoil late aborted : Bool) (job : Job) : Job :=
  let v2 := if spoil then job.v2.map spoiled else job.v2
  let hash := if spoil then spoiled job.hash else job.hash
  { job with
    v2 := v2
    calls := ⟨hash, v2, false, late, aborted⟩ :: job.calls }

/-- Without the bytes there is no judge: libtorrent's own verdict stands. -/
def Job.ask (aborted : Bool) (job : Job) : Job :=
  if job.read.failed then job.finish false false aborted
  else
    { job with
      asked := job.read.data :: job.asked
      inside := true
      read := { job.read with data := [] } }

def blockCount (pieceSize : Int) : Nat := ((pieceSize + readBlock - 1) / readBlock).toNat

/-- The reads are asked for one after the other; an answer inside such a call changes nothing
that a later one needs. -/
def Job.readForHook (job : Job) : Job :=
  { job with
    read := ⟨List.replicate job.pieceSize.toNat 0, blockCount job.pieceSize, false⟩
    requested := (List.range (blockCount job.pieceSize)).map (· * readBlock) }

/-- The inner disk has hashed the piece. -/
def Job.hashAnswer (aborted : Bool) (answer : Hashed) (job : Job) : Job :=
  let job := { job with hashed := some answer, v2 := answer.v2 }
  if job.hook.isNone || answer.failed || job.pieceSize≤0 then
    { job with calls := ⟨answer.hash,answer.v2,answer.failed,false,aborted⟩ :: job.calls }
  else job.readForHook

def memcpy (data : List UInt8) (offset len : Nat) (buf : Nat → UInt8) : List UInt8 :=
  data.mapIdx fun k b => if offset ≤ k ∧ k < offset + len then buf (k - offset) else b

def Read.store (pieceSize : Int) (offset : Nat) (block : Block) (read : Read) : Read :=
  match block with
  | none => { read with failed := true }
  | some buf =>
    let len := min readBlock (pieceSize.toNat - offset)
    { read with data := memcpy read.data offset len buf }

/-- The inner disk has read a block. -/
def Job.blockAnswer (aborted : Bool) (offset : Nat) (block : Block) (job : Job) : Job :=
  let read := job.read.store job.pieceSize offset block
  let job := { job with
    requested := job.requested.erase offset
    blocks := (offset, block)::job.blocks
    read := { read with left := read.left-1 } }
  if job.read.left=0 then job.ask aborted else job

structure State where
  jobs : List Job := []
  /-- No abort and no destruction so far. -/
  alive : Bool := true
  /-- Late verdicts waiting for the pump, with the hash they are about. -/
  ready : List (Nat × Bool) := []
  hashOf : Nat → Option Hash := fun _ => none
  /-- The piece sizes of a storage. -/
  filesOf : Nat → Option (Nat → Int) := fun _ => none
  hooks : Hash → Option Nat := fun _ => none
  destroyed : Bool := false

/-- What comes in any order. A `verdict` tells the thread it comes on; `returned` is the end of
the call of the hook. -/
inductive Event
  | attach (torrent : Hash) (hook : Nat)
  | detach (torrent : Hash)
  | newTorrent (storage : Nat) (infoHash : Hash) (files : Nat → Int)
  | removeTorrent (storage : Nat)
  | asyncHash (storage piece : Nat)
  | hashAnswer (id : Nat) (answer : Hashed)
  | blockAnswer (id offset : Nat) (block : Block)
  | verdict (id : Nat) (spoil sameThread : Bool)
  | returned (id : Nat)
  | pump
  | abort
  | destroy

def State.update (s : State) (id : Nat) (f : Job → Job) : State :=
  { s with jobs := s.jobs.modify id f }

def State.hookOf (s : State) (storage : Nat) : Option Nat := (s.hashOf storage).bind s.hooks

def State.pieceSize (s : State) (storage piece : Nat) : Int :=
  (s.filesOf storage).elim 0 (fun files => files piece)

def State.asyncHash (s : State) (storage piece : Nat) : State :=
  { s with jobs := s.jobs++[{
      piece := piece, hook := s.hookOf storage, pieceSize := s.pieceSize storage piece }] }

/-- The hook's `done`: in place inside the call, else for the pump while there is one. -/
def State.verdict (s : State) (id : Nat) (spoil sameThread : Bool) : State :=
  let t := s.update id fun job => { job with verdict := some spoil }
  if (s.jobs[id]?.any (·.inside)) && sameThread then
    t.update id (Job.finish spoil false !s.alive)
  else if s.alive then { t with ready := t.ready ++ [(id, spoil)] } else t

/-- All verdicts queued are handed back in one go: like `abort` and the destructor, the tick is
libtorrent's own thread's. -/
def State.pump (s : State) : State :=
  s.ready.foldl (fun t v => t.update v.1 (Job.finish v.2 true !s.alive)) { s with ready := [] }

def State.abort (s : State) : State := { s with alive := false, ready := [] }

def step (s : State) : Event → State
  | .attach torrent hook => { s with hooks := Function.update s.hooks torrent (some hook) }
  | .detach torrent => { s with hooks := Function.update s.hooks torrent none }
  | .newTorrent storage infoHash files =>
    { s with
      hashOf := Function.update s.hashOf storage (some infoHash)
      filesOf := Function.update s.filesOf storage (some files) }
  | .removeTorrent storage =>
    { s with
      hashOf := Function.update s.hashOf storage none
      filesOf := Function.update s.filesOf storage none }
  | .asyncHash storage piece => s.asyncHash storage piece
  | .hashAnswer id answer => s.update id (Job.hashAnswer (!s.alive) answer)
  | .blockAnswer id offset block => s.update id (Job.blockAnswer (!s.alive) offset block)
  | .verdict id spoil sameThread => s.verdict id spoil sameThread
  | .returned id => s.update id fun job => { job with inside := false }
  | .pump => s.pump
  | .abort => s.abort
  | .destroy =>
    { s.abort with
      hashOf := fun _ => none
      filesOf := fun _ => none
      hooks := fun _ => none
      destroyed := true }

/-- The inner disk answers a request once and goes with the object; the hook gives one verdict
for a question, whenever it comes. -/
def Allowed (s : State) : Event → Prop
  | .hashAnswer id _ => s.destroyed = false ∧ ∃ job, s.jobs[id]? = some job ∧ job.hashed = none
  | .blockAnswer id offset _ =>
    s.destroyed = false ∧ ∃ job, s.jobs[id]? = some job ∧ offset ∈ job.requested
  | .verdict id _ _ => ∃ job, s.jobs[id]? = some job ∧ job.asked ≠ [] ∧ job.verdict = none
  | .returned id => ∃ job, s.jobs[id]? = some job ∧ job.inside = true
  | _ => s.destroyed = false

/-- All of the piece: every block was read, and each one's bytes stand at its offset. -/
structure Whole (pieceSize : Int) (blocks : List (Nat × Block)) (data : List UInt8) : Prop where
  length : data.length = pieceSize.toNat
  read : ∀ b ∈ blocks, b.2.isSome = true
  once : (blocks.map Prod.fst).Nodup
  bytes : ∀ k < pieceSize.toNat, ∃ buf, (k / readBlock * readBlock, some buf) ∈ blocks ∧
    data[k]? = some (buf (k % readBlock))

/-- The call carries what the disk computed, all of it flipped after a spoil verdict. -/
def Answered (job : Job) (c : HandlerCall) : Prop :=
  ∃ h, job.hashed = some h ∧ c.failed = h.failed ∧
    if job.verdict = some true then c.hash = spoiled h.hash ∧ c.v2 = h.v2.map spoiled
    else c.hash = h.hash ∧ c.v2 = h.v2

/-- The piece is being read back. -/
structure Reading (job : Job) : Prop where
  length : job.read.data.length = job.pieceSize.toNat
  left : job.read.left = job.requested.length
  aligned : ∀ o ∈ job.requested, o % readBlock = 0
  once : (job.blocks.map Prod.fst ++ job.requested).Nodup
  read : job.read.failed = false → ∀ b ∈ job.blocks, b.2.isSome = true
  bytes : job.read.failed = false → ∀ k < job.pieceSize.toNat,
    k / readBlock * readBlock ∉ job.requested →
    ∃ buf, (k / readBlock * readBlock, some buf) ∈ job.blocks ∧
      job.read.data[k]? = some (buf (k % readBlock))

/-- The disk gave a digest, and the torrent's buffer holds its block hashes. -/
structure Computed (job : Job) (h : Hashed) : Prop where
  hashed : job.hashed = some h
  succeeded : h.failed = false
  v2 : job.v2 = h.v2

/-- The hook was asked once, about the whole piece. -/
structure Asked (job : Job) (data : List UInt8) : Prop where
  asked : job.asked = [data]
  whole : Whole job.pieceSize job.blocks data
  requested : job.requested = []

/-- Where the handler of a hash is: with the disk, with the reads, with the hook, in the queue,
dropped there by the abort, or called. `queued` are the verdicts in the queue. -/
inductive Stage (alive : Bool) (queued : List Bool) (job : Job) : Prop
  | hashing (hhashed : job.hashed = none) (hfresh : job.requested = [] ∧ job.asked = [])
      (hverdict : job.verdict = none) (hblocks : job.blocks = []) (hcalls : job.calls = [])
      (hqueued : queued = [])
  | reading (h : Hashed) (hcomputed : Computed job h) (hread : Reading job)
      (hrequested : job.requested ≠ []) (hasked : job.asked = []) (hverdict : job.verdict = none)
      (hcalls : job.calls = []) (hqueued : queued = [])
  | judging (h : Hashed) (data : List UInt8) (hcomputed : Computed job h)
      (hasked : Asked job data) (hverdict : job.verdict = none) (hcalls : job.calls = [])
      (hqueued : queued = [])
  | waiting (h : Hashed) (data : List UInt8) (spoil : Bool) (hcomputed : Computed job h)
      (hasked : Asked job data) (hverdict : job.verdict = some spoil) (hcalls : job.calls = [])
      (hqueued : queued = [spoil]) (halive : alive = true)
  | dropped (h : Hashed) (data : List UInt8) (hcomputed : Computed job h)
      (hasked : Asked job data) (hverdict : job.verdict ≠ none) (hcalls : job.calls = [])
      (hqueued : queued = []) (halive : alive = false)
  | called (c : HandlerCall) (hanswered : Answered job c) (hrequested : job.requested = [])
      (hasked : job.asked = [] ∨ job.verdict ≠ none ∧ ∃ data, Asked job data)
      (hcalls : job.calls = [c]) (hqueued : queued = []) (hlate : c.late = true → c.aborted = false)

section Jobs

variable {alive : Bool} {queued : List Bool} {job : Job} {h : Hashed} {data : List UInt8}

theorem lt_blockCount {pieceSize : Int} {k : Nat} (hk : k<pieceSize.toNat) :
    k/readBlock<blockCount pieceSize := by
  simp only [blockCount,readBlock]
  omega

theorem reading_readForHook (hblocks : job.blocks=[]) : Reading job.readForHook where
  length := by simp [Job.readForHook]
  left := by simp [Job.readForHook]
  aligned o ho := by
    obtain ⟨m,-,rfl⟩ := List.mem_map.mp ho
    exact Nat.mul_mod_left m readBlock
  once := by
    have hinj : Function.Injective (· * readBlock) := fun a b hab =>
      Nat.eq_of_mul_eq_mul_right (by decide) hab
    simpa [Job.readForHook,hblocks] using List.nodup_range.map hinj
  read _ b hb := by simp [Job.readForHook,hblocks] at hb
  bytes _ k hk hnot := by
    refine absurd (List.mem_map.mpr ⟨k/readBlock,?_,rfl⟩) hnot
    exact List.mem_range.mpr (lt_blockCount hk)

theorem memcpy_getElem? (data : List UInt8) (offset len : Nat) (buf : Nat → UInt8) (k : Nat) :
    (memcpy data offset len buf)[k]? = data[k]?.map fun b =>
      if offset≤k ∧ k<offset+len then buf (k-offset) else b := by
  simp [memcpy]

theorem stage_finish {spoil late : Bool} (hcomputed : Computed job h)
    (hrequested : job.requested=[]) (hcalls : job.calls=[])
    (hverdict : job.verdict=some true ↔ spoil=true)
    (hasked : job.asked=[] ∨ job.verdict≠none ∧ ∃ data, Asked job data)
    (hlate : late=true → alive=true) :
    Stage alive [] (job.finish spoil late !alive) := by
  refine .called ⟨_,_,false,late,!alive⟩ ⟨h,hcomputed.hashed,hcomputed.succeeded.symm,?_⟩
    hrequested ?_ (by rw [Job.finish,hcalls]) rfl (by simpa using hlate)
  · have hhash : job.hash=h.hash := by simp [Job.hash,hcomputed.hashed]
    have hsame : (job.finish spoil late !alive).verdict=job.verdict := rfl
    rw [hsame,hhash,hcomputed.v2]
    cases spoil with
    | true => rw [if_pos (hverdict.mpr rfl)]; exact ⟨rfl,rfl⟩
    | false => rw [if_neg (by simp [hverdict])]; exact ⟨rfl,rfl⟩
  · rcases hasked with hnone | ⟨hgiven,data,hdata⟩
    · exact .inl hnone
    · exact .inr ⟨hgiven,data,⟨hdata.asked,hdata.whole,hdata.requested⟩⟩

theorem blockCount_pos {pieceSize : Int} (hpos : 0<pieceSize) : 0<blockCount pieceSize :=
  Nat.lt_of_le_of_lt (Nat.zero_le _) (lt_blockCount (k := 0) (by omega))

theorem stage_hashAnswer (hstage : Stage alive queued job) (hhashed : job.hashed=none)
    (answer : Hashed) : Stage alive queued (job.hashAnswer (!alive) answer) := by
  cases hstage with
  | hashing _ hfresh hverdict hblocks hcalls hqueued =>
    unfold Job.hashAnswer
    dsimp only
    split
    case isTrue =>
      refine .called ⟨_,_,_,false,!alive⟩ ⟨answer,rfl,rfl,?_⟩ hfresh.1 (.inl hfresh.2)
        (by rw [hcalls]) hqueued (by simp)
      rw [if_neg (by simp [hverdict])]
      exact ⟨rfl,rfl⟩
    case isFalse hjudged =>
      simp only [Bool.or_eq_true,decide_eq_true_eq,not_or,Bool.not_eq_true] at hjudged
      obtain ⟨⟨-,hsucceeded⟩,hpos⟩ := hjudged
      refine .reading answer ⟨rfl,hsucceeded,rfl⟩ (reading_readForHook hblocks) ?_ hfresh.2
        hverdict hcalls hqueued
      have hcount := blockCount_pos (Int.not_le.mp hpos)
      simp [Job.readForHook,Nat.ne_of_gt hcount]
  | reading h hcomputed => simp [hcomputed.hashed] at hhashed
  | judging h data hcomputed => simp [hcomputed.hashed] at hhashed
  | waiting h data spoil hcomputed => simp [hcomputed.hashed] at hhashed
  | dropped h data hcomputed => simp [hcomputed.hashed] at hhashed
  | called c hanswered =>
    obtain ⟨h,hsome,-⟩ := hanswered
    simp [hsome] at hhashed

/-- An answer takes its block out of those to come. -/
theorem Reading.blockAnswer {offset : Nat} (block : Block) (hread : Reading job)
    (hoffset : offset∈job.requested) :
    let read := job.read.store job.pieceSize offset block;
    Reading { job with
      requested := job.requested.erase offset
      blocks := (offset, block)::job.blocks
      read := { read with left := read.left-1 } } := by
  have hnodup : job.requested.Nodup := hread.once.of_append_right
  have hnew : offset∉job.blocks.map Prod.fst := fun hmem =>
    (List.nodup_append.mp hread.once).2.2 offset hmem offset hoffset rfl
  have haligned := hread.aligned offset hoffset
  have hleft : (job.read.store job.pieceSize offset block).left=job.read.left := by
    cases block <;> rfl
  refine ⟨?_,?_,fun o ho => hread.aligned o (List.mem_of_mem_erase ho),?_,?_,?_⟩
  · cases block with
    | none => exact hread.length
    | some buf => simpa [Read.store,memcpy] using hread.length
  · dsimp only
    rw [hleft,hread.left,List.length_erase_of_mem hoffset]
    have hpos := List.length_pos_of_mem hoffset
    omega
  · rw [List.map_cons,List.cons_append,List.nodup_cons]
    refine ⟨?_,?_⟩
    · rw [List.mem_append,not_or]
      exact ⟨hnew,hnodup.not_mem_erase⟩
    · exact hread.once.sublist ((List.Sublist.refl _).append List.erase_sublist)
  · intro hclean b hb
    cases block with
    | none => simp [Read.store] at hclean
    | some buf =>
      rcases List.mem_cons.mp hb with rfl | hb
      · rfl
      · exact hread.read hclean b hb
  · intro hclean k (hk : k<job.pieceSize.toNat) hdone
    cases block with
    | none => simp [Read.store] at hclean
    | some buf =>
      set len := min readBlock (job.pieceSize.toNat-offset) with hlen
      have hstored : (job.read.store job.pieceSize offset (some buf)).data[k]? =
          job.read.data[k]?.map fun b =>
            if offset≤k ∧ k<offset+len then buf (k-offset) else b :=
        memcpy_getElem? _ _ _ _ _
      by_cases hmine : k/readBlock*readBlock=offset
      · have hin : offset≤k ∧ k<offset+len := by
          simp only [readBlock] at hmine hlen
          omega
        have hbyte : k-offset=k%readBlock := by
          simp only [readBlock] at hmine ⊢
          omega
        have hlt : k<job.read.data.length := by rw [hread.length]; exact hk
        refine ⟨buf,by simp [hmine],?_⟩
        rw [hstored,List.getElem?_eq_getElem hlt,Option.map_some,if_pos hin,hbyte]
      · have hout : ¬(offset≤k ∧ k<offset+len) := by
          simp only [readBlock] at hmine hlen haligned
          omega
        have hrest : k/readBlock*readBlock∉job.requested := fun hmem =>
          hdone ((List.mem_erase_of_ne hmine).mpr hmem)
        obtain ⟨old,hold,hbyte⟩ := hread.bytes hclean k hk hrest
        refine ⟨old,List.mem_cons_of_mem _ hold,?_⟩
        rw [hstored,hbyte,Option.map_some,if_neg hout]

theorem stage_blockAnswer {offset : Nat} (block : Block) (hstage : Stage alive queued job)
    (hoffset : offset∈job.requested) :
    Stage alive queued (job.blockAnswer (!alive) offset block) := by
  have hsome : job.requested≠[] := List.ne_nil_of_mem hoffset
  cases hstage with
  | reading h hcomputed hread _ hasked hverdict hcalls hqueued =>
    have hafter := hread.blockAnswer block hoffset
    unfold Job.blockAnswer
    dsimp only at hafter ⊢
    split
    case isFalse hmore =>
      refine .reading h ⟨hcomputed.hashed,hcomputed.succeeded,hcomputed.v2⟩ hafter ?_ hasked
        hverdict hcalls hqueued
      intro hnone
      have hleft := hafter.left
      rw [hnone] at hleft
      exact hmore hleft
    case isTrue hlast =>
      have hnone : job.requested.erase offset=[] := by
        have hleft := hafter.left
        rw [hlast] at hleft
        exact List.length_eq_zero_iff.mp (Int.ofNat_eq_zero.mp hleft.symm)
      unfold Job.ask
      split
      case isTrue =>
        rw [hqueued]
        exact stage_finish ⟨hcomputed.hashed,hcomputed.succeeded,hcomputed.v2⟩ hnone hcalls
          (by simp [hverdict]) (.inl hasked) (by simp)
      case isFalse hclean =>
        refine .judging h _ ⟨hcomputed.hashed,hcomputed.succeeded,hcomputed.v2⟩
          ⟨by rw [hasked],?_,hnone⟩ hverdict hcalls hqueued
        have hread := hafter.read (by simpa using hclean)
        have hbytes := hafter.bytes (by simpa using hclean)
        refine ⟨hafter.length,hread,hafter.once.of_append_left,fun k hk => ?_⟩
        exact hbytes k hk (by simp [hnone])
  | hashing _ hfresh => exact absurd hfresh.1 hsome
  | judging h data _ hasked => exact absurd hasked.requested hsome
  | waiting h data spoil _ hasked => exact absurd hasked.requested hsome
  | dropped h data _ hasked => exact absurd hasked.requested hsome
  | called c _ hrequested => exact absurd hrequested hsome

theorem judging_of_asked (hstage : Stage alive queued job) (hasked : job.asked≠[])
    (hverdict : job.verdict=none) :
    queued=[] ∧ job.calls=[] ∧ ∃ h data, Computed job h ∧ Asked job data := by
  cases hstage with
  | judging h data hcomputed hdata _ hcalls hqueued =>
    exact ⟨hqueued,hcalls,h,data,hcomputed,hdata⟩
  | hashing _ hfresh => exact absurd hfresh.2 hasked
  | reading h _ _ _ hnone => exact absurd hnone hasked
  | waiting h data spoil _ _ hgiven => simp [hverdict] at hgiven
  | dropped h data _ _ hgiven => exact absurd hverdict hgiven
  | called c _ _ hjudged =>
    rcases hjudged with hnone | ⟨hgiven,-⟩
    · exact absurd hnone hasked
    · exact absurd hverdict hgiven

theorem stage_returned (hstage : Stage alive queued job) :
    Stage alive queued { job with inside := false } := by
  cases hstage with
  | hashing hhashed hfresh hverdict hblocks hcalls hqueued =>
    exact .hashing hhashed hfresh hverdict hblocks hcalls hqueued
  | reading h hcomputed hread hrequested hasked hverdict hcalls hqueued =>
    exact .reading h ⟨hcomputed.1,hcomputed.2,hcomputed.3⟩
      ⟨hread.1,hread.2,hread.3,hread.4,hread.5,hread.6⟩ hrequested hasked hverdict hcalls
      hqueued
  | judging h data hcomputed hdata hverdict hcalls hqueued =>
    exact .judging h data ⟨hcomputed.1,hcomputed.2,hcomputed.3⟩ ⟨hdata.1,hdata.2,hdata.3⟩
      hverdict hcalls hqueued
  | waiting h data spoil hcomputed hdata hverdict hcalls hqueued halive =>
    exact .waiting h data spoil ⟨hcomputed.1,hcomputed.2,hcomputed.3⟩
      ⟨hdata.1,hdata.2,hdata.3⟩ hverdict hcalls hqueued halive
  | dropped h data hcomputed hdata hverdict hcalls hqueued halive =>
    exact .dropped h data ⟨hcomputed.1,hcomputed.2,hcomputed.3⟩ ⟨hdata.1,hdata.2,hdata.3⟩
      hverdict hcalls hqueued halive
  | called c hanswered hrequested hasked hcalls hqueued hlate =>
    refine .called c hanswered hrequested ?_ hcalls hqueued hlate
    rcases hasked with hnone | ⟨hgiven,data,hdata⟩
    · exact .inl hnone
    · exact .inr ⟨hgiven,data,⟨hdata.1,hdata.2,hdata.3⟩⟩

theorem stage_pump (hstage : Stage alive queued job) :
    Stage alive [] (queued.foldl (fun job spoil => job.finish spoil true !alive) job) := by
  cases hstage with
  | waiting h data spoil hcomputed hdata hverdict hcalls hqueued halive =>
    rw [hqueued]
    exact stage_finish hcomputed hdata.requested hcalls (by simp [hverdict])
      (.inr ⟨by simp [hverdict],data,hdata⟩) fun _ => halive
  | hashing hhashed hfresh hverdict hblocks hcalls hqueued =>
    rw [hqueued]
    exact .hashing hhashed hfresh hverdict hblocks hcalls rfl
  | reading h hcomputed hread hrequested hasked hverdict hcalls hqueued =>
    rw [hqueued]
    exact .reading h hcomputed hread hrequested hasked hverdict hcalls rfl
  | judging h data hcomputed hdata hverdict hcalls hqueued =>
    rw [hqueued]
    exact .judging h data hcomputed hdata hverdict hcalls rfl
  | dropped h data hcomputed hdata hverdict hcalls hqueued halive =>
    rw [hqueued]
    exact .dropped h data hcomputed hdata hverdict hcalls rfl halive
  | called c hanswered hrequested hasked hcalls hqueued hlate =>
    rw [hqueued]
    exact .called c hanswered hrequested hasked hcalls rfl hlate

theorem stage_abort (hstage : Stage alive queued job) : Stage false [] job := by
  cases hstage with
  | waiting h data spoil hcomputed hdata hverdict hcalls hqueued halive =>
    exact .dropped h data hcomputed hdata (by simp [hverdict]) hcalls rfl rfl
  | hashing hhashed hfresh hverdict hblocks hcalls hqueued =>
    exact .hashing hhashed hfresh hverdict hblocks hcalls rfl
  | reading h hcomputed hread hrequested hasked hverdict hcalls hqueued =>
    exact .reading h hcomputed hread hrequested hasked hverdict hcalls rfl
  | judging h data hcomputed hdata hverdict hcalls hqueued =>
    exact .judging h data hcomputed hdata hverdict hcalls rfl
  | dropped h data hcomputed hdata hverdict hcalls hqueued halive =>
    exact .dropped h data hcomputed hdata hverdict hcalls rfl rfl
  | called c hanswered hrequested hasked hcalls hqueued hlate =>
    exact .called c hanswered hrequested hasked hcalls rfl hlate

end Jobs

/-- The verdicts that wait for one hash. -/
def verdictsFor (ready : List (Nat × Bool)) (id : Nat) : List Bool :=
  ready.filterMap fun v => if v.1=id then some v.2 else none

/-- Every handler is in one place, and every verdict in the queue is for one of them. -/
structure Sound (s : State) : Prop where
  stage : ∀ id job, s.jobs[id]? = some job → Stage s.alive (verdictsFor s.ready id) job
  known : ∀ v ∈ s.ready, v.1 < s.jobs.length

section Runs

variable {s : State} {id other : Nat} {f : Job → Job} {job : Job}

theorem update_getElem? : (s.update id f).jobs[other]? =
    s.jobs[other]?.map fun job => if id=other then f job else job := by
  simp [State.update,List.getElem?_modify]

theorem Sound.update (hs : Sound s) (hf : ∀ job,s.jobs[id]? = some job →
    Stage s.alive (verdictsFor s.ready id) job → Stage s.alive (verdictsFor s.ready id) (f job)) :
    Sound (s.update id f) where
  stage other job hjob := by
    rw [update_getElem?,Option.map_eq_some_iff] at hjob
    obtain ⟨old,hold,rfl⟩ := hjob
    split
    case isTrue hsame =>
      subst hsame
      exact hf old hold (hs.stage id old hold)
    case isFalse => exact hs.stage other old hold
  known v hv := by simpa [State.update] using hs.known v hv

theorem sound_asyncHash (hs : Sound s) (storage piece : Nat) :
    Sound (s.asyncHash storage piece) where
  stage id job hjob := by
    rcases Nat.lt_trichotomy id s.jobs.length with hlt | rfl | hgt
    · exact hs.stage id job (by rwa [State.asyncHash,List.getElem?_append_left hlt] at hjob)
    · have hlast : (s.asyncHash storage piece).jobs[s.jobs.length]? = some _ :=
        List.getElem?_concat_length
      obtain rfl := Option.some.inj (hlast.symm.trans hjob)
      refine .hashing rfl ⟨rfl,rfl⟩ rfl rfl rfl (List.filterMap_eq_nil_iff.mpr fun v hv => ?_)
      have hknown := hs.known v hv
      exact if_neg (Nat.ne_of_lt hknown)
    · have hlength := (List.getElem?_eq_some_iff.mp hjob).1
      simp [State.asyncHash] at hlength
      omega
  known v hv := by
    have hknown := hs.known v hv
    simp [State.asyncHash]
    omega

theorem sound_verdict (hs : Sound s) {spoil sameThread : Bool}
    (hallowed : Allowed s (.verdict id spoil sameThread)) :
    Sound (s.verdict id spoil sameThread) := by
  obtain ⟨judged,hjudged,hasked,hnone⟩ := hallowed
  obtain ⟨hqueued,hcalls,h,data,hcomputed,hdata⟩ :=
    judging_of_asked (hs.stage id judged hjudged) hasked hnone
  set given : Job := { judged with verdict := some spoil } with hgiven
  have hcomputed' : Computed given h := ⟨hcomputed.1,hcomputed.2,hcomputed.3⟩
  have hdata' : Asked given data := ⟨hdata.1,hdata.2,hdata.3⟩
  set t := s.update id fun job => { job with verdict := some spoil } with ht
  have hlookup (other : Nat) (job : Job) (hjob : t.jobs[other]? = some job) :
      other=id ∧ job=given ∨ other≠id ∧ s.jobs[other]? = some job := by
    rw [ht,update_getElem?,Option.map_eq_some_iff] at hjob
    obtain ⟨old,hold,rfl⟩ := hjob
    by_cases hsame : id=other
    · subst hsame
      obtain rfl := Option.some.inj (hold.symm.trans hjudged)
      exact .inl ⟨rfl,if_pos rfl⟩
    · exact .inr ⟨Ne.symm hsame,by rw [if_neg hsame,hold]⟩
  have hknown : ∀ v∈s.ready,v.1<t.jobs.length := fun v hv => by
    simpa [ht,State.update] using hs.known v hv
  have hid : id<t.jobs.length := by
    simpa [ht,State.update] using (List.getElem?_eq_some_iff.mp hjudged).1
  unfold State.verdict
  rw [← ht]
  dsimp only
  split
  case isTrue =>
    -- inside the hook's call the handler runs at once
    refine ⟨fun other job hjob => ?_,fun v hv => by
      simpa [State.update] using hknown v hv⟩
    rw [update_getElem?,Option.map_eq_some_iff] at hjob
    obtain ⟨old,hold,rfl⟩ := hjob
    rcases hlookup other old hold with ⟨rfl,rfl⟩ | ⟨hne,hother⟩
    · rw [if_pos rfl]
      change Stage s.alive (verdictsFor s.ready other) _
      rw [hqueued]
      exact stage_finish hcomputed' hdata'.requested hcalls (by simp [hgiven])
        (.inr ⟨by simp [hgiven],data,hdata'⟩) (by simp)
    · rw [if_neg (Ne.symm hne)]
      exact hs.stage other old hother
  case isFalse =>
    split
    case isTrue halive =>
      refine ⟨fun other job hjob => ?_,fun v hv => ?_⟩
      · have hsplit : verdictsFor (s.ready++[(id, spoil)]) other=verdictsFor s.ready other ++
            if id=other then [spoil] else [] := by
          rw [verdictsFor,List.filterMap_append]
          by_cases hsame : id=other <;> simp [verdictsFor,hsame]
        change Stage s.alive (verdictsFor (s.ready++[(id, spoil)]) other) job
        rw [hsplit]
        rcases hlookup other job hjob with ⟨rfl,rfl⟩ | ⟨hne,hother⟩
        · rw [if_pos rfl,hqueued]
          exact .waiting h data spoil hcomputed' hdata' rfl hcalls rfl halive
        · rw [if_neg (Ne.symm hne),List.append_nil]
          exact hs.stage other job hother
      · rcases List.mem_append.mp hv with hv | hv
        · exact hknown v hv
        · obtain rfl := List.mem_singleton.mp hv
          exact hid
    case isFalse hdead =>
      refine ⟨fun other job hjob => ?_,hknown⟩
      rcases hlookup other job hjob with ⟨rfl,rfl⟩ | ⟨-,hother⟩
      · change Stage s.alive (verdictsFor s.ready other) given
        rw [hqueued]
        exact .dropped h data hcomputed' hdata' (by simp [hgiven]) hcalls rfl (by simpa using hdead)
      · exact hs.stage other job hother

theorem pump_getElem? (aborted : Bool) (ready : List (Nat × Bool)) (t : State) :
    let u := ready.foldl (fun t v => t.update v.1 (Job.finish v.2 true aborted)) t;
    u.alive=t.alive ∧ u.ready=t.ready ∧ u.jobs.length=t.jobs.length ∧
      ∀ id,u.jobs[id]? = t.jobs[id]?.map fun job =>
        (verdictsFor ready id).foldl (fun job spoil => job.finish spoil true aborted) job := by
  induction ready generalizing t with
  | nil => exact ⟨rfl,rfl,rfl,fun id => by simp [verdictsFor]⟩
  | cons v ready ih =>
    obtain ⟨halive,hready,hlength,hjobs⟩ := ih (t.update v.1 (Job.finish v.2 true aborted))
    refine ⟨halive,hready,by simpa [State.update] using hlength,fun id => ?_⟩
    rw [List.foldl_cons,hjobs,update_getElem?,Option.map_map]
    congr 1
    funext job
    by_cases hsame : v.1=id <;> simp [verdictsFor,hsame]

theorem pump_spec (s : State) : s.pump.alive=s.alive ∧ s.pump.ready=[] ∧
    s.pump.jobs.length=s.jobs.length ∧ ∀ id,s.pump.jobs[id]? = s.jobs[id]?.map fun job =>
      (verdictsFor s.ready id).foldl (fun job spoil => job.finish spoil true !s.alive) job :=
  pump_getElem? (!s.alive) s.ready { s with ready := [] }

theorem sound_pump (hs : Sound s) : Sound s.pump := by
  obtain ⟨halive,hready,-,hjobs⟩ := pump_spec s
  refine ⟨fun id job hjob => ?_,by simp [hready]⟩
  rw [hjobs,Option.map_eq_some_iff] at hjob
  obtain ⟨old,hold,rfl⟩ := hjob
  rw [halive,hready]
  exact stage_pump (hs.stage id old hold)

theorem sound_abort (hs : Sound s) : Sound s.abort where
  stage id job hjob := stage_abort (hs.stage id job hjob)
  known v hv := by simp [State.abort] at hv

theorem sound_step (s : State) (e : Event) (hs : Sound s) (hallowed : Allowed s e) :
    Sound (step s e) := by
  cases e with
  | attach | detach | newTorrent | removeTorrent => exact ⟨hs.stage,hs.known⟩
  | asyncHash storage piece => exact sound_asyncHash hs storage piece
  | hashAnswer id answer =>
    obtain ⟨-,asked,hasked,hnone⟩ := hallowed
    refine hs.update fun job hjob hstage => stage_hashAnswer hstage ?_ answer
    obtain rfl := Option.some.inj (hasked.symm.trans hjob)
    exact hnone
  | blockAnswer id offset block =>
    obtain ⟨-,asked,hasked,hoffset⟩ := hallowed
    refine hs.update fun job hjob hstage => stage_blockAnswer block hstage ?_
    obtain rfl := Option.some.inj (hasked.symm.trans hjob)
    exact hoffset
  | verdict id spoil sameThread => exact sound_verdict hs hallowed
  | returned id => exact hs.update fun job _ hstage => stage_returned hstage
  | pump => exact sound_pump hs
  | abort => exact sound_abort hs
  | destroy => exact ⟨(sound_abort hs).stage,(sound_abort hs).known⟩

theorem sound_run {events : List Event} (hallowed : Along step Allowed {} events) :
    Sound (run step {} events) := by
  have hinit : Sound {} := ⟨fun id job hjob => by simp at hjob,by simp⟩
  exact run_invariant sound_step hinit hallowed

theorem alive_run {events : List Event} (hnone : ∀ e∈events,e ≠ .abort ∧ e ≠ .destroy) :
    (run step {} events).alive=true := by
  have hstep : ∀ s e,s.alive=true → e ≠ .abort ∧ e ≠ .destroy → (step s e).alive=true := by
    intro s e halive hne
    cases e with
    | abort => exact absurd rfl hne.1
    | destroy => exact absurd rfl hne.2
    | pump => exact (pump_spec s).1.trans halive
    | verdict id spoil sameThread =>
      simp only [step,State.verdict]
      split
      · exact halive
      · exact halive
    | _ => exact halive
  have hinit : ({} : State).alive=true := rfl
  exact run_invariant hstep hinit (along_of_forall _ hnone)

/-- A hash whose requests are answered, by the disk and by the hook if it was asked, has its
handler called by the next pump at the latest. -/
theorem Stage.calls_after_pump {alive : Bool} {queued : List Bool}
    (hstage : Stage alive queued job) (halive : alive=true) (hhashed : job.hashed≠none)
    (hread : job.requested=[]) (hjudged : job.asked≠[] → job.verdict≠none) (aborted : Bool) :
    (queued.foldl (fun job spoil => job.finish spoil true aborted) job).calls.length=1 := by
  cases hstage with
  | hashing hnone => exact absurd hnone hhashed
  | reading h _ _ hrequested => exact absurd hread hrequested
  | judging h data _ hdata hverdict => exact absurd hverdict (hjudged (by simp [hdata.asked]))
  | waiting h data spoil _ _ _ hcalls hqueued => simp [hqueued,Job.finish,hcalls]
  | dropped h data _ _ _ _ _ hdead => simp [halive] at hdead
  | called c _ _ _ hcalls hqueued => simp [hqueued,hcalls]

end Runs

/-- In every order of disk answers, verdicts, pumps, abort and destruction: a handler is called
at most once, and once when disk and hook have answered, nothing was aborted and the pump runs;
the hook is asked at most once, about the whole piece; a call carries the digests flipped
together after a spoil verdict and as computed after anything else, and until the call the
buffer stays as computed; and no call of the pump is made after the abort. -/
theorem handlers_called_once {events : List Event} (hallowed : Along step Allowed {} events)
    (id : Nat) (job : Job) (hjob : (run step {} events).jobs[id]? = some job) :
    job.calls.length ≤ 1 ∧
    ((∀ e ∈ events, e ≠ .abort ∧ e ≠ .destroy) → job.hashed ≠ none → job.requested = [] →
      (job.asked ≠ [] → job.verdict ≠ none) →
      ∃ pumped, (run step {} (events ++ [.pump])).jobs[id]? = some pumped ∧
        pumped.calls.length = 1) ∧
    job.asked.length ≤ 1 ∧
    (∀ data ∈ job.asked, Whole job.pieceSize job.blocks data) ∧
    (∀ c ∈ job.calls, Answered job c ∧ (c.late = true → c.aborted = false)) ∧
    ∀ h, job.hashed = some h → job.calls = [] → job.v2 = h.v2 := by
  have hsound := sound_run hallowed
  have hstage := hsound.stage id job hjob
  have hpump (hnone : ∀ e∈events,e ≠ .abort ∧ e ≠ .destroy) (hhashed : job.hashed≠none)
      (hread : job.requested=[]) (hjudged : job.asked≠[] → job.verdict≠none) :
      ∃ pumped, (run step {} (events++[.pump])).jobs[id]? = some pumped ∧
        pumped.calls.length=1 := by
    rw [run_append]
    refine ⟨_,((pump_spec _).2.2.2 id).trans (by rw [hjob]; rfl),?_⟩
    exact hstage.calls_after_pump (alive_run hnone) hhashed hread hjudged _
  refine ⟨?_,hpump,?_⟩
  · cases hstage <;> simp_all
  cases hstage with
  | hashing hhashed hfresh _ _ hcalls =>
    exact ⟨by simp [hfresh.2],by simp [hfresh.2],by simp [hcalls],by simp [hhashed]⟩
  | reading h hcomputed _ _ hasked _ hcalls =>
    refine ⟨by simp [hasked],by simp [hasked],by simp [hcalls],fun g hg _ => ?_⟩
    obtain rfl := Option.some.inj (hcomputed.hashed.symm.trans hg)
    exact hcomputed.v2
  | judging h data hcomputed hdata _ hcalls =>
    refine ⟨by simp [hdata.asked],?_,by simp [hcalls],fun g hg _ => ?_⟩
    · simpa [hdata.asked] using hdata.whole
    · obtain rfl := Option.some.inj (hcomputed.hashed.symm.trans hg)
      exact hcomputed.v2
  | waiting h data spoil hcomputed hdata _ hcalls =>
    refine ⟨by simp [hdata.asked],?_,by simp [hcalls],fun g hg _ => ?_⟩
    · simpa [hdata.asked] using hdata.whole
    · obtain rfl := Option.some.inj (hcomputed.hashed.symm.trans hg)
      exact hcomputed.v2
  | dropped h data hcomputed hdata _ hcalls =>
    refine ⟨by simp [hdata.asked],?_,by simp [hcalls],fun g hg _ => ?_⟩
    · simpa [hdata.asked] using hdata.whole
    · obtain rfl := Option.some.inj (hcomputed.hashed.symm.trans hg)
      exact hcomputed.v2
  | called c hanswered _ hasked hcalls _ hlate =>
    refine ⟨?_,?_,by simpa [hcalls] using ⟨hanswered,hlate⟩,by simp [hcalls]⟩
    · rcases hasked with hnone | ⟨-,data,hdata⟩
      · simp [hnone]
      · simp [hdata.asked]
    · rcases hasked with hnone | ⟨-,data,hdata⟩
      · simp [hnone]
      · simpa [hdata.asked] using hdata.whole

/-- A piece of three bytes, spoiled by a verdict that comes after the hook's call. -/
def spoiledLate : List Event :=
  [.attach [7] 1,.newTorrent 0 [7] (fun _ => 3),.asyncHash 0 5,
    .hashAnswer 0 ⟨[1],[[2],[3]],false⟩,.blockAnswer 0 0 (some UInt8.ofNat),.returned 0,
    .verdict 0 true false,.pump]

theorem handlers_called_once_late : ∃ job, (run step {} spoiledLate).jobs[0]? = some job ∧
    job.calls.length = 1 ∧ job.asked = [[0, 1, 2]] ∧
    ∀ c ∈ job.calls, Answered job c ∧ (c.late = true → c.aborted = false) := by
  have hallowed : Along step Allowed {} spoiledLate :=
    ⟨rfl,rfl,rfl,⟨rfl,_,rfl,rfl⟩,⟨rfl,_,rfl,List.mem_singleton.mpr rfl⟩,
      ⟨_,rfl,rfl⟩,⟨_,rfl,List.cons_ne_nil _ _,rfl⟩,rfl,trivial⟩
  obtain ⟨-,-,-,-,hcalls,-⟩ := handlers_called_once hallowed 0 _ rfl
  exact ⟨_,rfl,rfl,rfl,hcalls⟩

end EmuleQt.Bt.JoinDiskIo
