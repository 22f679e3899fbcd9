import EmuleQt.Files.PartRecovery
import EmuleQt.Files.GapQueries
import EmuleQt.Files.HttpRange

namespace EmuleQt.Files

open Math Math.Interval Utils

/-- The closure of `shrinkToAvoidAlreadyRequested`: keep what lies before a taken range, else what
lies behind it. -/
def shrink (taken r : Interval) : Bool × Interval :=
  if taken.start > r.stop ∨ taken.stop < r.start then (true, r)
  else if taken.start > r.start then
    (decide (r.start ≤ taken.start - 1), ⟨r.start, taken.start - 1⟩)
  else if taken.stop < r.stop then
    (decide (taken.stop + 1 ≤ r.stop), ⟨taken.stop + 1, r.stop⟩)
  else (false, r)

/-- One list after the other; the first `false` ends it. -/
def shrinkAll : List Interval → Interval → Bool × Interval
  | [], r => (true, r)
  | taken::rest, r =>
    match shrink taken r with
    | (true, r) => shrinkAll rest r
    | (false, r) => (false, r)

namespace PartFile

/-- Requested blocks, then buffered data, then what the disk worker has. -/
def takenRanges (f : PartFile) : List Interval :=
  f.requestedBlocks++f.bufferedData.map BufferedData.toInterval ++
    f.flushingData.map BufferedData.toInterval

def shrinkToAvoidAlreadyRequested (f : PartFile) (r : Interval) : Bool × Interval :=
  shrinkAll f.takenRanges r

end PartFile

def AllNonempty (is : List Interval) : Prop := ∀ i∈is, i.start ≤ i.stop

theorem AllNonempty.of_cons {i : Interval} {is : List Interval} (h : AllNonempty (i::is)) :
    i.start ≤ i.stop ∧ AllNonempty is :=
  ⟨h i List.mem_cons_self,fun j hj => h j (List.mem_cons_of_mem i hj)⟩

section Shrink

variable {taken r : Interval} {rest : List Interval}

theorem shrink_cases (taken r : Interval) :
    (shrink taken r=(true, r) ∧ (r.stop<taken.start ∨ taken.stop<r.start)) ∨
    (shrink taken r=(true, ⟨r.start,taken.start-1⟩) ∧
      r.start<taken.start ∧ taken.start≤r.stop) ∨
    (shrink taken r=(true, ⟨taken.stop+1,r.stop⟩) ∧
      taken.start≤r.start ∧ r.start≤taken.stop ∧ taken.stop<r.stop) ∨
    ((shrink taken r).1=false ∧ taken.start≤r.start ∧ r.stop≤taken.stop) := by
  by_cases hapart : taken.start>r.stop ∨ taken.stop<r.start
  · exact Or.inl ⟨by rw [shrink,if_pos hapart],hapart⟩
  · obtain ⟨hlow,hhigh⟩ := not_or.mp hapart
    by_cases hbefore : taken.start>r.start
    · refine Or.inr (Or.inl ⟨?_,hbefore,Nat.le_of_not_lt hlow⟩)
      rw [shrink,if_neg hapart,if_pos hbefore,decide_eq_true (Nat.le_sub_one_of_lt hbefore)]
    · by_cases hbehind : taken.stop<r.stop
      · refine Or.inr (Or.inr (Or.inl ⟨?_,Nat.le_of_not_lt hbefore,Nat.le_of_not_lt hhigh,
          hbehind⟩))
        rw [shrink,if_neg hapart,if_neg hbefore,if_pos hbehind,
          decide_eq_true (Nat.succ_le_of_lt hbehind)]
      · refine Or.inr (Or.inr (Or.inr ⟨?_,Nat.le_of_not_lt hbefore,Nat.le_of_not_lt hbehind⟩))
        rw [shrink,if_neg hapart,if_neg hbefore,if_neg hbehind]

theorem shrinkAll_cons_true {r' : Interval} (h : shrink taken r=(true, r')) :
    shrinkAll (taken::rest) r=shrinkAll rest r' := by
  rw [shrinkAll,h]

theorem shrinkAll_cons_false (h : (shrink taken r).1=false) :
    (shrinkAll (taken::rest) r).1=false := by
  rw [shrinkAll]
  split
  · next r' heq => rw [heq] at h; exact absurd h (by simp)
  · rfl

/-- A non-empty part of a range that meets nothing taken. -/
structure FreePart (taken : List Interval) (r part : Interval) : Prop where
  low : r.start≤part.start
  high : part.stop≤r.stop
  nonempty : part.start≤part.stop
  free : ∀ x, part.start≤x → x≤part.stop → x∉union taken

theorem shrinkAll_freePart {is : List Interval} (his : AllNonempty is) (hr : r.start≤r.stop)
    (htrue : (shrinkAll is r).1=true) : FreePart is r (shrinkAll is r).2 := by
  induction is generalizing r with
  | nil => exact ⟨Nat.le_refl _,Nat.le_refl _,hr,fun x _ _ => mem_union_nil⟩
  | cons taken rest ih =>
    obtain ⟨htaken,hrest⟩ := his.of_cons
    -- in each kept case the part left is apart from this range, and what comes after is inside it
    have hkept : ∀ r' : Interval, shrink taken r=(true, r') → r'.start≤r'.stop →
        r.start≤r'.start → r'.stop≤r.stop →
        (r'.stop<taken.start ∨ taken.stop<r'.start) →
        FreePart (taken::rest) r (shrinkAll (taken::rest) r).2 := by
      intro r' hstep hne hlow hhigh hapart
      rw [shrinkAll_cons_true hstep] at htrue ⊢
      have hpart := ih hrest hne htrue
      refine ⟨Nat.le_trans hlow hpart.low,Nat.le_trans hpart.high hhigh,hpart.nonempty,?_⟩
      intro x hx hx' hmem
      have hl := hpart.low
      have hh := hpart.high
      rcases mem_union_cons.mp hmem with hin | hin
      · omega
      · exact hpart.free x hx hx' hin
    rcases shrink_cases taken r with ⟨hstep,hapart⟩ | ⟨hstep,h1,h2⟩ | ⟨hstep,h1,h2,h3⟩ |
      ⟨hstep,-,-⟩
    · exact hkept r hstep hr (Nat.le_refl _) (Nat.le_refl _) hapart
    · exact hkept ⟨r.start,taken.start-1⟩ hstep (by simp only; omega) (Nat.le_refl _)
        (by simp only; omega) (Or.inl (by simp only; omega))
    · exact hkept ⟨taken.stop+1,r.stop⟩ hstep (by simp only; omega) (by simp only; omega)
        (Nat.le_refl _) (Or.inr (by simp only; omega))
    · rw [shrinkAll_cons_false hstep] at htrue
      exact absurd htrue (by simp)

end Shrink

/-- `free` is the first byte of the range that nothing takes. -/
structure FirstFree (taken : List Interval) (r : Interval) (free : Nat) : Prop where
  low : r.start≤free
  high : free≤r.stop
  notTaken : free∉union taken
  first : ∀ x, r.start≤x → x<free → x∈union taken

/-- Each range that ends before the byte `free` comes after ranges that hold every byte from `start`
up to it; `seen` was listed before. -/
def ListedInOrder (start free : Nat) (seen taken : List Interval) : Prop :=
  ∀ pre t post, taken=pre++t::post → start≤t.stop → t.stop<free →
    ∀ x, start≤x → x<t.start → x∈union (seen++pre)

section Order

variable {start free : Nat} {seen rest : List Interval} {t : Interval}

theorem listedInOrder_cons : ListedInOrder start free seen (t::rest) ↔
    (start≤t.stop → t.stop<free → ∀ x,start≤x → x<t.start → x∈union seen) ∧
      ListedInOrder start free (seen++[t]) rest := by
  constructor
  · intro h
    refine ⟨fun hlow hhigh x hx hx' => ?_,fun pre u post heq hlow hhigh x hx hx' => ?_⟩
    · simpa using h [] t rest rfl hlow hhigh x hx hx'
    · simpa using h (t::pre) u post (by rw [heq,List.cons_append]) hlow hhigh x hx hx'
  · intro ⟨hhead,htail⟩ pre u post heq hlow hhigh x hx hx'
    cases pre with
    | nil =>
      obtain ⟨rfl,-⟩ := List.cons.inj heq
      simpa using hhead hlow hhigh x hx hx'
    | cons v pre =>
      obtain ⟨rfl,hrest⟩ := List.cons.inj heq
      simpa using htail pre u post hrest hlow hhigh x hx hx'

/-- The pass over `rest` after `seen`: the current range is clear of what was seen, what it lost in
front was covered, and it still holds the first free byte. It keeps that byte to the end if and
only if no range jumps ahead of the ones in front of it. -/
theorem shrinkAll_iff {r : Interval} (hrest : AllNonempty rest) (hstart : start≤r.start)
    (hlow : r.start≤free) (hhigh : free≤r.stop)
    (hclear : ∀ x,r.start≤x → x≤r.stop → x∉union seen)
    (hcovered : ∀ x,start≤x → x<r.start → x∈union seen)
    (hfirst : ∀ x,start≤x → x<free → x∈union (seen++rest)) (hfree : free∉union rest) :
    (shrinkAll rest r).1=true ↔ ListedInOrder start free seen rest := by
  induction rest generalizing seen r with
  | nil =>
    refine iff_of_true rfl fun pre t post heq => ?_
    exact absurd heq (by simp)
  | cons t rest ih =>
    obtain ⟨ht,hrest'⟩ := hrest.of_cons
    have hapart : ¬(t.start≤free ∧ free≤t.stop) :=
      fun hin => hfree (mem_union_cons.mpr (Or.inl hin))
    have hfree' : free∉union rest := fun hin => hfree (mem_union_cons.mpr (Or.inr hin))
    have hfirst' : ∀ x,start≤x → x<free → x∈union ((seen++[t])++rest) := by
      simpa using hfirst
    have hr : r.start≤r.stop := Nat.le_trans hlow hhigh
    -- the byte stays in the range: the rest of the pass decides
    have hkept : ∀ r' : Interval, shrink t r=(true, r') → start≤r'.start → r'.start≤free →
        free≤r'.stop → r.start≤r'.start → r'.stop≤r.stop →
        (r'.stop<t.start ∨ t.stop<r'.start) →
        (∀ x,r.start≤x → x<r'.start → t.start≤x ∧ x≤t.stop) →
        (t.stop<free → t.start≤r.start) →
        ((shrinkAll (t::rest) r).1=true ↔ ListedInOrder start free seen (t::rest)) := by
      intro r' hstep hs hl hh hin hin' hout hlost hjump
      rw [shrinkAll_cons_true hstep,listedInOrder_cons]
      have hhead : start≤t.stop → t.stop<free →
          ∀ x,start≤x → x<t.start → x∈union seen :=
        fun _ hbefore x hx hx' => hcovered x hx (Nat.lt_of_lt_of_le hx' (hjump hbefore))
      rw [and_iff_right hhead]
      refine ih hrest' hs hl hh ?_ ?_ hfirst' hfree'
      · intro x hx hx' hmem
        rcases mem_union_append.mp hmem with hseen | hone
        · exact hclear x (Nat.le_trans hin hx) (Nat.le_trans hx' hin') hseen
        · have hin_t : t.start≤x ∧ x≤t.stop := by simpa using hone
          omega
      · intro x hx hx'
        by_cases hold : x<r.start
        · exact mem_union_append.mpr (Or.inl (hcovered x hx hold))
        · have hin_t := hlost x (Nat.le_of_not_lt hold) hx'
          exact mem_union_append.mpr (Or.inr (by simpa using hin_t))
    rcases shrink_cases t r with ⟨hstep,hout⟩ | ⟨hstep,h1,h2⟩ | ⟨hstep,h1,h2,h3⟩ |
      ⟨-,h1,h2⟩
    · exact hkept r hstep hstart hlow hhigh (Nat.le_refl _) (Nat.le_refl _) hout
        (fun x hx hx' => absurd hx (Nat.not_le_of_lt hx')) (by omega)
    · by_cases hbehind : free<t.start
      · exact hkept ⟨r.start,t.start-1⟩ hstep hstart hlow (by simp only; omega) (Nat.le_refl _)
          (by simp only; omega) (Or.inl (by simp only; omega))
          (fun x hx hx' => absurd hx (Nat.not_le_of_lt hx')) (by omega)
      · -- the part kept ends before the free byte, and holds only taken bytes
        refine iff_of_false (fun htrue => ?_) fun horder => ?_
        · rw [shrinkAll_cons_true hstep] at htrue
          have hpart := shrinkAll_freePart hrest' (r := ⟨r.start,t.start-1⟩)
            (by simp only; omega) htrue
          have hl := hpart.low
          have hh := hpart.high
          have hne := hpart.nonempty
          simp only at hl hh
          have hx := hfirst' (shrinkAll rest ⟨r.start,t.start-1⟩).2.start (by omega) (by omega)
          rcases mem_union_append.mp hx with hseen | hlater
          · rcases mem_union_append.mp hseen with hold | hone
            · exact hclear _ (by omega) (by omega) hold
            · obtain ⟨u,hu,hul,huh⟩ := mem_union.mp hone
              rw [List.mem_singleton.mp hu] at hul
              omega
          · exact hpart.free _ (Nat.le_refl _) hne hlater
        · have hhead := (listedInOrder_cons.mp horder).1 (by omega) (by omega) r.start hstart h1
          exact hclear r.start (Nat.le_refl _) hr hhead
    · exact hkept ⟨t.stop+1,r.stop⟩ hstep (by simp only; omega) (by simp only; omega) hhigh
        (by simp only; omega) (Nat.le_refl _) (Or.inr (by simp only; omega))
        (fun x hx hx' => ⟨by omega,by simp only at hx'; omega⟩) (fun _ => h1)
    · omega

end Order

theorem exists_firstFree {taken : List Interval} {r : Interval} {x : Nat} (hlow : r.start≤x)
    (hhigh : x≤r.stop) (hx : x∉union taken) : ∃ free, FirstFree taken r free := by
  classical
  have hex : ∃ y, r.start≤y ∧ y∉union taken := ⟨x,hlow,hx⟩
  obtain ⟨hfirst,hfree⟩ := Nat.find_spec hex
  refine ⟨Nat.find hex,hfirst,?_,hfree,?_⟩
  · exact Nat.le_trans (Nat.find_min' hex ⟨hlow,hx⟩) hhigh
  · intro y hy hlt
    by_contra hnot
    exact Nat.find_min hex hlt ⟨hy,hnot⟩

theorem FirstFree.shrinkAll_iff {taken : List Interval} {r : Interval} {free : Nat}
    (h : FirstFree taken r free) (htaken : AllNonempty taken) :
    (shrinkAll taken r).1=true ↔ ListedInOrder r.start free [] taken :=
  Files.shrinkAll_iff htaken (Nat.le_refl _) h.low h.high (fun _ _ _ => mem_union_nil)
    (fun _ hx hx' => absurd hx (Nat.not_le_of_lt hx')) h.first h.notTaken

namespace PartFile

/-- Every block of the lists holds a byte; `writeToBuffer` and the allocators see to it. -/
def BlocksNonempty (f : PartFile) : Prop := AllNonempty f.takenRanges

/-- What the header promises: a free part of the range, or none is left. -/
def ShrinksToFree (f : PartFile) (r : Interval) : Prop :=
  ((f.shrinkToAvoidAlreadyRequested r).1=true →
    FreePart f.takenRanges r (f.shrinkToAvoidAlreadyRequested r).2) ∧
  ((f.shrinkToAvoidAlreadyRequested r).1=false →
    ∀ x, r.start≤x → x≤r.stop → x∈union f.takenRanges)

/-- A free byte is missed exactly when a range in front of the first one is listed before those that
hold the bytes in front of it. -/
theorem shrinksToFree_iff (f : PartFile) (hblocks : f.BlocksNonempty) (r : Interval)
    (hr : r.start ≤ r.stop) : f.ShrinksToFree r ↔
      ∀ free, FirstFree f.takenRanges r free → ListedInOrder r.start free [] f.takenRanges := by
  constructor
  · intro h free hfirst
    refine (hfirst.shrinkAll_iff hblocks).mp ?_
    by_contra hfalse
    exact hfirst.notTaken (h.2 (Bool.eq_false_iff.mpr hfalse) free hfirst.low hfirst.high)
  · intro h
    refine ⟨shrinkAll_freePart hblocks hr,fun hfalse x hlow hhigh => ?_⟩
    by_contra hx
    obtain ⟨free,hfirst⟩ := exists_firstFree hlow hhigh hx
    have htrue := (hfirst.shrinkAll_iff hblocks).mpr (h free hfirst)
    rw [shrinkToAvoidAlreadyRequested,htrue] at hfalse
    exact absurd hfalse (by simp)

/-- A slow source holds a piece from the middle of the first block; the one in front of it was given
back and taken again. -/
def twicePieced : PartFile :=
  { corruptedDownload [] with
    gapList := [⟨0,PARTSIZE⟩]
    corruptedParts := []
    requestedBlocks := [⟨16384,32767⟩,⟨0,16383⟩] }

theorem shrinksToFree_iff_twicePieced : twicePieced.ShrinksToFree ⟨0, 184319⟩ ↔
    ∀ free, FirstFree twicePieced.takenRanges ⟨0, 184319⟩ free →
      ListedInOrder 0 free [] twicePieced.takenRanges :=
  shrinksToFree_iff twicePieced (by unfold BlocksNonempty AllNonempty; decide) ⟨0,184319⟩
    (by decide)

/-- The bytes from 32768 on are free, and the pass finds none. -/
theorem twicePieced_not_shrinksToFree :
    twicePieced.shrinkToAvoidAlreadyRequested ⟨0, 184319⟩ = (false, ⟨0, 16383⟩) ∧
      40000 ∉ union twicePieced.takenRanges ∧ ¬twicePieced.ShrinksToFree ⟨0, 184319⟩ := by
  have hpass : twicePieced.shrinkToAvoidAlreadyRequested ⟨0,184319⟩=(false, ⟨0,16383⟩) := by
    decide
  have hfree : 40000∉union twicePieced.takenRanges := by
    simp [takenRanges,twicePieced,corruptedDownload,mem_union]
  refine ⟨hpass,hfree,fun h => hfree (h.2 ?_ 40000 (by decide) (by decide))⟩
  rw [hpass]

end PartFile

open Math Math.Interval Utils

inductive EndPhase
  | Normal | Late | Endgame
  deriving DecidableEq

def ENDGAME_BLOCK_THRESHOLD : Nat := 3
def kStalledBlockMs : Nat := 15000
def kSlowSourceFactor : Nat := 5
def kSlowReservationSecs : Nat := 10
def kMinSlowReservation : Nat := 16 * 1024

/-- `endPhase` of a file that lacks `left` bytes. -/
def endPhase (size left datarate : Nat) : EndPhase :=
  if size = 0 ∨ left = 0 then .Normal
  else if left ≤ ENDGAME_BLOCK_THRESHOLD * EMBLOCKSIZE ∨ left ≤ size / 1000 ∨
    left ≤ datarate * 30 then .Endgame
  else if left ≤ size / 10 then .Late
  else .Normal

/-- What the allocators of a file read and write. -/
structure BlockFile (Client : Type) where
  fileSize : Nat
  gapList : List Interval
  bufferedData : List Interval
  flushingData : List Interval
  requestedBlocks : List (RequestedBlock Client)
  size_le : fileSize≤MAX_EMULE_FILE_SIZE
  gaps : WellFormed fileSize gapList
  buffers : AllNonempty (bufferedData++flushingData)

/-- What they ask a client for. -/
structure Source where
  completeSource : Bool
  partStatus : List Nat
  partCount : Nat
  downDatarate : Nat
  sessionDown : Nat
  lastPartAsked : Nat
  isEMule : Bool
  clientVersion : Nat

namespace Source

def isPartAvailable (s : Source) (part : Nat) : Bool :=
  if s.completeSource ∧ s.partStatus = [] then decide (part < s.partCount)
  else s.partStatus.getD part 0 != 0

/-- `senderHasPart` -/
def hasPart (s : Source) (part : Nat) : Bool :=
  s.completeSource || s.partStatus.getD part 0 != 0

end Source

def makeClientVersion (major minor update : Nat) : Nat := ((major * 100 + minor) * 10 + update) * 100

def UINT16_MAX : Nat := 65535

structure PartCandidate where
  part : Nat
  rank : Nat
  preview : Bool
  deriving DecidableEq

/-- The rest of what a selection reads; `draw` and `shuffle` are the random number generator. -/
structure AllocEnv (Client : Type) where
  source : Client → Source
  nowTick : Nat
  datarate : Nat
  sourceCount : Nat
  a4afCount : Nat
  srcPartFrequency : List Nat
  downloadingSources : List Client
  previewPrio : Bool
  filePreviewPrio : Bool
  showExtControls : Bool
  previewNeedsLastPart : Bool
  draw : Nat → Nat
  shuffle : List PartCandidate → List PartCandidate

/-- The loop of `getNextEmptyBlockInPart`. -/
def emptyBlockIn (partStart partEnd effectiveStart : Nat) : List Interval → Option Interval
  | [] => none
  | gap::gapList =>
    if gap.start>partEnd then none
    else if gap.stop<effectiveStart then emptyBlockIn partStart partEnd effectiveStart gapList
    else
      let blockStart := max gap.start effectiveStart
      let blockLimit := partStart+((blockStart-partStart)/EMBLOCKSIZE+1)*EMBLOCKSIZE-1
      some ⟨blockStart,min (min gap.stop partEnd) blockLimit⟩

section Walk

variable {σ : Type}

/-- A loop over blocks of the file, each searched for behind the last, until `visit` has enough. -/
def walkBlocks (next : Nat → Option Interval) (size : Nat)
    (hnext : ∀ searchFrom b, next searchFrom=some b →
      searchFrom≤b.start ∧ b.start≤b.stop ∧ b.stop<size)
    (visit : σ → Interval → σ × Bool) (searchFrom : Nat) (s : σ) : σ :=
  match h : next searchFrom with
  | none => s
  | some probe =>
    if (visit s probe).2 then walkBlocks next size hnext visit (probe.stop+1) (visit s probe).1
    else (visit s probe).1
termination_by size-searchFrom
decreasing_by
  have hprobe := hnext searchFrom probe h
  omega

section Equations

variable {next : Nat → Option Interval} {size : Nat}
  {hnext : ∀ searchFrom b, next searchFrom=some b →
    searchFrom≤b.start ∧ b.start≤b.stop ∧ b.stop<size}
  {visit : σ → Interval → σ × Bool} {searchFrom : Nat} {s : σ}

end Equations

theorem walkBlocks_keeps {next : Nat → Option Interval} {size : Nat}
    (hnext : ∀ searchFrom b,next searchFrom=some b →
      searchFrom≤b.start ∧ b.start≤b.stop ∧ b.stop<size)
    {visit : σ → Interval → σ × Bool} {I : σ → Prop}
    (hvisit : ∀ searchFrom b s,next searchFrom=some b → I s → I (visit s b).1)
    (searchFrom : Nat) (s : σ) (hs : I s) :
    I (walkBlocks next size hnext visit searchFrom s) := by
  fun_induction walkBlocks next size hnext visit searchFrom s with
  | case1 => exact hs
  | case2 searchFrom s probe h _ ih => exact ih (hvisit searchFrom probe s h hs)
  | case3 searchFrom s probe h => exact hvisit searchFrom probe s h hs

end Walk

namespace BlockFile

variable {Client : Type}

def partCount (f : BlockFile Client) : Nat :=
  (f.fileSize + PARTSIZE - 1) / PARTSIZE % 2 ^ 16

def partEnd (f : BlockFile Client) (part : Nat) : Nat :=
  min (part * PARTSIZE + PARTSIZE - 1) (f.fileSize - 1)

def reserved (f : BlockFile Client) : List Interval :=
  f.requestedBlocks.map RequestedBlock.toInterval

/-- The bytes in memory and those with the disk worker. -/
def buffered (f : BlockFile Client) : List Interval := f.bufferedData ++ f.flushingData

def reserve (f : BlockFile Client) (b : RequestedBlock Client) : BlockFile Client :=
  { f with requestedBlocks := f.requestedBlocks ++ [b] }

def getNextEmptyBlockInPart (f : BlockFile Client) (partNumber searchFrom : Nat) :
    Option Interval :=
  let partStart := partNumber * PARTSIZE
  let effectiveStart := max partStart searchFrom
  if effectiveStart > f.partEnd partNumber then none
  else emptyBlockIn partStart (f.partEnd partNumber) effectiveStart f.gapList

def isAlreadyRequested (f : BlockFile Client) (start stop : Nat) : Bool :=
  f.requestedBlocks.any fun block => decide (block.start ≤ stop ∧ block.stop ≥ start)

def shrinkToAvoidAlreadyRequested (f : BlockFile Client) (r : Interval) : Bool × Interval :=
  shrinkAll (f.reserved ++ f.bufferedData ++ f.flushingData) r

section Blocks

variable {f : BlockFile Client} {part searchFrom : Nat} {b : Interval}

theorem emptyBlockIn_spec {partStart partEnd effectiveStart : Nat} {gapList : List Interval}
    (hgaps : AllNonempty gapList) (hlow : partStart≤effectiveStart)
    (hhigh : effectiveStart≤partEnd)
    (h : emptyBlockIn partStart partEnd effectiveStart gapList=some b) :
    effectiveStart≤b.start ∧ b.start≤b.stop ∧ b.stop≤partEnd ∧
      ∃ gap∈gapList, gap.start≤b.start ∧ b.stop≤gap.stop := by
  induction gapList with
  | nil => exact nomatch h
  | cons gap gapList ih =>
    obtain ⟨hgap,hrest⟩ := hgaps.of_cons
    rw [emptyBlockIn] at h
    split_ifs at h with hpast hbefore
    · obtain ⟨h1,h2,h3,g,hg,h4⟩ := ih hrest h
      exact ⟨h1,h2,h3,g,List.mem_cons_of_mem gap hg,h4⟩
    · obtain rfl := Option.some.inj h
      have hblock : max gap.start effectiveStart-partStart <
          (max gap.start effectiveStart-partStart)/EMBLOCKSIZE*EMBLOCKSIZE+EMBLOCKSIZE :=
        Nat.lt_div_mul_add EMBLOCKSIZE_pos
      refine ⟨Nat.le_max_right _ _,?_,?_,gap,List.mem_cons_self,Nat.le_max_left _ _,?_⟩
      · simp only [Nat.le_min,Nat.succ_mul]
        omega
      · exact Nat.le_trans (Nat.min_le_left _ _) (Nat.min_le_right _ _)
      · exact Nat.le_trans (Nat.min_le_left _ _) (Nat.min_le_left _ _)

/-- A run of bytes of one part inside one gap. -/
structure InPartGap (f : BlockFile Client) (b : Interval) : Prop where
  nonempty : b.start≤b.stop
  onePart : b.stop/PARTSIZE=b.start/PARTSIZE
  inGap : ∃ gap∈f.gapList, gap.start≤b.start ∧ b.stop≤gap.stop

theorem InPartGap.sub (h : InPartGap f b) {c : Interval} (hlow : b.start≤c.start)
    (hne : c.start≤c.stop) (hhigh : c.stop≤b.stop) : InPartGap f c := by
  obtain ⟨gap,hgap,hg1,hg2⟩ := h.inGap
  refine ⟨hne,?_,gap,hgap,Nat.le_trans hg1 hlow,Nat.le_trans hhigh hg2⟩
  have h1 : c.stop/PARTSIZE≤b.stop/PARTSIZE := Nat.div_le_div_right hhigh
  have h2 : b.start/PARTSIZE≤c.start/PARTSIZE := Nat.div_le_div_right hlow
  have h3 : c.start/PARTSIZE≤c.stop/PARTSIZE := Nat.div_le_div_right hne
  have h4 := h.onePart
  omega

theorem InPartGap.lt_fileSize (h : InPartGap f b) : b.stop<f.fileSize := by
  obtain ⟨gap,hgap,-,hg2⟩ := h.inGap
  exact Nat.lt_of_le_of_lt hg2 (f.gaps.inside gap hgap).2

/-- A block the search found at or behind `searchFrom`. -/
structure FoundFrom (f : BlockFile Client) (searchFrom : Nat) (b : Interval) : Prop where
  behind : searchFrom≤b.start
  inPartGap : InPartGap f b

theorem FoundFrom.found (h : FoundFrom f searchFrom b) :
    searchFrom≤b.start ∧ b.start≤b.stop ∧ b.stop<f.fileSize :=
  ⟨h.behind,h.inPartGap.nonempty,h.inPartGap.lt_fileSize⟩

theorem getNextEmptyBlockInPart_spec (h : f.getNextEmptyBlockInPart part searchFrom=some b) :
    FoundFrom f searchFrom b := by
  rw [getNextEmptyBlockInPart] at h
  split_ifs at h with hpast
  obtain ⟨h1,h2,h3,hgap⟩ := emptyBlockIn_spec (fun g hg => (f.gaps.inside g hg).1)
    (Nat.le_max_left _ _) (Nat.le_of_not_lt hpast) h
  have hpart : part*PARTSIZE≤b.start := Nat.le_trans (Nat.le_max_left _ _) h1
  have hend : b.stop≤part*PARTSIZE+PARTSIZE-1 := Nat.le_trans h3 (Nat.min_le_left _ _)
  have hpos := PARTSIZE_pos
  have hstart : b.start/PARTSIZE=part := (Nat.div_eq_iff hpos).mpr (by omega)
  have hstop : b.stop/PARTSIZE=part := (Nat.div_eq_iff hpos).mpr (by omega)
  exact ⟨Nat.le_trans (Nat.le_max_right _ _) h1,h2,hstop.trans hstart.symm,hgap⟩

end Blocks

section Selection

variable [DecidableEq Client] (f : BlockFile Client) (env : AllocEnv Client) (sender : Client)

/-- The scan of `maySecondSourceTake`: `none` when a second reservation meets the range or the sender
holds one, else the one that does. -/
def heldBy (r : Interval) (held : Option (RequestedBlock Client)) :
    List (RequestedBlock Client) → Option (Option (RequestedBlock Client))
  | [] => some held
  | block::blocks =>
    if block.start>r.stop ∨ block.stop<r.start then heldBy r held blocks
    else if held≠none ∨ block.holder=some sender then none
    else heldBy r (some block) blocks

def maySecondSourceTake (r : Interval) (phase : EndPhase) : Bool :=
  match heldBy sender r none f.requestedBlocks with
  | none => false
  | some none => false
  | some (some held) =>
    match held.holder with
    | none => false
    | some holder =>
      if !held.requested ∧ (env.source holder).sessionDown = 0 then true
      else if (env.nowTick + 2 ^ 64 - held.lastProgressTick) % 2 ^ 64 ≥ kStalledBlockMs then true
      else
        decide (phase = .Endgame ∧ (env.source sender).downDatarate > 0 ∧
          (env.source sender).downDatarate ≥ (env.source holder).downDatarate * kSlowSourceFactor)

/-- One turn of `nextFreeBlock`: a found block ends the search. -/
def tryBlock (phase : EndPhase) (_ : Option Interval) (probe : Interval) :
    Option Interval × Bool :=
  match f.shrinkToAvoidAlreadyRequested probe with
  | (true, r) => (some r, false)
  | (false, _) =>
    if phase ≠ .Normal ∧ f.maySecondSourceTake env sender probe phase=true then
      (some probe, false)
    else (none, true)

/-- `nextFreeBlock`; the search goes on behind the block returned. -/
def nextFreeBlock (phase : EndPhase) (partNum searchFrom : Nat) : Option Interval :=
  walkBlocks (f.getNextEmptyBlockInPart partNum) f.fileSize
    (fun _ _ h => (getNextEmptyBlockInPart_spec h).found)
    (f.tryBlock env sender phase) searchFrom none

def slowReservation (phase : EndPhase) (partNum : Nat) : Nat :=
  if phase = .Normal then 0
  else
    let fastest := env.downloadingSources.foldl
      (fun fastest other =>
        if other ≠ sender ∧ ((env.source other).completeSource ∨
          (env.source other).isPartAvailable partNum) then
          max fastest (env.source other).downDatarate
        else fastest) 0
    let mine := (env.source sender).downDatarate
    if fastest = 0 ∨ mine * kSlowSourceFactor > fastest then 0
    else if mine = 0 then EMBLOCKSIZE
    else max (mine * kSlowReservationSecs) kMinSlowReservation

/-- A selection on its way: the blocks found so far and how many are wanted. -/
structure Round (Client : Type) where
  file : BlockFile Client
  newblocks : List (RequestedBlock Client)
  count : Nat

def Round.push (a : Round Client) (b : RequestedBlock Client) : Round Client :=
  { a with file := a.file.reserve b, newblocks := a.newblocks ++ [b] }

/-- The loop of `allocateFromPart`; `left` is how many blocks are still wanted. -/
def allocateLoop (phase : EndPhase) (partNum limit : Nat) :
    Nat → Nat → Round Client → Round Client
  | 0, _, a => a
  | left+1, searchFrom, a =>
    match a.file.nextFreeBlock env sender phase partNum searchFrom with
    | none => a
    | some r =>
      let stop := if limit>0 ∧ r.stop-r.start+1>limit then r.start+limit-1 else r.stop
      let a := a.push ⟨⟨r.start,stop⟩,some sender,env.nowTick,false⟩
      if limit>0 then { a with count := a.newblocks.length }
      else allocateLoop phase partNum limit left (r.stop+1) a

def allocateFromPart (phase : EndPhase) (partNum : Nat) (a : Round Client) : Round Client :=
  allocateLoop env sender phase partNum (slowReservation env sender phase partNum)
    (a.count - a.newblocks.length) 0 a

def isPreviewPart (p : Nat) : Bool :=
  decide ((env.previewPrio ∨ (env.filePreviewPrio ∧ env.showExtControls)) ∧
    f.fileSize > 2 * PARTSIZE ∧ env.previewNeedsLastPart) &&
  decide (p = 0 ∨ p + 1 = f.partCount ∨
    (p + 2 = f.partCount ∧
      f.fileSize - (min (p * PARTSIZE + PARTSIZE) f.fileSize - 1) < PARTSIZE / 3))

/-- The ranking of one part; `lastPartAsked` is what the sender holds by then. -/
def rankPart (lastPartAsked p : Nat) : PartCandidate :=
  let veryRareBound := max ((env.sourceCount+9)/10) 3%2^16
  let rareBound := 2*veryRareBound%2^16
  let almostRareBound := 4*veryRareBound%2^16
  let a4afHeavy := decide (env.sourceCount≤env.a4afCount)
  let freq := env.srcPartFrequency.getD p 0
  let partStart := p*PARTSIZE
  let partEnd := min (partStart+PARTSIZE) f.fileSize-1
  let critPreview := f.isPreviewPart env p
  let meeting := f.requestedBlocks.filter fun b =>
    !decide (b.start>partEnd ∨ b.stop<partStart)
  let critRequested := !meeting.isEmpty
  let partSize := min PARTSIZE <|
    partEnd-partStart+1-totalGapSizeInRange partStart (f.partEnd p) f.gapList +
      (meeting.map fun b => min b.stop partEnd-max b.start partStart+1).sum
  let critCompletion := min ((partSize*100+PARTSIZE-1)/PARTSIZE) 100
  let sameChunk := decide (p=lastPartAsked)
  let having := env.downloadingSources.filter fun c => (env.source c).isPartAvailable p
  let crowd := env.downloadingSources.length%2^16
  let transferringClientsScore := if crowd>1 then crowd-having.length else crowd
  let totalRate := 1+(having.map fun c => (env.source c).downDatarate+500).sum
  let bandwidthScore := if crowd>1 then min ((PARTSIZE-partSize)/(totalRate*5)) 2000 else 2000
  let rank :=
    if critPreview then
      (if critRequested ∧ !sameChunk then 20000 else 10000)+(100-critCompletion)
    else if partSize>0 ∧ a4afHeavy then
      freq+200+(!critRequested).toNat+(100-critCompletion)+(!sameChunk).toNat +
        bandwidthScore
    else if freq≤veryRareBound then
      75*freq+(!critRequested).toNat+(if critRequested then 3000 else 3001) +
        (100-critCompletion)+(!sameChunk).toNat+transferringClientsScore
    else if freq≤rareBound then
      25*freq+(if critRequested then 10101 else 10102)+(100-critCompletion) +
        (!sameChunk).toNat+transferringClientsScore
    else if freq≤almostRareBound then
      freq+(if critRequested then 20101 else 20201+almostRareBound-rareBound) +
        (if partSize>0 then 0 else 500)+5*(100-critCompletion) +
        (if sameChunk then 0 else env.draw p)+bandwidthScore
    else
      (if critRequested then 30000 else 30001)+(100-critCompletion)+(!sameChunk).toNat +
        bandwidthScore
  ⟨p,rank,critPreview⟩

/-- Preview parts first, then the lower rank. -/
def candidateLe (a b : PartCandidate) : Bool :=
  decide ((!a.preview).toNat<(!b.preview).toNat ∨
    ((!a.preview).toNat=(!b.preview).toNat ∧ a.rank≤b.rank))

/-- The loop over the ranked candidates, with the part the sender continues with. -/
def allocateRanked (phase : EndPhase) :
    List PartCandidate → Round Client × Nat → Round Client × Nat
  | [], a => a
  | cand::rest, (a, lastPartAsked) =>
    if a.newblocks.length≥a.count then (a, lastPartAsked)
    else
      let next := allocateFromPart env sender phase cand.part a
      allocateRanked phase rest
        (next, if next.newblocks.length>a.newblocks.length then cand.part%2^16
          else lastPartAsked)

/-- `getNextRequestedBlock`: the blocks found and the part the sender is to continue with. -/
def getNextRequestedBlock (count : Nat) : Round Client × Nat :=
  let s := env.source sender
  let start : Round Client := ⟨f, [], count⟩
  if count = 0 ∨ (s.partStatus = [] ∧ !s.completeSource) then (start, s.lastPartAsked)
  else
    let pc := f.partCount
    let phase := endPhase f.fileSize (totalGapSize f.gapList) env.datarate
    let continued :=
      if s.lastPartAsked ≠ UINT16_MAX ∧
        (!s.isEMule ∨ s.clientVersion < makeClientVersion 0 43 1) then UINT16_MAX
      else s.lastPartAsked
    let openPreview := (List.range pc).any fun p =>
      f.isPreviewPart env p && s.hasPart p && (f.nextFreeBlock env sender phase p 0).isSome
    let lastPart :=
      if continued < pc ∧ !f.isPreviewPart env continued ∧ openPreview then UINT16_MAX else continued
    let a :=
      if lastPart < pc ∧ s.hasPart lastPart then allocateFromPart env sender phase lastPart start
      else start
    if lastPart < pc ∧ s.hasPart lastPart ∧ a.newblocks.length ≥ a.count then (a, s.lastPartAsked)
    else
      let lastPartAsked := if lastPart ≠ UINT16_MAX then UINT16_MAX else s.lastPartAsked
      let parts := (List.range pc).filter fun p =>
        p != lastPart && s.hasPart p && (a.file.nextFreeBlock env sender phase p 0).isSome
      let candidates :=
        (env.shuffle (parts.map (a.file.rankPart env lastPartAsked))).mergeSort candidateLe
      allocateRanked env sender phase candidates (a, lastPartAsked)

/-- One turn of `reservePartForExternalTransfer`. -/
def reserveBlock (a : BlockFile Client × List (RequestedBlock Client)) (r : Interval) :
    (BlockFile Client × List (RequestedBlock Client)) × Bool :=
  if a.1.isAlreadyRequested r.start r.stop then (a, true)
  else ((a.1.reserve ⟨r,none,0,false⟩, a.2++[⟨r,none,0,false⟩]), true)

def reservePartForExternalTransfer (partNumber : Nat) :
    BlockFile Client × List (RequestedBlock Client) :=
  if partNumber ≥ f.partCount ∨
    isCompleteRange (partNumber * PARTSIZE) (f.partEnd partNumber) f.gapList then (f, [])
  else
    walkBlocks (f.getNextEmptyBlockInPart partNumber) f.fileSize
      (fun _ _ h => (getNextEmptyBlockInPart_spec h).found) reserveBlock 0 (f, [])

/-- `removeBlockFromList` by range: the first reservation of exactly these bytes. -/
def removeBlockFromList (start stop : Nat) : BlockFile Client :=
  { f with
    requestedBlocks := f.requestedBlocks.eraseP fun b => decide (b.start = start ∧ b.stop = stop) }

def releaseReservedBlocks (blocks : List (RequestedBlock Client)) : BlockFile Client :=
  blocks.foldl (fun f b => f.removeBlockFromList b.start b.stop) f

end Selection

end BlockFile

end EmuleQt.Files
