import EmuleQt.Net.Address
import EmuleQt.Utils.Opcodes
import Mathlib.Algebra.GroupWithZero.Nat
import Mathlib.Data.Prod.Lex
import Mathlib.Order.Interval.Finset.Nat

namespace EmuleQt.Client

open Net Utils

inductive BlockRecordStatus
  | None | Verified | Corrupted
  deriving DecidableEq

/-- A block received from one sender; positions count from the start of the part. -/
structure BlockRecord where
  startPos : Nat
  endPos : Nat
  sender : Address
  status : BlockRecordStatus
  deriving DecidableEq

namespace BlockRecord

def canMerge (rec : BlockRecord) (start stop : Nat) (ip : Address) (s : BlockRecordStatus) : Bool :=
  decide (rec.sender = ip ∧ rec.status = s ∧ (start = rec.endPos + 1 ∨ stop + 1 = rec.startPos))

def merge (rec : BlockRecord) (start stop : Nat) (ip : Address) (s : BlockRecordStatus) :
    BlockRecord :=
  if rec.sender ≠ ip ∨ rec.status ≠ s then rec
  else if start = rec.endPos + 1 then { rec with endPos := stop }
  else if stop + 1 = rec.startPos then { rec with startPos := start }
  else rec

end BlockRecord

/-- What the overlap loop of `transferredData` leaves: the records, where to merge, and the
range and sender still to be entered. -/
structure Overlap where
  records : List BlockRecord
  posMerge : Option Nat
  relStart : Nat
  relEnd : Nat
  sender : Address
  deriving DecidableEq

/-- The loop over the records: `done` are those before index `i`. -/
def overlapLoop (relStart relEnd : Nat) (sender : Address) :
    (posMerge : Option Nat) → (done todo : List BlockRecord) → Overlap
  | posMerge, done, [] => ⟨done,posMerge,relStart,relEnd,sender⟩
  | posMerge, done, rec::todo =>
    if rec.canMerge relStart relEnd sender .None then
      overlapLoop relStart relEnd sender (some done.length) (done++[rec]) todo
    else if rec.status = .None then
      if relStart≤rec.startPos ∧ rec.endPos≤relEnd then
        -- old one is included in the new one: erase
        overlapLoop relStart relEnd sender posMerge done todo
      else if rec.startPos<relStart ∧ relEnd<rec.endPos then
        if sender ≠ rec.sender then
          -- split into 3 blocks and leave the loop; the last one is still to be entered
          ⟨done ++ { rec with startPos := relStart, endPos := relEnd, sender := sender } :: todo ++
              [⟨rec.startPos,relStart-1,rec.sender,.None⟩],
            posMerge,relEnd+1,rec.endPos,rec.sender⟩
        else overlapLoop relStart relEnd sender posMerge (done++[rec]) todo
      else if relStart≤rec.startPos ∧ rec.startPos≤relEnd then
        overlapLoop relStart relEnd sender posMerge
          (done++[{ rec with startPos := relEnd+1 }]) todo
      else if relStart≤rec.endPos ∧ rec.endPos≤relEnd then
        overlapLoop relStart relEnd sender posMerge
          (done++[{ rec with endPos := relStart-1 }]) todo
      else overlapLoop relStart relEnd sender posMerge (done++[rec]) todo
    else overlapLoop relStart relEnd sender posMerge (done++[rec]) todo

/-- `transferredData` inside one part. -/
def transferInPart (relStart relEnd : Nat) (sender : Address) (partRecords : List BlockRecord) :
    List BlockRecord :=
  let o := overlapLoop relStart relEnd sender none [] partRecords
  match o.posMerge with
  | some i => o.records.modify i fun rec => rec.merge o.relStart o.relEnd o.sender .None
  | none => o.records++[⟨o.relStart,o.relEnd,o.sender,.None⟩]

/-- How a record is cut where it meets a range: itself inside the range, and the pieces
outside it that go to the end of the vector; `none` when it misses the range. -/
def cutRecord (relStart relEnd : Nat) (rec : BlockRecord) :
    Option (BlockRecord × List BlockRecord) :=
  if relStart≤rec.startPos ∧ rec.endPos≤relEnd then some (rec, [])
  else if rec.startPos<relStart ∧ relEnd<rec.endPos then
    some ({ rec with startPos := relStart, endPos := relEnd },
      [{ rec with startPos := relEnd+1 },{ rec with endPos := relStart-1 }])
  else if relStart≤rec.startPos ∧ rec.startPos≤relEnd then
    some ({ rec with endPos := relEnd }, [{ rec with startPos := relEnd+1 }])
  else if relStart≤rec.endPos ∧ rec.endPos≤relEnd then
    some ({ rec with startPos := relStart }, [{ rec with endPos := relStart-1 }])
  else none

/-- A record that meets the range is cut into three pieces at most. -/
def cutWeight (relStart relEnd : Nat) (rec : BlockRecord) : Nat :=
  if (cutRecord relStart relEnd rec).isSome then 3 else 1

theorem cutWeight_pos (relStart relEnd : Nat) (rec : BlockRecord) :
    0<cutWeight relStart relEnd rec := by
  unfold cutWeight
  split_ifs <;> omega

theorem cutRecord_pieces {relStart relEnd : Nat} (h : relStart≤relEnd) {rec cut : BlockRecord}
    {pieces : List BlockRecord} (hcut : cutRecord relStart relEnd rec=some (cut, pieces)) :
    ∀ piece∈pieces,cutRecord relStart relEnd piece=none := by
  unfold cutRecord at hcut
  split_ifs at hcut with h1 h2 h3 h4
  all_goals
    obtain ⟨-,rfl⟩ := hcut
    intro piece hp
    simp only [List.mem_cons,List.not_mem_nil,or_false] at hp
  · rcases hp with rfl | rfl <;> simp only [cutRecord] <;> split_ifs <;> first | rfl | omega
  · subst hp
    simp only [cutRecord]
    split_ifs <;> first | rfl | omega
  · subst hp
    simp only [cutRecord]
    split_ifs <;> first | rfl | omega

theorem cutRecord_weight {relStart relEnd : Nat} (h : relStart≤relEnd) {rec cut : BlockRecord}
    {pieces : List BlockRecord} (hcut : cutRecord relStart relEnd rec=some (cut, pieces)) :
    (pieces.map (cutWeight relStart relEnd)).sum<cutWeight relStart relEnd rec := by
  have hone : pieces.map (cutWeight relStart relEnd)=pieces.map fun _ => 1 := by
    refine List.map_congr_left fun piece hp => ?_
    simp [cutWeight,cutRecord_pieces h hcut piece hp]
  have hlen : pieces.length≤2 := by
    unfold cutRecord at hcut
    split_ifs at hcut
    all_goals
      obtain ⟨-,rfl⟩ := hcut
      simp
  have hrec : cutWeight relStart relEnd rec=3 := by simp [cutWeight,hcut]
  rw [hone,hrec,List.map_const',List.sum_replicate_nat]
  omega

/-- A range of bytes, both ends included. -/
structure ByteRange where
  start : Nat
  stop : Nat
  le : start ≤ stop

/-- The loops of `verifiedData` and `corruptedData`: `done` are the records before index `i`,
and the pieces cut off are walked too. -/
def flipLoop (r : ByteRange) (flips : BlockRecordStatus → Bool) (status : BlockRecordStatus) :
    (done todo : List BlockRecord) → List BlockRecord
  | done, [] => done
  | done, rec::todo =>
    if flips rec.status then
      match h : cutRecord r.start r.stop rec with
      | none => flipLoop r flips status (done++[rec]) todo
      | some (cut, pieces) =>
        flipLoop r flips status (done++[{ cut with status }]) (todo++pieces)
    else flipLoop r flips status (done++[rec]) todo
termination_by _ todo => (todo.map (cutWeight r.start r.stop)).sum
decreasing_by
  · simpa using cutWeight_pos r.start r.stop rec
  · have hw := cutRecord_weight r.le h
    simp only [List.map_append,List.sum_append,List.map_cons,List.sum_cons]
    omega
  · simpa using cutWeight_pos r.start r.stop rec

/-- `nPart * PARTSIZE` of the part a position lies in. -/
def partBase (pos : Nat) : Nat := pos / PARTSIZE * PARTSIZE

theorem partBase_le (pos : Nat) : partBase pos≤pos := Nat.div_mul_le_self pos PARTSIZE

theorem lt_nextPart (pos : Nat) : pos<partBase pos+PARTSIZE :=
  Nat.lt_div_mul_add PARTSIZE_pos

/-- One record list for each part of the file. -/
structure CorruptionBlackBox where
  records : List (List BlockRecord)
  deriving DecidableEq

namespace CorruptionBlackBox

/-- `init` of a fresh black box. -/
def init (fileSize : Nat) : CorruptionBlackBox :=
  ⟨List.replicate ((fileSize + PARTSIZE - 1) / PARTSIZE) []⟩

/-- Work on the records of the part a position lies in, if the file has that part. -/
def modifyPart (box : CorruptionBlackBox) (pos : Nat)
    (f : List BlockRecord → List BlockRecord) : CorruptionBlackBox :=
  ⟨box.records.modify (pos/PARTSIZE) f⟩

def transferredData (box : CorruptionBlackBox) (startPos endPos : Nat) (sender : Address) :
    CorruptionBlackBox :=
  if endPos - startPos ≥ PARTSIZE ∨ startPos > endPos then box
  else if _h : endPos - partBase startPos ≥ PARTSIZE then
    -- data crosses the part boundary
    (box.transferredData (partBase startPos + PARTSIZE) endPos sender).modifyPart startPos
      (transferInPart (startPos - partBase startPos) (PARTSIZE - 1) sender)
  else
    box.modifyPart startPos
      (transferInPart (startPos - partBase startPos) (endPos - partBase startPos) sender)
termination_by endPos - startPos
decreasing_by
  have hnext := lt_nextPart startPos
  have hpos := PARTSIZE_pos
  omega

def flipData (box : CorruptionBlackBox) (r : ByteRange) (flips : BlockRecordStatus → Bool)
    (status : BlockRecordStatus) : CorruptionBlackBox :=
  if r.stop-partBase r.start≥PARTSIZE then box
  else
    box.modifyPart r.start (flipLoop ⟨r.start-partBase r.start,r.stop-partBase r.start,
      Nat.sub_le_sub_right r.le _⟩ flips status [])

def verifiedData (box : CorruptionBlackBox) (r : ByteRange) : CorruptionBlackBox :=
  if r.stop ≥ r.start + PARTSIZE then box
  else box.flipData r (fun s => s = .None || s = .Verified) .Verified

def corruptedData (box : CorruptionBlackBox) (r : ByteRange) : CorruptionBlackBox :=
  if r.stop - r.start ≥ EMBLOCKSIZE then box
  else box.flipData r (fun s => s = .None) .Corrupted

/-- `ranges` sorted as pairs; each next one has to start inside or right behind the reach. -/
def coverReach : (reach : Nat) → List (Nat × Nat) → Option Nat
  | reach, [] => some reach
  | reach, (first, second)::ranges =>
    if first>reach+1 then none else coverReach (max reach second) ranges

def sortRanges (ranges : List (Nat × Nat)) : List (Nat × Nat) :=
  ranges.insertionSort fun a b => a.1<b.1 ∨ a.1=b.1 ∧ a.2≤b.2

def soleSenderOfWholePart (box : CorruptionBlackBox) (part partLength : Nat) : Address :=
  match box.records[part]? with
  | none => .none
  | some [] => .none
  | some (rec :: rest) =>
    if partLength = 0 ∨ rec.sender.isNull = true then .none
    else if (rec :: rest).any fun r => r.sender ≠ rec.sender then .none
    else
      match sortRanges ((rec :: rest).map fun r => (r.startPos, r.endPos)) with
      | [] => .none
      | (first, second) :: ranges =>
        if first ≠ 0 then .none
        else
          match coverReach second ranges with
          | none => .none
          | some reach => if reach + 1 ≥ partLength then rec.sender else .none

end CorruptionBlackBox

/-- The calls the download makes on a black box. -/
inductive BoxCall
  | transferred (startPos endPos : Nat) (sender : Address)
  | verified (r : ByteRange)
  | corrupted (r : ByteRange)

def CorruptionBlackBox.call (box : CorruptionBlackBox) : BoxCall → CorruptionBlackBox
  | .transferred startPos endPos sender => box.transferredData startPos endPos sender
  | .verified r => box.verifiedData r
  | .corrupted r => box.corruptedData r

example : (((CorruptionBlackBox.init 1000).transferredData 0 99 (.ipv4 1)).transferredData 40 59
    (.ipv4 2)).records =
      [[⟨40,59,.ipv4 2,.None⟩,⟨0,39,.ipv4 1,.None⟩,⟨60,99,.ipv4 1,.None⟩]] := by
  decide +kernel

end EmuleQt.Client
