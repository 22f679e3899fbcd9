import EmuleQt.Client.RecordCover
import EmuleQt.Framework.Run

namespace EmuleQt.Client

open Framework Net Utils

/-- What the black box stands for: the one sender each byte is pending for, and how often the
byte was settled for a sender. -/
structure Account where
  pending : Nat → Option Address
  settled : Nat → Address → BlockRecordStatus → Nat

namespace Account

def empty : Account := ⟨fun _ => none, fun _ _ _ => 0⟩

/-- The bytes of a delivery go to its sender; one longer than a part is refused. -/
def deliverTo (parts : Nat) (owner : Nat → Option Address) (startPos endPos : Nat)
    (sender : Address) : Nat → Option Address :=
  if endPos-startPos≥PARTSIZE ∨ startPos>endPos then owner
  else fun b =>
    if startPos≤b ∧ b≤endPos ∧ b/PARTSIZE<parts then some sender else owner b

def deliver (parts : Nat) (a : Account) (startPos endPos : Nat) (sender : Address) : Account :=
  { a with pending := deliverTo parts a.pending startPos endPos sender }

def settle (a : Account) (r : ByteRange) (status : BlockRecordStatus) : Account where
  pending b := if r.start ≤ b ∧ b ≤ r.stop then none else a.pending b
  settled b sender st := a.settled b sender st +
    if (r.start ≤ b ∧ b ≤ r.stop) ∧ st = status ∧ a.pending b = some sender then 1 else 0

/-- Ranges over a part's end are refused, as are blocks over EMBLOCKSIZE for a corruption. -/
def call (parts : Nat) (a : Account) : BoxCall → Account
  | .transferred startPos endPos sender => a.deliver parts startPos endPos sender
  | .verified r =>
    if r.stop / PARTSIZE = r.start / PARTSIZE then a.settle r .Verified else a
  | .corrupted r =>
    if r.stop / PARTSIZE = r.start / PARTSIZE ∧ r.stop - r.start < EMBLOCKSIZE then
      a.settle r .Corrupted
    else a

end Account

namespace CorruptionBlackBox

def partRecords (box : CorruptionBlackBox) (part : Nat) : List BlockRecord :=
  box.records[part]?.getD []

/-- How many records speak for a byte of the file. -/
def heldAt (box : CorruptionBlackBox) (p : Address → Bool) (st : BlockRecordStatus) (b : Nat) :
    Nat :=
  held p st (b%PARTSIZE) (box.partRecords (b/PARTSIZE))

def InParts (box : CorruptionBlackBox) : Prop :=
  ∀ part, ∀ rec∈box.partRecords part, rec.InPart

/-- The box is an account's: same parts, well-formed records, each byte held as booked. -/
structure Refines (parts : Nat) (box : CorruptionBlackBox) (a : Account) : Prop where
  parts_eq : box.records.length = parts
  inParts : box.InParts
  pending : ∀ p b, box.heldAt p .None b =
    match a.pending b with
    | none => 0
    | some sender => if p sender = true then 1 else 0
  settled : ∀ b sender st, st ≠ .None →
    box.heldAt (fun s => s = sender) st b = a.settled b sender st

theorem partRecords_modifyPart (box : CorruptionBlackBox) (pos : Nat)
    (f : List BlockRecord → List BlockRecord) (part : Nat) :
    (box.modifyPart pos f).partRecords part =
      if part=pos/PARTSIZE ∧ part<box.records.length then f (box.partRecords part)
      else box.partRecords part := by
  rw [partRecords,modifyPart,List.getElem?_modify,partRecords]
  by_cases hlen : part<box.records.length
  · rw [List.getElem?_eq_getElem hlen]
    by_cases hpart : pos/PARTSIZE=part
    · simp [hpart,hlen]
    · simp [hpart,Ne.symm hpart]
  · rw [List.getElem?_eq_none (Nat.not_lt.mp hlen)]
    simp [hlen]

@[simp] theorem modifyPart_length (box : CorruptionBlackBox) (pos : Nat)
    (f : List BlockRecord → List BlockRecord) :
    (box.modifyPart pos f).records.length=box.records.length := by
  simp [modifyPart]

theorem div_eq_part {start b : Nat} (h1 : partBase start≤b) (h2 : b<partBase start+PARTSIZE) :
    b/PARTSIZE=start/PARTSIZE :=
  Nat.div_eq_of_lt_le h1 (by rw [Nat.succ_mul]; exact h2)

theorem mem_part_iff {start stop : Nat} (hle : start ≤ stop)
    (hstop : stop<partBase start+PARTSIZE) (b : Nat) :
    start≤b ∧ b ≤ stop ↔
      b/PARTSIZE=start/PARTSIZE ∧ start-partBase start≤b%PARTSIZE ∧
        b%PARTSIZE ≤ stop-partBase start := by
  have hb : partBase b+b%PARTSIZE=b := Nat.div_add_mod' b PARTSIZE
  have hstart := partBase_le start
  constructor
  · rintro ⟨h1,h2⟩
    have hpart := div_eq_part (Nat.le_trans hstart h1) (Nat.lt_of_le_of_lt h2 hstop)
    have hbase : partBase b=partBase start := congrArg (· * PARTSIZE) hpart
    exact ⟨hpart,by omega,by omega⟩
  · rintro ⟨hpart,h1,h2⟩
    have hbase : partBase b=partBase start := congrArg (· * PARTSIZE) hpart
    omega

variable {box : CorruptionBlackBox} {startPos endPos parts : Nat} {sender : Address} {a : Account}

theorem pendingOnce_of_heldAt (hin : box.InParts) (h : ∀ b,box.heldAt (fun _ => true) .None b≤1)
    (part : Nat) :
    PendingOnce (box.partRecords part) := by
  intro b
  by_cases hb : b<PARTSIZE
  · have hpart : (part*PARTSIZE+b)/PARTSIZE=part := by
      rw [Nat.add_comm,Nat.add_mul_div_right b part PARTSIZE_pos,Nat.div_eq_of_lt hb,
        Nat.zero_add]
    have hmod : (part*PARTSIZE+b)%PARTSIZE=b := by
      rw [Nat.add_comm,Nat.add_mul_mod_self_right,Nat.mod_eq_of_lt hb]
    have hone := h (part*PARTSIZE+b)
    rwa [heldAt,hpart,hmod] at hone
  · have hzero : held (fun _ => true) .None b (box.partRecords part)=0 := by
      refine held_eq_zero.mpr fun rec hrec hh => ?_
      have hlt := (hin part rec hrec).2
      have hle := hh.2.2.2
      omega
    omega

/-- What delivering a range does to the whole box. -/
structure Delivered (box : CorruptionBlackBox) (startPos endPos : Nat) (sender : Address)
    (box' : CorruptionBlackBox) : Prop where
  length : box'.records.length = box.records.length
  inParts : box'.InParts
  held : ∀ p st b, box'.heldAt p st b =
    if st = .None ∧ (startPos ≤ b ∧ b ≤ endPos) ∧ b / PARTSIZE < box.records.length then
      (if p sender = true then 1 else 0)
    else box.heldAt p st b

/-- A pending record of the sender that reaches over both ends of what it delivers now. -/
def OwnRecordAround (box : CorruptionBlackBox) (startPos endPos : Nat) (sender : Address) : Prop :=
  ∃ part<box.records.length, ∃ rec∈box.partRecords part,
    rec.status = .None ∧ rec.sender=sender ∧
      part*PARTSIZE+rec.startPos<startPos ∧ endPos<part*PARTSIZE+rec.endPos

instance (box : CorruptionBlackBox) (startPos endPos : Nat) (sender : Address) :
    Decidable (box.OwnRecordAround startPos endPos sender) := by
  unfold OwnRecordAround
  infer_instance

theorem modifyPart_delivered
    (hle : startPos≤endPos) (hend : endPos<partBase startPos+PARTSIZE) (hin : box.InParts)
    (honce : ∀ part,PendingOnce (box.partRecords part))
    (hown : ∀ rec∈box.partRecords (startPos/PARTSIZE),
      rec.Straddles (startPos-partBase startPos) (endPos-partBase startPos) →
        rec.sender≠sender) :
    Delivered box startPos endPos sender (box.modifyPart startPos
      (transferInPart (startPos-partBase startPos) (endPos-partBase startPos) sender)) := by
  have hstart := partBase_le startPos
  have hentered := transferInPart_entered (Nat.sub_le_sub_right hle (partBase startPos))
    (by omega) (hin _) (honce _) hown
  refine ⟨modifyPart_length box startPos _,?_,?_⟩
  · intro part rec hrec
    rw [partRecords_modifyPart] at hrec
    split_ifs at hrec with hc
    · exact hentered.inPart rec (hc.1 ▸ hrec)
    · exact hin part rec hrec
  · intro p st b
    rw [heldAt,partRecords_modifyPart,heldAt]
    simp only [mem_part_iff hle hend]
    by_cases hc : b/PARTSIZE=startPos/PARTSIZE ∧ b/PARTSIZE<box.records.length
    · rw [if_pos hc,hc.1,hentered.held]
      have hiff : (st = .None ∧ startPos-partBase startPos≤b%PARTSIZE ∧
            b%PARTSIZE≤endPos-partBase startPos) ↔
          st = .None ∧ (startPos/PARTSIZE=startPos/PARTSIZE ∧
            startPos-partBase startPos≤b%PARTSIZE ∧
            b%PARTSIZE≤endPos-partBase startPos) ∧
            startPos/PARTSIZE<box.records.length := by
        have hlen := hc.1 ▸ hc.2
        tauto
      exact if_congr hiff rfl rfl
    · rw [if_neg hc,if_neg fun h => hc ⟨h.2.1.1,h.2.2⟩]

theorem Delivered.trans {box' box'' : CorruptionBlackBox} {s m e : Nat} (hsm : s < m) (hme : m≤e)
    (h1 : Delivered box m e sender box') (h2 : Delivered box' s (m-1) sender box'') :
    Delivered box s e sender box'' := by
  refine ⟨h2.length.trans h1.length,h2.inParts,fun p st b => ?_⟩
  rw [h2.held,h1.held,h1.length]
  by_cases hst : st = .None ∧ b/PARTSIZE<box.records.length
  · simp only [hst,true_and,and_true]
    split_ifs <;> first | rfl | omega
  · rw [if_neg fun h => hst ⟨h.1,h.2.2⟩,if_neg fun h => hst ⟨h.1,h.2.2⟩,
      if_neg fun h => hst ⟨h.1,h.2.2⟩]

theorem Delivered.once {box' : CorruptionBlackBox} {s e : Nat} (h : Delivered box s e sender box')
    (honce : ∀ b,box.heldAt (fun _ => true) .None b≤1) (b : Nat) :
    box'.heldAt (fun _ => true) .None b≤1 := by
  rw [h.held,if_pos rfl]
  split_ifs
  · exact Nat.le_refl 1
  · exact honce b

theorem transferredData_delivered (hsize : endPos-startPos<PARTSIZE) (hle : startPos≤endPos)
    (hin : box.InParts) (honce : ∀ b,box.heldAt (fun _ => true) .None b≤1)
    (hown : ¬box.OwnRecordAround startPos endPos sender) :
    Delivered box startPos endPos sender (box.transferredData startPos endPos sender) := by
  have inside : ∀ (box : CorruptionBlackBox) (s : Nat), box.InParts →
      (∀ b,box.heldAt (fun _ => true) .None b≤1) → endPos-s<PARTSIZE → s≤endPos →
      ¬endPos-partBase s≥PARTSIZE → ¬box.OwnRecordAround s endPos sender →
      Delivered box s endPos sender (box.transferredData s endPos sender) := by
    intro box s hin honce hsize hle hend hown
    rw [transferredData,if_neg (by omega),dif_neg hend]
    refine modifyPart_delivered hle (by omega) hin (pendingOnce_of_heldAt hin honce) ?_
    intro rec hrec hs hsender
    obtain ⟨hst,hleft,hright⟩ := hs
    have hlen : s/PARTSIZE<box.records.length := by
      by_contra hnot
      rw [partRecords,List.getElem?_eq_none (Nat.not_lt.mp hnot)] at hrec
      cases hrec
    refine hown ⟨s/PARTSIZE,hlen,rec,hrec,hst,hsender,?_,?_⟩
    · change partBase s+_ < _
      omega
    · change _ < partBase s+_
      omega
  by_cases hcross : endPos-partBase startPos≥PARTSIZE
  · have hnext := lt_nextPart startPos
    have hpos := PARTSIZE_pos
    have hsucc : partBase startPos+PARTSIZE=(startPos/PARTSIZE+1)*PARTSIZE := by
      rw [Nat.succ_mul,partBase]
    have hbase : partBase (partBase startPos+PARTSIZE)=partBase startPos+PARTSIZE := by
      rw [hsucc,partBase,Nat.mul_div_cancel _ hpos]
    -- no record reaches over the part boundary
    have hfirst : Delivered box (partBase startPos+PARTSIZE) endPos sender
        (box.transferredData (partBase startPos+PARTSIZE) endPos sender) := by
      refine inside box _ hin honce (by omega) (by omega) (by omega) ?_
      rintro ⟨part,-,rec,hrec,-,-,h1,h2⟩
      have hlt := (hin part rec hrec).2
      have hpart : part<startPos/PARTSIZE+1 := by
        refine Nat.lt_of_mul_lt_mul_right (a := PARTSIZE) ?_
        omega
      have hmul := Nat.mul_le_mul_right PARTSIZE (Nat.succ_le_of_lt hpart)
      rw [Nat.succ_mul] at hmul
      omega
    have hsecond := @modifyPart_delivered _ startPos (partBase startPos+PARTSIZE-1) sender
      (by omega) (by omega) hfirst.inParts
      (pendingOnce_of_heldAt hfirst.inParts (hfirst.once honce)) (by
        intro rec hrec hs
        have hlt := (hfirst.inParts _ rec hrec).2
        have hright := hs.2.2
        omega)
    rw [show partBase startPos+PARTSIZE-1-partBase startPos=PARTSIZE-1 by omega] at hsecond
    rw [transferredData,if_neg (by omega),dif_pos hcross]
    exact Delivered.trans hnext (by omega) hfirst hsecond
  · exact inside box startPos hin honce hsize hle hcross hown

theorem same_part_iff (r : ByteRange) :
    r.stop/PARTSIZE=r.start/PARTSIZE ↔ ¬r.stop-partBase r.start≥PARTSIZE := by
  have hle := r.le
  have hstart := partBase_le r.start
  have hstop := lt_nextPart r.stop
  constructor
  · intro h
    have hbase : partBase r.stop=partBase r.start := congrArg (· * PARTSIZE) h
    omega
  · intro h
    exact div_eq_part (by omega) (by omega)

theorem flipData_inParts (hin : box.InParts) (r : ByteRange) (flips : BlockRecordStatus → Bool)
    (status : BlockRecordStatus) :
    (box.flipData r flips status).InParts := by
  unfold flipData
  split_ifs
  · exact hin
  · intro part rec hrec
    rw [partRecords_modifyPart] at hrec
    split_ifs at hrec
    · exact flipLoop_inPart [] _ (by simp) (hin part) rec hrec
    · exact hin part rec hrec

@[simp] theorem flipData_length (box : CorruptionBlackBox) (r : ByteRange)
    (flips : BlockRecordStatus → Bool) (status : BlockRecordStatus) :
    (box.flipData r flips status).records.length=box.records.length := by
  unfold flipData
  split_ifs <;> simp

theorem flipData_heldAt (hin : box.InParts) {r : ByteRange}
    (hpart : r.stop/PARTSIZE=r.start/PARTSIZE) {flips : BlockRecordStatus → Bool}
    {status : BlockRecordStatus} (hflips : Flips flips status) (p : Address → Bool)
    (st : BlockRecordStatus) (b : Nat) :
    (box.flipData r flips status).heldAt p st b =
      if r.start≤b ∧ b≤r.stop then
        if st = .None then 0 else box.heldAt p st b+if st=status then box.heldAt p .None b else 0
      else box.heldAt p st b := by
  have hend := (same_part_iff r).mp hpart
  rw [flipData,if_neg hend,heldAt,partRecords_modifyPart]
  simp only [mem_part_iff r.le (show r.stop<partBase r.start+PARTSIZE by omega)]
  by_cases hc : b/PARTSIZE=r.start/PARTSIZE ∧ b/PARTSIZE<box.records.length
  · rw [if_pos hc,flipLoop_held hflips [] _ (hin _),held_nil,Nat.zero_add,heldFlipped]
    simp only [hc.1,true_and,heldAt]
  · rw [if_neg hc]
    by_cases hb : b/PARTSIZE=r.start/PARTSIZE
    · -- the file has no such part
      have hnone : box.partRecords (b/PARTSIZE)=[] := by
        rw [partRecords,List.getElem?_eq_none (Nat.not_lt.mp fun h => hc ⟨hb,h⟩)]
        rfl
      simp [heldAt,hnone]
    · rw [if_neg fun h => hb h.1,heldAt]

theorem Refines.once (h : Refines parts box a) (b : Nat) :
    box.heldAt (fun _ => true) .None b≤1 := by
  rw [h.pending]
  cases a.pending b <;> simp

theorem Refines.deliver (h : Refines parts box a)
    (hown : ¬box.OwnRecordAround startPos endPos sender) :
    Refines parts (box.transferredData startPos endPos sender)
      (a.deliver parts startPos endPos sender) := by
  by_cases hrefused : endPos-startPos≥PARTSIZE ∨ startPos>endPos
  · rw [transferredData,if_pos hrefused,Account.deliver,Account.deliverTo,if_pos hrefused]
    exact h
  · have hd := transferredData_delivered (by omega) (by omega) h.inParts h.once hown
    rw [Account.deliver,Account.deliverTo,if_neg hrefused]
    refine ⟨hd.length.trans h.parts_eq,hd.inParts,fun p b => ?_,fun b X st hst => ?_⟩
    · rw [hd.held,h.pending,h.parts_eq]
      by_cases hb : startPos≤b ∧ b≤endPos ∧ b/PARTSIZE<parts
      · rw [if_pos ⟨rfl,⟨hb.1,hb.2.1⟩,hb.2.2⟩]
        simp only [if_pos hb]
      · rw [if_neg fun hc => hb ⟨hc.2.1.1,hc.2.1.2,hc.2.2⟩]
        simp only [if_neg hb]
    · rw [hd.held,if_neg fun hc => hst hc.1]
      exact h.settled b X st hst

theorem Refines.settle (h : Refines parts box a) {r : ByteRange}
    (hpart : r.stop/PARTSIZE=r.start/PARTSIZE) {flips : BlockRecordStatus → Bool}
    {status : BlockRecordStatus} (hflips : Flips flips status) :
    Refines parts (box.flipData r flips status) (a.settle r status) := by
  refine ⟨(flipData_length box r flips status).trans h.parts_eq,
    flipData_inParts h.inParts r flips status,fun p b => ?_,fun b X st hst => ?_⟩
  · rw [flipData_heldAt h.inParts hpart hflips,if_pos rfl,h.pending,Account.settle]
    by_cases hb : r.start≤b ∧ b≤r.stop
    · simp only [if_pos hb]
    · simp only [if_neg hb]
  · rw [flipData_heldAt h.inParts hpart hflips,if_neg hst,h.settled b X st hst,h.pending,
      Account.settle]
    by_cases hb : r.start≤b ∧ b≤r.stop
    · by_cases hs : st=status
      · rw [if_pos hb,if_pos hs]
        cases hp : a.pending b <;> simp [hb,hs,hp]
      · simp [hb,hs]
    · simp [hb]

/-- The transferred range does not lie strictly inside a pending record of its own sender. -/
def Apart (box : CorruptionBlackBox) : BoxCall → Prop
  | .transferred startPos endPos sender => ¬box.OwnRecordAround startPos endPos sender
  | _ => True

instance (box : CorruptionBlackBox) (c : BoxCall) : Decidable (box.Apart c) := by
  cases c <;> unfold Apart <;> infer_instance

theorem Refines.call {c : BoxCall} (h : Refines parts box a) (hc : box.Apart c) :
    Refines parts (box.call c) (a.call parts c) := by
  have verified : Flips (fun s => s = .None || s = .Verified) .Verified :=
    ⟨rfl,fun st => by cases st <;> simp,by decide⟩
  have corrupted : Flips (fun s => s = .None) .Corrupted :=
    ⟨rfl,fun st => by cases st <;> simp,by decide⟩
  cases c with
  | transferred startPos endPos sender => exact h.deliver hc
  | verified r =>
    rw [CorruptionBlackBox.call,verifiedData,Account.call]
    by_cases hpart : r.stop/PARTSIZE=r.start/PARTSIZE
    · have hend := (same_part_iff r).mp hpart
      have hstart := partBase_le r.start
      rw [if_pos hpart,if_neg (by omega)]
      exact h.settle hpart verified
    · rw [if_neg hpart,flipData,if_pos (not_not.mp fun hn => hpart ((same_part_iff r).mpr hn)),
        ite_self]
      exact h
  | corrupted r =>
    rw [CorruptionBlackBox.call,corruptedData,Account.call]
    by_cases hsize : r.stop-r.start≥EMBLOCKSIZE
    · rw [if_pos hsize,if_neg fun hc => Nat.not_lt.mpr hsize hc.2]
      exact h
    rw [if_neg hsize]
    by_cases hpart : r.stop/PARTSIZE=r.start/PARTSIZE
    · rw [if_pos ⟨hpart,Nat.not_le.mp hsize⟩]
      exact h.settle hpart corrupted
    · rw [if_neg fun hc => hpart hc.1,flipData,
        if_pos (not_not.mp fun hn => hpart ((same_part_iff r).mpr hn))]
      exact h

theorem refines_init (fileSize : Nat) :
    Refines ((fileSize+PARTSIZE-1)/PARTSIZE) (init fileSize) Account.empty := by
  have hnil : ∀ part,(init fileSize).partRecords part=[] := by
    intro part
    rw [partRecords,init,List.getElem?_replicate]
    split_ifs <;> rfl
  refine ⟨by simp [init],fun part rec hrec => ?_,fun p b => ?_,fun b X st _ => ?_⟩
  · rw [hnil] at hrec
    cases hrec
  · simp [heldAt,hnil,Account.empty]
  · simp [heldAt,hnil,Account.empty]

theorem refines_run (fileSize : Nat) (calls : List BoxCall)
    (h : Along call Apart (init fileSize) calls) :
    Refines ((fileSize+PARTSIZE-1)/PARTSIZE) (run call (init fileSize) calls)
      (run (Account.call ((fileSize+PARTSIZE-1)/PARTSIZE)) Account.empty calls) :=
  run_simulation (fun _ _ _ hr hok => hr.call hok) (refines_init fileSize) h

/-- Over every run in which no sender delivers strictly inside its own pending record, the
records say byte by byte what the account says, and no byte is pending twice. -/
theorem blackBox_correct (fileSize : Nat) (calls : List BoxCall)
    (h : Along call Apart (init fileSize) calls) :
    let parts := (fileSize+PARTSIZE-1)/PARTSIZE
    let box := run call (init fileSize) calls
    Refines parts box (run (Account.call parts) Account.empty calls) ∧
      ∀ b,box.heldAt (fun _ => true) .None b≤1 :=
  ⟨refines_run fileSize calls h,(refines_run fileSize calls h).once⟩

/-- A block of another sender inside a pending one, settled in part. -/
def foreignBlock : List BoxCall :=
  [.transferred 0 99 (.ipv4 1),.transferred 40 59 (.ipv4 2),.verified ⟨0,49,by decide⟩]

theorem blackBox_correct_foreignBlock :
    Refines 1 (run call (init 1000) foreignBlock)
      (run (Account.call 1) Account.empty foreignBlock) :=
  (blackBox_correct 1000 foreignBlock (by decide +kernel)).1

/-- A block delivered again inside the sender's own pending one. -/
def ownBlockAgain : List BoxCall := [.transferred 0 99 (.ipv4 1),.transferred 10 19 (.ipv4 1)]

theorem ownBlockAgain_pending_twice :
    ¬∀ b, (run call (init 1000) ownBlockAgain).heldAt (fun _ => true) .None b ≤ 1 :=
  fun h => absurd (h 10) (by decide +kernel)

end CorruptionBlackBox

open Framework Net Utils

/-- Who delivered each byte last; a part's bytes count from the first delivery on. -/
def lastSender (parts : Nat) (last : Nat → Option Address) : BoxCall → Nat → Option Address
  | .transferred startPos endPos sender => Account.deliverTo parts last startPos endPos sender
  | .verified _ => last
  | .corrupted _ => last

namespace Account

/-- The account knows the byte under this sender. -/
def BookedFor (a : Account) (b : Nat) (sender : Address) : Prop :=
  a.pending b=some sender ∨ ∃ st, st ≠ .None ∧ 0<a.settled b sender st

/-- The last sender of a byte is booked for it, and what is booked was delivered. -/
structure Traced (a : Account) (last : Nat → Option Address) : Prop where
  booked : ∀ b sender, last b = some sender → a.BookedFor b sender
  delivered : ∀ b sender, a.BookedFor b sender → (last b).isSome = true

variable {last : Nat → Option Address}

theorem Traced.deliver {a : Account} (h : Traced a last) (parts startPos endPos : Nat)
    (sender : Address) :
    Traced (a.deliver parts startPos endPos sender)
      (deliverTo parts last startPos endPos sender) := by
  rw [Account.deliver,deliverTo,deliverTo]
  by_cases hrefused : endPos-startPos≥PARTSIZE ∨ startPos>endPos
  · rw [if_pos hrefused,if_pos hrefused]
    exact h
  rw [if_neg hrefused,if_neg hrefused]
  constructor
  · intro b X hlast
    by_cases hb : startPos≤b ∧ b≤endPos ∧ b/PARTSIZE<parts
    · simp only [if_pos hb] at hlast
      exact Or.inl (by simp only [if_pos hb,hlast])
    · simp only [if_neg hb] at hlast
      simpa only [BookedFor,if_neg hb] using h.booked b X hlast
  · intro b X hbooked
    by_cases hb : startPos≤b ∧ b≤endPos ∧ b/PARTSIZE<parts
    · simp only [if_pos hb,Option.isSome_some]
    · simp only [BookedFor,if_neg hb] at hbooked ⊢
      exact h.delivered b X hbooked

theorem Traced.settle {a : Account} (h : Traced a last) (r : ByteRange) {status : BlockRecordStatus}
    (hstatus : status ≠ .None) :
    Traced (a.settle r status) last := by
  constructor
  · intro b X hlast
    rcases h.booked b X hlast with hp | ⟨st,hst,hpos⟩
    · by_cases hb : r.start≤b ∧ b≤r.stop
      · exact Or.inr ⟨status,hstatus,by simp [Account.settle,hb,hp]⟩
      · exact Or.inl (by simp [Account.settle,hb,hp])
    · exact Or.inr ⟨st,hst,Nat.lt_of_lt_of_le hpos (Nat.le_add_right _ _)⟩
  · intro b X hbooked
    refine h.delivered b X ?_
    rcases hbooked with hp | ⟨st,hst,hpos⟩
    · by_cases hb : r.start≤b ∧ b≤r.stop
      · simp [Account.settle,hb] at hp
      · exact Or.inl (by simpa [Account.settle,hb] using hp)
    · by_cases hp : a.pending b=some X
      · exact Or.inl hp
      · exact Or.inr ⟨st,hst,by simpa [Account.settle,hp] using hpos⟩

theorem Traced.call {a : Account} (h : Traced a last) (parts : Nat) (c : BoxCall) :
    Traced (a.call parts c) (lastSender parts last c) := by
  cases c with
  | transferred startPos endPos sender => exact h.deliver parts startPos endPos sender
  | verified r =>
    rw [Account.call,lastSender]
    split_ifs
    · exact h.settle r (by decide)
    · exact h
  | corrupted r =>
    rw [Account.call,lastSender]
    split_ifs
    · exact h.settle r (by decide)
    · exact h

theorem traced_run (parts : Nat) (calls : List BoxCall) :
    Traced (run (Account.call parts) empty calls)
      (run (lastSender parts) (fun _ => none) calls) := by
  refine run_simulation (fun a last c h _ => h.call parts c) ?_
    (along_true _ _ calls)
  exact ⟨by simp,by simp [BookedFor,empty]⟩

end Account

namespace CorruptionBlackBox

theorem Refines.bookedFor {parts : Nat} {box : CorruptionBlackBox} {a : Account}
    (h : Refines parts box a) (b : Nat) (sender : Address) :
    a.BookedFor b sender ↔ ∃ rec∈box.partRecords (b/PARTSIZE), rec.sender=sender ∧
      rec.startPos≤b%PARTSIZE ∧ b%PARTSIZE≤rec.endPos := by
  have hpending := h.pending (fun s => s=sender) b
  have hrec : ∀ st,0<box.heldAt (fun s => s=sender) st b ↔
      ∃ rec∈box.partRecords (b/PARTSIZE), rec.sender=sender ∧ rec.status=st ∧
        rec.startPos≤b%PARTSIZE ∧ b%PARTSIZE≤rec.endPos := by
    intro st
    rw [heldAt,held_pos]
    simp [BlockRecord.Holds]
  constructor
  · rintro (hp | ⟨st,hst,hpos⟩)
    · rw [hp] at hpending
      obtain ⟨rec,hmem,hs,-,hb⟩ := (hrec .None).mp (by simp [hpending])
      exact ⟨rec,hmem,hs,hb⟩
    · obtain ⟨rec,hmem,hs,-,hb⟩ := (hrec st).mp (by rwa [h.settled b sender st hst])
      exact ⟨rec,hmem,hs,hb⟩
  · rintro ⟨rec,hmem,hs,hb⟩
    have hpos := (hrec rec.status).mpr ⟨rec,hmem,hs,rfl,hb⟩
    by_cases hst : rec.status = .None
    · rw [hst,hpending] at hpos
      cases hp : a.pending b with
      | none => simp [hp] at hpos
      | some X =>
        simp only [hp,decide_eq_true_eq] at hpos
        split_ifs at hpos with heq
        · exact Or.inl (hp.trans (congrArg some heq))
        · omega
    · exact Or.inr ⟨rec.status,hst,by rwa [h.settled b sender _ hst] at hpos⟩

theorem coverReach_sound {ranges : List (Nat × Nat)} {reach stop : Nat}
    (h : coverReach reach ranges=some stop) {b : Nat} (hb : b ≤ stop) :
    b≤reach ∨ ∃ r∈ranges, r.1≤b ∧ b≤r.2 := by
  induction ranges generalizing reach with
  | nil =>
    rw [coverReach,Option.some_inj] at h
    exact Or.inl (h ▸ hb)
  | cons r ranges ih =>
    obtain ⟨first,second⟩ := r
    rw [coverReach] at h
    split_ifs at h with hgap
    rcases ih h with hreach | ⟨r,hr,hcover⟩
    · by_cases hold : b≤reach
      · exact Or.inl hold
      · exact Or.inr ⟨(first, second),List.mem_cons_self,by change first≤b ∧ b ≤ second; omega⟩
    · exact Or.inr ⟨r,List.mem_cons_of_mem _ hr,hcover⟩

theorem soleSender_records {box : CorruptionBlackBox} {part partLength : Nat} {sender : Address}
    (hnull : sender.isNull=false)
    (h : box.soleSenderOfWholePart part partLength=sender) :
    (∀ rec∈box.partRecords part,rec.sender=sender) ∧
      ∀ b<partLength,∃ rec∈box.partRecords part, rec.startPos≤b ∧ b≤rec.endPos := by
  have hnone : Address.none≠sender := by
    rintro rfl
    cases hnull
  unfold soleSenderOfWholePart at h
  rw [partRecords]
  cases hrecs : box.records[part]? with
  | none =>
    rw [hrecs] at h
    exact absurd h hnone
  | some rs =>
    cases rs with
    | nil =>
      rw [hrecs] at h
      exact absurd h hnone
    | cons rec rest =>
      simp only [hrecs,Option.getD_some] at h ⊢
      split_ifs at h with hzero hany
      · exact absurd h hnone
      · exact absurd h hnone
      have hall : ∀ r∈rec::rest, r.sender=rec.sender := by
        intro r hr
        by_contra hne
        exact hany (List.any_eq_true.mpr ⟨r,hr,decide_eq_true hne⟩)
      have hmem : ∀ r,r∈sortRanges ((rec::rest).map fun r => (r.startPos, r.endPos)) ↔
          ∃ x∈rec::rest, (x.startPos, x.endPos)=r := by
        intro r
        rw [sortRanges,List.mem_insertionSort,List.mem_map]
      cases hsort : sortRanges ((rec::rest).map fun r => (r.startPos, r.endPos)) with
      | nil =>
        rw [hsort] at h
        exact absurd h hnone
      | cons r ranges =>
        obtain ⟨first,second⟩ := r
        simp only [hsort] at h
        split_ifs at h with hfirst
        · exact absurd h hnone
        cases hreach : coverReach second ranges with
        | none =>
          rw [hreach] at h
          exact absurd h hnone
        | some reach =>
          simp only [hreach] at h
          split_ifs at h with hlen
          · refine ⟨fun r hr => (hall r hr).trans h,fun b hb => ?_⟩
            have hcover : ∃ r∈(first, second)::ranges, r.1≤b ∧ b≤r.2 := by
              rcases coverReach_sound hreach (show b≤reach by omega) with hb | ⟨r,hr,hb⟩
              · exact ⟨(first, second),List.mem_cons_self,by
                  omega⟩
              · exact ⟨r,List.mem_cons_of_mem _ hr,hb⟩
            obtain ⟨r,hr,hb⟩ := hcover
            obtain ⟨x,hx,rfl⟩ := (hmem r).mp (hsort ▸ hr)
            exact ⟨x,hx,hb⟩
          · exact absurd h hnone

/-- Over every run in which no sender delivers strictly inside its own pending record, a named
sole sender of a part delivered each of its bytes, and was the last to do so. -/
theorem soleSenderOfWholePart_correct (fileSize : Nat) (calls : List BoxCall)
    (h : Along call Apart (init fileSize) calls) (part partLength : Nat) (sender : Address)
    (hnull : sender.isNull = false)
    (hsole : (run call (init fileSize) calls).soleSenderOfWholePart part partLength = sender) :
    let last := run (lastSender ((fileSize+PARTSIZE-1)/PARTSIZE)) (fun _ => none) calls
    (∀ rel<partLength,(last (part*PARTSIZE+rel)).isSome=true) ∧
      ∀ rel<PARTSIZE,rel<partLength ∨
        (∃ rec∈(run call (init fileSize) calls).partRecords part,
          rec.startPos≤rel ∧ rel≤rec.endPos) →
        last (part*PARTSIZE+rel)=some sender := by
  intro last
  have hr := refines_run fileSize calls h
  have ht := Account.traced_run ((fileSize+PARTSIZE-1)/PARTSIZE) calls
  obtain ⟨hall,hcover⟩ := soleSender_records hnull hsole
  -- a byte on record was delivered, and its last sender still has a record there
  have hrecorded : ∀ rel<PARTSIZE,(∃ rec∈(run call (init fileSize) calls).partRecords part,
      rec.startPos≤rel ∧ rel≤rec.endPos) → last (part*PARTSIZE+rel)=some sender := by
    intro rel hrel hrec
    have hpart : (part*PARTSIZE+rel)/PARTSIZE=part := by
      rw [Nat.add_comm,Nat.add_mul_div_right rel part PARTSIZE_pos,Nat.div_eq_of_lt hrel,
        Nat.zero_add]
    have hmod : (part*PARTSIZE+rel)%PARTSIZE=rel := by
      rw [Nat.add_comm,Nat.add_mul_mod_self_right,Nat.mod_eq_of_lt hrel]
    have hiff := hr.bookedFor (part*PARTSIZE+rel)
    rw [hpart,hmod] at hiff
    obtain ⟨rec,hmem,hb⟩ := hrec
    have hdel := ht.delivered _ sender ((hiff sender).mpr ⟨rec,hmem,hall rec hmem,hb⟩)
    obtain ⟨Y,hY⟩ := Option.isSome_iff_exists.mp hdel
    obtain ⟨rec',hmem',hs,-⟩ := (hiff Y).mp (ht.booked _ Y hY)
    exact hY.trans (congrArg some (hs.symm.trans (hall rec' hmem')))
  have hin : ∀ rel<partLength,rel<PARTSIZE := by
    intro rel hrel
    obtain ⟨rec,hmem,hb⟩ := hcover rel hrel
    have hlt := (hr.inParts part rec hmem).2
    omega
  constructor
  · intro rel hrel
    rw [hrecorded rel (hin rel hrel) (hcover rel hrel)]
    rfl
  · rintro rel hlt (hrel | hrec)
    · exact hrecorded rel hlt (hcover rel hrel)
    · exact hrecorded rel hlt hrec

/-- One sender fills a short part in two deliveries. -/
def wholePart : List BoxCall := [.transferred 0 499 (.ipv4 1),.transferred 500 999 (.ipv4 1)]

theorem soleSenderOfWholePart_correct_wholePart :
    (run call (init 1000) wholePart).soleSenderOfWholePart 0 1000 = .ipv4 1 ∧
      run (lastSender 1) (fun _ => none) wholePart 700 = some (.ipv4 1) :=
  ⟨by decide +kernel,
    (soleSenderOfWholePart_correct 1000 wholePart (by decide +kernel) 0 1000 (.ipv4 1) rfl
      (by decide +kernel)).2 700 (by decide) (Or.inl (by decide))⟩

/-- Deliveries of the first sender inside its own pending records; the second sender's block
is handed back piece by piece to the first. -/
def handedBack : List BoxCall :=
  [.transferred 0 9 (.ipv4 1),.transferred 4 5 (.ipv4 1),.transferred 1 8 (.ipv4 2),
    .transferred 7 7 (.ipv4 1),.transferred 2 3 (.ipv4 1),.transferred 1 1 (.ipv4 1),
    .transferred 8 8 (.ipv4 1),.transferred 6 6 (.ipv4 1)]

theorem handedBack_sole_sender :
    (run call (init 10) handedBack).soleSenderOfWholePart 0 10 = .ipv4 1 ∧
      run (lastSender 1) (fun _ => none) handedBack 4 = some (.ipv4 2) := by
  decide +kernel

end CorruptionBlackBox

end EmuleQt.Client
