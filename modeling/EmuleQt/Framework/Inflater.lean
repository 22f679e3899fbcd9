import Mathlib.Data.List.Infix

/-!
Decompressors that are called again and again, with a piece of the input and some room for the
output each time, and that take and put out as much as they like.
-/

namespace EmuleQt.Framework

inductive ZCode where
  | Z_OK | Z_STREAM_END | Z_BUF_ERROR | Z_DATA_ERROR | Z_MEM_ERROR
  deriving DecidableEq

/-- How much of its input a call has taken, what it has put out, and what it says. -/
structure Inflated (σ : Type) where
  state : σ
  consumed : Nat
  output : List UInt8
  code : ZCode

structure Inflate where
  State : Type
  inflateInit : Option State
  inflate : State → List UInt8 → Nat → Inflated State

/-- A state that calls which said `Z_OK` lead to; what they have taken and put out. -/
inductive Inflate.Reached (z : Inflate) : z.State → List UInt8 → List UInt8 → Prop
  | start {s : z.State} (h : z.inflateInit = some s) : Reached z s [] []
  | call {s : z.State} {taken out : List UInt8} (h : Reached z s taken out) (input : List UInt8)
      (room : Nat) (hok : (z.inflate s input room).code = .Z_OK) :
      Reached z (z.inflate s input room).state
        (taken ++ input.take (z.inflate s input room).consumed)
        (out ++ (z.inflate s input room).output)

/-- A decompressor of streams: `decompress` is what there is in some input, and an input that is
`Whole` is one stream from its first byte to its last. -/
structure Inflater extends Inflate where
  decompress : List UInt8 → List UInt8
  Whole : List UInt8 → Prop
  /-- There is memory for one. -/
  starts : inflateInit.isSome
  consumed_le : ∀ s input room, (inflate s input room).consumed ≤ input.length
  output_le : ∀ s input room, (inflate s input room).output.length≤room
  /-- It stops when the input is used up or the room is. -/
  stops : ∀ s input room, (inflate s input room).code = .Z_OK →
    (inflate s input room).consumed=input.length ∨ (inflate s input room).output.length=room
  /-- What it puts out is what the input decompresses to, as far as it has come. -/
  faithful : ∀ s taken out, toInflate.Reached s taken out → ∀ input room,
    (inflate s input room).code = .Z_OK ∨ (inflate s input room).code = .Z_STREAM_END →
    ∀ rest, out++(inflate s input room).output <+:
      decompress (taken++input.take (inflate s input room).consumed++rest)
  /-- It says so at the end of the stream, when everything is out. -/
  ends : ∀ s taken out, toInflate.Reached s taken out → ∀ input room,
    (inflate s input room).code = .Z_STREAM_END →
    Whole (taken++input.take (inflate s input room).consumed) ∧
      decompress (taken++input.take (inflate s input room).consumed) =
        out++(inflate s input room).output
  /-- The check value at the end of a stream is taken last, and with it the stream ends. -/
  not_whole : ∀ s taken out, toInflate.Reached s taken out → ¬ Whole taken
  whole_unique : ∀ a b, Whole a → Whole b → a <+: b → a=b
  /-- A stream is not refused while there is input and room. -/
  accepts : ∀ s taken out, toInflate.Reached s taken out → ∀ input room stream, Whole stream →
    taken++input <+: stream → input ≠ [] → 0<room →
    (inflate s input room).code = .Z_OK ∨ (inflate s input room).code = .Z_STREAM_END

theorem Inflater.not_whole_nil (z : Inflater) : ¬ z.Whole [] := by
  obtain ⟨s,hs⟩ := Option.isSome_iff_exists.mp z.starts
  exact z.not_whole s [] [] (.start hs)

/-- A decompressor that goes over its input byte by byte and puts out a byte at most for each; it
refuses a byte it cannot take, and stops after the one that makes it final. -/
structure ByteMachine where
  State : Type
  start : State
  next : State → UInt8 → Option (State × Option UInt8)
  final : State → Bool

namespace ByteMachine

variable {m : ByteMachine} {s : m.State} {input rest taken out : List UInt8} {room : Nat}

/-- As far as there is input, and room for what a byte puts out. -/
def pump (m : ByteMachine) : m.State → List UInt8 → Nat → Inflated m.State
  | s, [], _ => ⟨s, 0, [], .Z_OK⟩
  | s, b :: input, room =>
    match m.next s b with
    | none => ⟨s, 0, [], .Z_DATA_ERROR⟩
    | some (s', emitted) =>
      if emitted.isSome ∧ room = 0 then ⟨s, 0, [], .Z_OK⟩
      else if m.final s' then ⟨s', 1, emitted.toList, .Z_STREAM_END⟩
      else
        let r := m.pump s' input (room - emitted.toList.length)
        ⟨r.state, r.consumed + 1, emitted.toList ++ r.output, r.code⟩

/-- All that comes out of an input. -/
def spill (m : ByteMachine) : m.State → List UInt8 → List UInt8
  | _, [] => []
  | s, b :: input =>
    match m.next s b with
    | none => []
    | some (s', emitted) =>
      emitted.toList ++ if m.final s' then [] else m.spill s' input

/-- The input is taken to its end, and ends there. -/
def whole (m : ByteMachine) : m.State → List UInt8 → Bool
  | _, [] => false
  | s, b :: input =>
    match m.next s b with
    | none => false
    | some (s', _) => if m.final s' then input.isEmpty else m.whole s' input

def toInflate (m : ByteMachine) : Inflate where
  State := m.State
  inflateInit := some m.start
  inflate := m.pump

theorem pump_consumed_le (s : m.State) (input : List UInt8) (room : Nat) :
    (m.pump s input room).consumed ≤ input.length := by
  induction input generalizing s room with
  | nil => exact Nat.le_refl 0
  | cons b input ih =>
    rw [pump,List.length_cons]
    split
    · exact Nat.zero_le _
    next s' emitted _ =>
      split_ifs
      · exact Nat.zero_le _
      · exact Nat.le_add_left 1 _
      · exact Nat.succ_le_succ (ih s' _)

theorem pump_output_le (s : m.State) (input : List UInt8) (room : Nat) :
    (m.pump s input room).output.length≤room := by
  induction input generalizing s room with
  | nil => exact Nat.zero_le room
  | cons b input ih =>
    rw [pump]
    split
    · exact Nat.zero_le room
    next s' emitted _ =>
      have hroom : ¬ (emitted.isSome ∧ room=0) → emitted.toList.length≤room := by
        intro h
        cases emitted with
        | none => exact Nat.zero_le room
        | some c => exact Nat.pos_of_ne_zero fun hzero => h ⟨rfl,hzero⟩
      split_ifs with hfull hend
      · exact Nat.zero_le room
      · exact hroom hfull
      · have hrest := ih s' (room-emitted.toList.length)
        have hfits := hroom hfull
        rw [List.length_append]
        omega

theorem pump_stops (s : m.State) (input : List UInt8) (room : Nat)
    (hok : (m.pump s input room).code = .Z_OK) :
    (m.pump s input room).consumed=input.length ∨
      (m.pump s input room).output.length=room := by
  induction input generalizing s room with
  | nil => exact .inl rfl
  | cons b input ih =>
    rw [pump] at hok ⊢
    split at hok
    · cases hok
    next s' emitted hnext =>
      split_ifs at hok ⊢ with hfull hend
      · exact .inr hfull.2.symm
      · have hlen : emitted.toList.length≤room := by
          cases emitted with
          | none => exact Nat.zero_le room
          | some c => exact Nat.pos_of_ne_zero fun hzero => hfull ⟨rfl,hzero⟩
        rcases ih s' _ hok with htaken | hout
        · exact .inl (congrArg Nat.succ htaken)
        · right
          rw [List.length_append,hout]
          omega

/-- What is still to come comes out of what is left of the input. -/
theorem pump_ok (hok : (m.pump s input room).code = .Z_OK) (rest : List UInt8) :
    m.spill s (input.take (m.pump s input room).consumed++rest) =
        (m.pump s input room).output++m.spill (m.pump s input room).state rest ∧
      m.whole s (input.take (m.pump s input room).consumed++rest) =
        m.whole (m.pump s input room).state rest := by
  induction input generalizing s room with
  | nil => exact ⟨rfl,rfl⟩
  | cons b input ih =>
    rw [pump] at hok ⊢
    split at hok
    · cases hok
    next s' emitted hnext =>
      split_ifs at hok ⊢ with hfull hend
      · exact ⟨rfl,rfl⟩
      · obtain ⟨hspill,hwhole⟩ := ih hok
        rw [List.take_succ_cons,List.cons_append,spill,whole,hnext]
        dsimp only
        rw [if_neg hend,if_neg hend,hspill,hwhole,List.append_assoc]
        exact ⟨rfl,rfl⟩

theorem pump_end (hend : (m.pump s input room).code = .Z_STREAM_END) :
    (∀ rest,m.spill s (input.take (m.pump s input room).consumed++rest) =
        (m.pump s input room).output) ∧
      m.whole s (input.take (m.pump s input room).consumed)=true := by
  induction input generalizing s room with
  | nil => cases hend
  | cons b input ih =>
    rw [pump] at hend ⊢
    split at hend
    · cases hend
    next s' emitted hnext =>
      split_ifs at hend ⊢ with hfull hfinal
      · refine ⟨fun rest => ?_,?_⟩
        · rw [List.take_succ_cons,List.cons_append,spill,hnext]
          dsimp only
          rw [if_pos hfinal,List.append_nil]
        · rw [List.take_succ_cons,List.take_zero,whole,hnext]
          dsimp only
          rw [if_pos hfinal]
          rfl
      · obtain ⟨hspill,hwhole⟩ := ih hend
        refine ⟨fun rest => ?_,?_⟩
        · rw [List.take_succ_cons,List.cons_append,spill,hnext]
          dsimp only
          rw [if_neg hfinal,hspill]
        · rw [List.take_succ_cons,whole,hnext]
          dsimp only
          rw [if_neg hfinal,hwhole]

theorem reached_spec {s : m.toInflate.State} (h : m.toInflate.Reached s taken out)
    (rest : List UInt8) :
    m.spill m.start (taken++rest)=out++m.spill s rest ∧
      m.whole m.start (taken++rest)=m.whole s rest := by
  induction h generalizing rest with
  | start hs =>
    cases hs
    exact ⟨rfl,rfl⟩
  | call h input room hok ih =>
    obtain ⟨hspill,hwhole⟩ := pump_ok hok rest
    obtain ⟨hspill',hwhole'⟩ := ih (input.take _ ++ rest)
    rw [List.append_assoc,List.append_assoc]
    exact ⟨hspill'.trans (congrArg _ hspill),hwhole'.trans hwhole⟩

theorem whole_unique {a b : List UInt8} (ha : m.whole s a=true) (hb : m.whole s (a++b)=true) :
    b=[] := by
  induction a generalizing s with
  | nil => cases ha
  | cons c a ih =>
    rw [List.cons_append] at hb
    rw [whole] at ha hb
    split at ha
    · cases ha
    next s' emitted hnext =>
      rw [hnext] at hb
      dsimp only at hb
      split_ifs at ha hb with hfinal
      · exact (List.append_eq_nil_iff.mp (List.isEmpty_iff.mp hb)).2
      · exact ih ha hb

theorem pump_accepts (hstream : m.whole s (input++rest)=true) :
    (m.pump s input room).code = .Z_OK ∨ (m.pump s input room).code = .Z_STREAM_END := by
  induction input generalizing s room with
  | nil => exact .inl rfl
  | cons b input ih =>
    rw [List.cons_append,whole] at hstream
    rw [pump]
    split at hstream
    · cases hstream
    next s' emitted hnext =>
      split_ifs at hstream ⊢ with hfinal hfull hfull
      · exact .inl rfl
      · exact .inl rfl
      · exact .inr rfl
      · exact ih hstream

def toInflater (m : ByteMachine) : Inflater where
  toInflate := m.toInflate
  decompress := m.spill m.start
  Whole input := m.whole m.start input=true
  starts := rfl
  consumed_le := pump_consumed_le
  output_le := pump_output_le
  stops := pump_stops
  faithful s taken out h input room hcode rest := by
    obtain ⟨hspill,-⟩ := reached_spec h (input.take (m.pump s input room).consumed++rest)
    change out++(m.pump s input room).output <+:
      m.spill m.start (taken++input.take (m.pump s input room).consumed++rest)
    rw [List.append_assoc,hspill,List.prefix_append_right_inj]
    rcases hcode with hok | hend
    · rw [(pump_ok hok rest).1]
      exact List.prefix_append _ _
    · rw [(pump_end hend).1 rest]
  ends s taken out h input room hend := by
    obtain ⟨hspill,hwhole⟩ := reached_spec h (input.take (m.pump s input room).consumed)
    obtain ⟨hout,hstream⟩ := pump_end hend
    have hall := hout []
    rw [List.append_nil] at hall
    exact ⟨hwhole.trans hstream,hspill.trans (congrArg _ hall)⟩
  not_whole s taken out h hstream := by
    have hwhole := (reached_spec h []).2
    rw [List.append_nil,hstream] at hwhole
    cases hwhole
  whole_unique a b ha hb hab := by
    obtain ⟨rest,rfl⟩ := hab
    rw [whole_unique ha hb,List.append_nil]
  accepts s taken out h input room stream hstream hsub _ _ := by
    obtain ⟨rest,rfl⟩ := hsub
    rw [List.append_assoc,(reached_spec h _).2] at hstream
    exact pump_accepts hstream

end ByteMachine

/-- Where a stream of one stored block has come to; the last bytes check, and are not checked. -/
inductive StoredState where
  | header (left : Nat)
  | lowLength
  | highLength (low : Nat)
  | complement (left length : Nat)
  | bytes (left : Nat)
  | check (left : Nat)
  deriving DecidableEq

namespace StoredState

/-- The bytes of a block have begun, or there are none. -/
def body (length : Nat) : StoredState := if length = 0 then .check 4 else .bytes length

def next : StoredState → UInt8 → Option (StoredState × Option UInt8)
  | header (left + 1), _ => some (if left = 0 then lowLength else header left, none)
  | lowLength, b => some (highLength b.toNat, none)
  | highLength low, b => some (complement 2 (low + 256 * b.toNat), none)
  | complement (left + 1) length, _ =>
    some (if left = 0 then body length else complement left length, none)
  | bytes (left + 1), b => some (if left = 0 then check 4 else bytes left, some b)
  | check (left + 1), _ => some (check left, none)
  | _, _ => none

end StoredState

/-- Streams whose only block is stored as it is. -/
def storedMachine : ByteMachine where
  State := StoredState
  start := .header 3
  next := StoredState.next
  final s := s = .check 0

end EmuleQt.Framework
