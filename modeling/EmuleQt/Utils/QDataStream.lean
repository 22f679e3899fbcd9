import EmuleQt.Math.LittleEndian

namespace EmuleQt.Utils

open Math

/-- `QDataStream` over a byte array: what is left of it, and whether its status is still `Ok`. -/
structure QDataStream where
  rest : List UInt8
  ok : Bool

/-- `operator<<` of an unsigned number of `w` bytes, most significant first. -/
def bigEndian (w v : Nat) : List UInt8 := (leBytes w v).reverse

namespace QDataStream

/-- As many bytes as there are, and the status `ReadPastEnd` where that is not enough. -/
def readRawData (n : Nat) (s : QDataStream) : List UInt8 × QDataStream :=
  (s.rest.take n, ⟨s.rest.drop n, s.ok && decide (n ≤ s.rest.length)⟩)

/-- `operator>>`: 0 where the number is cut short. -/
def readUInt (w : Nat) (s : QDataStream) : Nat × QDataStream :=
  let (bytes, s) := s.readRawData w
  (if bytes.length=w then leValue bytes.reverse else 0, s)

/-- Numbers in a row. -/
def readUInts (w : Nat) : Nat → QDataStream → List Nat × QDataStream
  | 0, s => ([], s)
  | count+1, s =>
    let (v, s) := s.readUInt w
    let (vs, s) := s.readUInts w count
    (v::vs, s)

variable {s : QDataStream} {w v : Nat} {rest : List UInt8}

theorem readRawData_append (bytes rest : List UInt8) (ok : Bool) :
    readRawData bytes.length ⟨bytes++rest,ok⟩=(bytes, ⟨rest,ok⟩) := by
  simp [readRawData]

theorem readUInt_bigEndian (h : v<256^w) (rest : List UInt8) (ok : Bool) :
    readUInt w ⟨bigEndian w v++rest,ok⟩=(v, ⟨rest,ok⟩) := by
  have hlength : (bigEndian w v).length=w := by simp [bigEndian]
  have hread := readRawData_append (bigEndian w v) rest ok
  rw [hlength] at hread
  unfold readUInt
  rw [hread]
  dsimp only
  rw [if_pos hlength,bigEndian,List.reverse_reverse,leValue_leBytes h]

theorem readUInts_bigEndian {vs : List Nat} (h : ∀ v∈vs,v<256^w) (rest : List UInt8)
    (ok : Bool) :
    readUInts w vs.length ⟨vs.flatMap (bigEndian w)++rest,ok⟩=(vs, ⟨rest,ok⟩) := by
  induction vs with
  | nil => rfl
  | cons v vs ih =>
    obtain ⟨hv,hvs⟩ := List.forall_mem_cons.mp h
    rw [List.length_cons,readUInts,List.flatMap_cons,List.append_assoc,
      readUInt_bigEndian hv]
    dsimp only
    rw [ih hvs]

theorem readUInts_length (w count : Nat) (s : QDataStream) :
    (s.readUInts w count).1.length=count := by
  induction count generalizing s with
  | zero => rfl
  | succ count ih => exact congrArg (· + 1) (ih _)

end QDataStream

end EmuleQt.Utils
