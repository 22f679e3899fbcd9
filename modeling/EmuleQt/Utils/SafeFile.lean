import EmuleQt.Math.LittleEndian

namespace EmuleQt.Utils

open Math

/-- A failed read, seek or write. -/
structure FileException where
  what : String
  deriving DecidableEq

/-- Reading from a read-only memory file: the bytes from the position on are the
state, so `length() - position()` is their number. -/
def Reader (α : Type) : Type := List UInt8 → Except FileException (α × List UInt8)

namespace Reader

instance : Monad Reader where
  pure a := fun s => .ok (a, s)
  bind x f := fun s =>
    match x s with
    | .ok (a, s') => f a s'
    | .error e => .error e

variable {α β : Type} {s s' : List UInt8}

@[simp] theorem pure_apply (a : α) (s : List UInt8) :
    (pure a : Reader α) s = .ok (a, s) := rfl

theorem bind_apply (x : Reader α) (f : α → Reader β) (s : List UInt8) :
    (x >>= f) s =
      match x s with
      | .ok (a, s') => f a s'
      | .error e => .error e := rfl

theorem bind_ok {x : Reader α} {f : α → Reader β} {a : α} (h : x s = .ok (a, s')) :
    (x >>= f) s=f a s' := by
  rw [bind_apply,h]

theorem of_bind_ok {x : Reader α} {f : α → Reader β} {r : β × List UInt8}
    (h : (x >>= f) s = .ok r) :
    ∃ a s', x s = .ok (a, s') ∧ f a s' = .ok r := by
  rw [bind_apply] at h
  cases hx : x s with
  | error e => simp [hx] at h
  | ok p =>
    rw [hx] at h
    exact ⟨p.1,p.2,rfl,h⟩

def throw {α : Type} (e : FileException) : Reader α := fun _ => .error e

/-- `length() - position()` -/
def remaining : Reader Nat := fun s => .ok (s.length, s)

@[simp] theorem remaining_apply (s : List UInt8) : remaining s = .ok (s.length, s) := rfl

/-- `FileDataIO::read` on a `SafeMemFile`. -/
def read (count : Nat) : Reader (List UInt8) := fun s =>
  if count ≤ s.length then .ok (s.take count, s.drop count)
  else .error ⟨"Attempt to read past end of memory file"⟩

/-- `FileDataIO::seek(distance, SEEK_CUR)` forward in a read-only memory file. -/
def skip (distance : Nat) : Reader Unit := fun s =>
  if distance ≤ s.length then .ok ((), s.drop distance)
  else .error ⟨"Seek failed in memory file"⟩

theorem read_append {bs : List UInt8} {count : Nat} (h : bs.length=count)
    (rest : List UInt8) : read count (bs++rest) = .ok (bs, rest) := by
  subst h
  simp [read]

/-- A little-endian unsigned integer of `w` bytes. -/
def readUInt (w : Nat) : Reader Nat := fun s =>
  match read w s with
  | .ok (bs, s') => .ok (leValue bs, s')
  | .error e => .error e

theorem read_ok {count : Nat} {bs : List UInt8} (h : read count s = .ok (bs, s')) :
    bs=s.take count ∧ s'=s.drop count ∧ count ≤ s.length := by
  unfold read at h
  split_ifs at h with hc
  simp only [Except.ok.injEq,Prod.mk.injEq] at h
  exact ⟨h.1.symm,h.2.symm,hc⟩

theorem readUInt_ok {w v : Nat} (h : readUInt w s = .ok (v, s')) :
    v=leValue (s.take w) ∧ s'=s.drop w ∧ w ≤ s.length := by
  unfold readUInt at h
  cases hr : read w s with
  | error e => simp [hr] at h
  | ok r =>
    obtain ⟨bs,rest⟩ := r
    simp only [hr,Except.ok.injEq,Prod.mk.injEq] at h
    obtain ⟨rfl,rfl,hle⟩ := read_ok hr
    exact ⟨h.1.symm,h.2.symm,hle⟩

def readUInt8 : Reader Nat := readUInt 1
def readUInt16 : Reader Nat := readUInt 2
def readUInt32 : Reader Nat := readUInt 4
def readUInt64 : Reader Nat := readUInt 8

theorem readUInt_leBytes_mod (w v : Nat) (rest : List UInt8) :
    readUInt w (leBytes w v++rest) = .ok (v%256^w, rest) := by
  simp only [readUInt,read_append (leBytes_length w v),leValue_leBytes_mod]

theorem readUInt_leBytes {w v : Nat} (h : v<256^w) (rest : List UInt8) :
    readUInt w (leBytes w v++rest) = .ok (v, rest) := by
  rw [readUInt_leBytes_mod,Nat.mod_eq_of_lt h]

end Reader

/-- The writers append; the value is cut to the field's width, as `static_cast` does. -/
def writeUInt8 (v : Nat) : List UInt8 := leBytes 1 v
def writeUInt16 (v : Nat) : List UInt8 := leBytes 2 v
def writeUInt32 (v : Nat) : List UInt8 := leBytes 4 v
def writeUInt64 (v : Nat) : List UInt8 := leBytes 8 v

@[simp] theorem writeUInt8_length (v : Nat) : (writeUInt8 v).length=1 := leBytes_length 1 v
@[simp] theorem writeUInt16_length (v : Nat) : (writeUInt16 v).length=2 := leBytes_length 2 v
@[simp] theorem writeUInt32_length (v : Nat) : (writeUInt32 v).length=4 := leBytes_length 4 v
theorem readUInt8_write {v : Nat} (h : v<2^8) (rest : List UInt8) :
    Reader.readUInt8 (writeUInt8 v++rest) = .ok (v, rest) :=
  Reader.readUInt_leBytes (by omega) rest

theorem readUInt16_write {v : Nat} (h : v<2^16) (rest : List UInt8) :
    Reader.readUInt16 (writeUInt16 v++rest) = .ok (v, rest) :=
  Reader.readUInt_leBytes (by omega) rest

theorem readUInt32_write {v : Nat} (h : v<2^32) (rest : List UInt8) :
    Reader.readUInt32 (writeUInt32 v++rest) = .ok (v, rest) :=
  Reader.readUInt_leBytes (by omega) rest

theorem readUInt64_write {v : Nat} (h : v<2^64) (rest : List UInt8) :
    Reader.readUInt64 (writeUInt64 v++rest) = .ok (v, rest) :=
  Reader.readUInt_leBytes (by omega) rest

end EmuleQt.Utils
