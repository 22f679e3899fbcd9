import EmuleQt.Utils.SafeFile

namespace EmuleQt.Crypto

open Utils

/-- A hash value of `n` bytes. -/
structure Digest (n : Nat) where
  bytes : List UInt8
  size : bytes.length = n
  deriving DecidableEq

namespace Digest

@[ext] theorem ext {n : Nat} {a b : Digest n} (h : a.bytes=b.bytes) : a=b := by
  cases a; cases b; simp_all

/-- The all-zero value a default-constructed hash holds. -/
def zero (n : Nat) : Digest n := ⟨List.replicate n 0, List.length_replicate⟩

instance {n : Nat} : Inhabited (Digest n) := ⟨zero n⟩

def read (n : Nat) : Reader (Digest n) := fun s =>
  if h : n ≤ s.length then .ok (⟨s.take n, by simpa using h⟩, s.drop n)
  else .error ⟨"Attempt to read past end of memory file"⟩

theorem read_ok {n : Nat} {d : Digest n} {s s' : List UInt8} (h : read n s = .ok (d, s')) :
    d.bytes=s.take n ∧ s'=s.drop n ∧ n ≤ s.length := by
  unfold read at h
  split_ifs at h with hc
  simp only [Except.ok.injEq,Prod.mk.injEq] at h
  exact ⟨h.1 ▸ rfl,h.2.symm,hc⟩

theorem read_append {n : Nat} (d : Digest n) (rest : List UInt8) :
    read n (d.bytes++rest) = .ok (d, rest) := by
  have hn : n≤(d.bytes++rest).length := by simp [d.size]
  have htake : (d.bytes++rest).take n=d.bytes := List.take_left' d.size
  have hdrop : (d.bytes++rest).drop n=rest := List.drop_left' d.size
  simp only [read,dif_pos hn,htake,hdrop]

end Digest

/-- `std::array<uint8, 16>` of an MD4 hash. -/
abbrev MD4Hash := Digest 16

def kAICHHashSize : Nat := 20

abbrev AICHHash := Digest kAICHHashSize

end EmuleQt.Crypto
