import EmuleQt.Crypto.Digest

namespace EmuleQt.Crypto.Digest

variable {n m len : Nat} {dst d : Digest n} {src : Digest m} {bs : List UInt8}

/-- The first `len` bytes of an array; none if they leave it. -/
def load (a : Digest n) (len : Nat) : Option (List UInt8) :=
  if len ≤ n then some (a.bytes.take len) else none

/-- Bytes written to the front of an array; none if they leave it. -/
def store (a : Digest n) (bs : List UInt8) : Option (Digest n) :=
  if h : bs.length ≤ n then
    some ⟨bs ++ a.bytes.drop bs.length, by rw [List.length_append, List.length_drop, a.size]; omega⟩
  else none

/-- `std::memcpy` from the front of an array to the front of another. -/
def memcpy (dst : Digest n) (src : Digest m) (len : Nat) : Option (Digest n) :=
  (src.load len).bind dst.store

theorem load_of_le {a : Digest n} (h : len≤n) : a.load len=some (a.bytes.take len) := if_pos h

theorem load_eq_none {a : Digest n} (h : n<len) : a.load len=none := if_neg (Nat.not_le.mpr h)

theorem take_store (h : dst.store bs=some d) : d.bytes.take bs.length=bs := by
  unfold store at h
  split_ifs at h
  obtain rfl := Option.some.inj h
  exact List.take_left' rfl

theorem store_of_le (dst : Digest n) (h : bs.length≤n) : ∃ d, dst.store bs=some d :=
  ⟨_,dif_pos h⟩

theorem memcpy_of_le (dst : Digest n) (src : Digest m) (hdst : len≤n) (hsrc : len ≤ m) :
    ∃ d, memcpy dst src len=some d ∧ d.bytes.take len=src.bytes.take len := by
  have hlen : (src.bytes.take len).length=len := by
    rw [List.length_take,src.size]
    omega
  obtain ⟨d,hd⟩ := store_of_le dst (hlen.trans_le hdst)
  have htaken := take_store hd
  rw [hlen] at htaken
  refine ⟨d,?_,htaken⟩
  rw [memcpy,load_of_le hsrc]
  exact hd

theorem memcpy_eq_none (h : m<len) : memcpy dst src len=none := by
  rw [memcpy,load_eq_none h]
  rfl

/-- What was read over zeros: bytes that are not there are zero. -/
def zeroPadded (n : Nat) (bs : List UInt8) : Digest n :=
  ⟨(bs++List.replicate n 0).take n,by simp⟩

theorem zeroPadded_append (d : Digest n) (rest : List UInt8) :
    zeroPadded n (d.bytes++rest)=d := by
  apply Digest.ext
  change (d.bytes++rest++List.replicate n 0).take n=d.bytes
  rw [List.append_assoc]
  exact List.take_left' d.size

end EmuleQt.Crypto.Digest
