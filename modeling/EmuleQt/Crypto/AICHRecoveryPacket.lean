import EmuleQt.Crypto.AICHAuthentic

namespace EmuleQt.Crypto

open Utils

namespace AICHRecoveryHashSet

open AICHHashTree

/-- What a packet hands to the tree: the width of its identifiers, how many hashes it says it
has, and the bytes behind its counts. -/
structure RecoveryPacket where
  width : Nat
  refuse : Nat → Bool
  announced : Nat
  hashes : List UInt8

/-- The counts and the size of a packet, checked; none when nothing of it is read. -/
def RecoveryPacket.parse (hashesToRead : Nat) (input : List UInt8) : Option RecoveryPacket :=
  match Reader.readUInt16 input with
  | .error _ => none
  | .ok (count16, input) =>
    if input.length < hashesToRead * (kAICHHashSize + 2) ∨
        hashesToRead ≠ count16 ∧ count16 ≠ 0 then none
    else if count16 ≠ 0 then some ⟨2, refuse16, count16, input⟩
    else
      match Reader.readUInt16 input with
      | .error _ => none
      | .ok (count32, input) =>
        if input.length < hashesToRead * (kAICHHashSize + 4) ∨
            hashesToRead ≠ count32 ∧ count32 ≠ 0 then none
        else some ⟨4, refuse32, count32, input⟩

/-- The tree once the packet's hashes are written, and whether a verification follows: a
packet that announces none, yet brings them, is not verified. -/
def RecoveryPacket.write (p : RecoveryPacket) (hashesToRead : Nat) (t : AICHHashTree) :
    AICHHashTree × Bool :=
  match readHashes p.width p.refuse hashesToRead t p.hashes with
  | (t, .done _) => (t, decide (p.announced ≠ 0))
  | (t, _) => (t, true)

section Hashing

variable (hashPair : AICHHash → AICHHash → AICHHash)

end Hashing

/-- SHA-1 of 40 zero bytes: the hash of two zero hashes. -/
def sha1OfZeros : AICHHash :=
  ⟨[184,13,229,209,56,117,133,65,197,240,82,101,173,20,74,185,250,134,209,219],
    rfl⟩

end AICHRecoveryHashSet

end EmuleQt.Crypto
