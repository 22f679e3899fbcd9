import Mathlib.Algebra.Group.Nat.Defs
import Mathlib.Data.List.Basic

namespace EmuleQt.Net

/-- `std::array<uint8, 16>` of an IPv6 address, network byte order. -/
structure IPv6Bytes where
  bytes : List UInt8
  size : bytes.length=16
  deriving DecidableEq

/-- An IPv4 address in host byte order, an IPv6 address, or none. -/
inductive Address
  | none
  | ipv4 (ip : UInt32)
  | ipv6 (ip : IPv6Bytes)
  deriving DecidableEq

namespace Address

def isNull : Address → Bool
  | none => true
  | _ => false

def isIPv4 : Address → Bool
  | ipv4 _ => true
  | _ => false

def isIPv6 : Address → Bool
  | ipv6 _ => true
  | _ => false

def peerKey : Address → Address
  | ipv6 ip => ipv6 ⟨ip.bytes.take 8 ++ List.replicate 8 0, by simp [ip.size]⟩
  | address => address

def toNetworkUint32 : Address → Nat
  | ipv4 ip =>
    let v := ip.toNat
    v / 2 ^ 24 + 2 ^ 8 * (v / 2 ^ 16 % 2 ^ 8) + 2 ^ 16 * (v / 2 ^ 8 % 2 ^ 8) + 2 ^ 24 * (v % 2 ^ 8)
  | _ => 0

def fromHostOrder (ip : UInt32) : Address := if ip = 0 then none else ipv4 ip

def toUint32 : Address → UInt32
  | ipv4 ip => ip
  | _ => 0

def isLan : Address → Bool
  | none => false
  | ipv4 ip =>
    let a := ip.toNat / 2 ^ 24
    let b := ip.toNat / 2 ^ 16 % 2 ^ 8
    decide (a = 10 ∨ (a = 172 ∧ 16 ≤ b ∧ b ≤ 31) ∨ (a = 192 ∧ b = 168) ∨ a = 127 ∨
      (a = 169 ∧ b = 254))
  | ipv6 ip =>
    let first := (ip.bytes.headD 0).toNat
    let second := (ip.bytes.tail.headD 0).toNat
    decide (ip.bytes = [0, 0, 0, 0, 0, 0, 0, 0, 0, 0, 0, 0, 0, 0, 0, 1] ∨
      (first = 0xFE ∧ second / 2 ^ 6 = 2) ∨ first / 2 = 0x7E)

theorem toUint32_fromHostOrder (ip : UInt32) : (fromHostOrder ip).toUint32=ip := by
  unfold fromHostOrder
  split_ifs with h
  · exact h.symm
  · rfl

end Address

end EmuleQt.Net
