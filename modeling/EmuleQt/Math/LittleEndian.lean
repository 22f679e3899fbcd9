import Mathlib.Data.List.Basic
import Mathlib.Tactic.Ring

namespace EmuleQt.Math

/-- The low `w` bytes of `v`, least significant first; higher bytes are cut off. -/
def leBytes : Nat → Nat → List UInt8
  | 0, _ => []
  | w+1, v => UInt8.ofNat v::leBytes w (v/256)

/-- The number a little-endian byte string stands for. -/
def leValue : List UInt8 → Nat
  | [] => 0
  | b::bs => b.toNat+256*leValue bs

@[simp] theorem leBytes_length (w v : Nat) : (leBytes w v).length=w := by
  induction w generalizing v with
  | zero => rfl
  | succ w ih => simp [leBytes,ih]

theorem leValue_leBytes_mod (w v : Nat) : leValue (leBytes w v)=v%256^w := by
  induction w generalizing v with
  | zero => simp [leBytes,leValue,Nat.mod_one]
  | succ w ih =>
    have hb : (UInt8.ofNat v).toNat=v%256 := by simp
    rw [leBytes,leValue,ih,hb,Nat.pow_succ,Nat.mul_comm (256^w) 256,Nat.mod_mul]

theorem leValue_leBytes {w v : Nat} (h : v<256^w) : leValue (leBytes w v)=v := by
  rw [leValue_leBytes_mod,Nat.mod_eq_of_lt h]

theorem leValue_lt (bs : List UInt8) : leValue bs<256^bs.length := by
  induction bs with
  | nil => simp [leValue]
  | cons b bs ih =>
    have hb : b.toNat<256 := b.toNat_lt
    rw [leValue,List.length_cons,Nat.pow_succ]
    omega

theorem leBytes_leValue (bs : List UInt8) : leBytes bs.length (leValue bs)=bs := by
  induction bs with
  | nil => rfl
  | cons b bs ih =>
    have hb : b.toNat<256 := b.toNat_lt
    have hq : (b.toNat+256*leValue bs)/256=leValue bs := by omega
    have hr : UInt8.ofNat (b.toNat+256*leValue bs)=b := by
      apply UInt8.toNat_inj.mp
      simp only [UInt8.toNat_ofNat']
      omega
    rw [List.length_cons,leValue,leBytes,hq,hr,ih]

end EmuleQt.Math
