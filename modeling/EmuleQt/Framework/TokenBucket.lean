import Mathlib.Algebra.Order.Group.Int

namespace EmuleQt.Framework

/-- An allowance that grows by one with each tick, up to a cap. -/
structure Bucket where
  latest : Nat
  tokens : Int
  deriving DecidableEq

/-- A request that costs something at a time. -/
structure Request (κ : Type*) where
  key : κ
  cost : Nat
  now : Nat

namespace Bucket

variable {κ : Type*} {cap : Int} {b b' : Bucket} {now t : Nat}

def level (cap : Int) (b : Bucket) (t : Nat) : Int := min cap (b.tokens + ((t : Int) - b.latest))

/-- The request is paid for whether it is allowed or not. -/
def charge (cap : Int) (b : Bucket) (cost now : Nat) : Bucket := ⟨now, b.level cap now - cost⟩

/-- A bucket nobody has drawn from. -/
def full (cap : Int) : Bucket := ⟨0, cap⟩

theorem level_later (h : now≤t) : b.level cap t=min cap (b.level cap now+((t : Int)-now)) := by
  unfold level
  omega

/-- The buckets hold the same from a time on. -/
def SameFrom (cap : Int) (now : Nat) (b b' : Bucket) : Prop :=
  ∀ t, now≤t → b.level cap t=b'.level cap t

theorem SameFrom.charge (h : SameFrom cap now b b') (cost : Nat) :
    b.charge cap cost now=b'.charge cap cost now := by
  unfold Bucket.charge
  rw [h now (Nat.le_refl _)]

variable [DecidableEq κ]

/-- One bucket a key. -/
def serve (cap : Int) (s : κ → Bucket) (r : Request κ) : κ → Bucket :=
  Function.update s r.key ((s r.key).charge cap r.cost r.now)

end Bucket

end EmuleQt.Framework
