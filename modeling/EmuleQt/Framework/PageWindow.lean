import Mathlib.Data.List.TakeDrop
import Mathlib.Data.List.Flatten

namespace EmuleQt.Framework

variable {α : Type*} {limit : Nat} {count : Int} {x : α} {xs ys : List α}

/-- What a walk lists that counts up to the limit and skips while the count is negative. -/
def window (limit : Nat) (count : Int) (xs : List α) : List α :=
  (xs.drop (-count).toNat).take (limit - max count 0).toNat

end EmuleQt.Framework
