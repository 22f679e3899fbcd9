import EmuleQt.Crypto.AICHRecovery

namespace EmuleQt.Crypto

open Utils

namespace AICHHashTree

section Hashing

variable (hashPair : AICHHash → AICHHash → AICHHash)

/-- Every valid node below the root hangs on valid parents, and the hash of each of these is
the hash of its two valid children. -/
def Authentic : AICHHashTree → Prop
  | null => True
  | node n l r =>
    (l.hashValid=true ∨ r.hashValid=true → n.hashValid=true ∧ l.hashValid=true ∧
      r.hashValid=true ∧ n.hash=hashPair l.hash r.hash) ∧ Authentic l ∧ Authentic r

instance decidableAuthentic : DecidablePred (Authentic hashPair)
  | null => .isTrue trivial
  | node _ l r =>
    have := decidableAuthentic l
    have := decidableAuthentic r
    inferInstanceAs (Decidable (_ ∧ _))

variable {t : AICHHashTree}

/-- The node and its children, once computed, are valid and fit together. -/
def Fits (n : AICHNode) (l r : AICHHashTree) : Prop :=
  n.hashValid = true ∧ (fillMissing hashPair l).hashValid = true ∧
    (fillMissing hashPair r).hashValid = true ∧
    n.hash = hashPair (fillMissing hashPair l).hash (fillMissing hashPair r).hash

instance (n : AICHNode) (l r : AICHHashTree) : Decidable (Fits hashPair n l r) := by
  unfold Fits
  infer_instance

end Hashing

/-- A node that keeps its data. -/
def SameNode (t t' : AICHHashTree) : Prop :=
  ∀ n l r, t = node n l r → ∃ l' r', t' = node n l' r'

theorem SameNode.trans {t t' t'' : AICHHashTree} (h1 : SameNode t t') (h2 : SameNode t' t'') :
    SameNode t t'' := by
  intro n l r ht
  obtain ⟨l',r',ht'⟩ := h1 n l r ht
  exact h2 n l' r' ht'

variable {hashIdent : Nat}

theorem leadingLevel_shifted {d : Nat} (hlow : 2^d≤hashIdent) (hhigh : hashIdent<2^(d+1))
    (k : Nat) (hk : d+k≤31) :
    leadingLevel (d+k) (hashIdent*2^(31-d-k))=some (d, hashIdent*2^(31-d)) := by
  induction k with
  | zero =>
    have hbit : 2^31≤hashIdent*2^(31-d) := by
      calc 2^31=2^d*2^(31-d) := by rw [← Nat.pow_add]; congr 1; omega
        _ ≤ hashIdent*2^(31-d) := Nat.mul_le_mul_right _ hlow
    cases d <;> exact if_pos hbit
  | succ k ih =>
    have hsmall : hashIdent*2^(31-d-(k+1))<2^31 := by
      calc hashIdent*2^(31-d-(k+1))<2^(d+1)*2^(31-d-(k+1)) :=
            Nat.mul_lt_mul_of_pos_right hhigh (Nat.two_pow_pos _)
        _ = 2^(31-k) := by rw [← Nat.pow_add]; congr 1; omega
        _ ≤ 2^31 := Nat.pow_le_pow_right (by omega) (by omega)
    have hdouble : hashIdent*2^(31-d-(k+1))*2%2^32 =
        hashIdent*2^(31-d-k) := by
      rw [Nat.mod_eq_of_lt (by omega),Nat.mul_assoc,← Nat.pow_succ]
      congr 2
      omega
    rw [← Nat.add_assoc,leadingLevel,if_neg (Nat.not_le.mpr hsmall),hdouble]
    exact ih (by omega)

theorem leadingLevel_eq {d : Nat} (hlow : 2^d≤hashIdent) (hhigh : hashIdent<2^(d+1))
    (hd : d≤31) :
    leadingLevel 31 hashIdent=some (d, hashIdent*2^(31-d)) := by
  have h := leadingLevel_shifted hlow hhigh (31-d) (by omega)
  rwa [show d+(31-d)=31 by omega,Nat.sub_self,Nat.pow_zero,Nat.mul_one] at h

end AICHHashTree

end EmuleQt.Crypto
