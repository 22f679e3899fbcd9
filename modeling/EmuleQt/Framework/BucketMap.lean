import Mathlib.Data.Set.Basic
import Mathlib.Data.List.Basic
import Mathlib.Data.List.Pairwise

namespace EmuleQt.Framework

/-- What a hash table is told about its keys, and how many buckets it has for its entries. -/
structure Hashing (κ ν : Type*) where
  hash : κ → Nat
  same : κ → κ → Bool
  buckets : List (κ × ν) → Nat

namespace Hashing

variable {κ ν : Type*} (H : Hashing κ ν)

/-- A key is looked for in its own bucket. -/
def hit (n : Nat) (k : κ) (e : κ × ν) : Bool :=
  decide (H.hash k % n = H.hash e.1 % n) && H.same k e.1

def find (k : κ) (m : List (κ × ν)) : Option (κ × ν) := m.find? (H.hit (H.buckets m) k)

def setFirst (p : κ × ν → Bool) (k : κ) (v : ν) : List (κ × ν) → List (κ × ν)
  | [] => [(k, v)]
  | e :: es => if p e then (e.1, v) :: es else e :: setFirst p k v es

/-- The value of an entry that is found, or a new entry. -/
def set (k : κ) (v : ν) (m : List (κ × ν)) : List (κ × ν) :=
  setFirst (H.hit (H.buckets m) k) k v m

def erase (k : κ) (m : List (κ × ν)) : List (κ × ν) := m.eraseP (H.hit (H.buckets m) k)

/-- What a table needs of its keys: equal ones have one hash, and equality is an equivalence. -/
structure LawfulOn (K : Set κ) : Prop where
  hash_eq : ∀ a∈K, ∀ b∈K, H.same a b=true → H.hash a=H.hash b
  refl : ∀ a∈K, H.same a a=true
  symm : ∀ a∈K, ∀ b∈K, H.same a b=true → H.same b a=true
  trans : ∀ a∈K, ∀ b∈K, ∀ c∈K, H.same a b=true → H.same b c=true → H.same a c=true

/-- The keys are among those a table was made for, and no two of them are equal. -/
structure Keyed (K : Set κ) (m : List (κ × ν)) : Prop where
  keys : ∀ e ∈ m, e.1 ∈ K
  apart : m.Pairwise fun a b => H.same a.1 b.1 = false

variable {H} {K : Set κ} {m : List (κ × ν)} {k k' : κ} {v : ν} {e : κ × ν} {n : Nat}

theorem keyed_nil : H.Keyed K [] := ⟨by simp,List.Pairwise.nil⟩

theorem LawfulOn.hit_eq (h : H.LawfulOn K) (hk : k∈K) (he : e.1∈K) (n : Nat) :
    H.hit n k e=H.same k e.1 := by
  unfold hit
  cases hsame : H.same k e.1 with
  | false => exact Bool.and_false _
  | true =>
    rw [Bool.and_true,h.hash_eq k hk e.1 he hsame]
    exact decide_eq_true rfl

theorem find_congr {p q : κ × ν → Bool} (h : ∀ e∈m,p e=q e) : m.find? p=m.find? q := by
  induction m with
  | nil => rfl
  | cons x xs ih =>
    rw [List.find?_cons,List.find?_cons,h x List.mem_cons_self,
      ih fun e he => h e (List.mem_cons_of_mem x he)]

/-- The value of a key, whichever equal key it was put in by. -/
def value (H : Hashing κ ν) (k : κ) (m : List (κ × ν)) : Option ν :=
  (m.find? fun e => H.same k e.1).map Prod.snd

theorem LawfulOn.find_eq (h : H.LawfulOn K) (hm : H.Keyed K m) (hk : k∈K) :
    (H.find k m).map Prod.snd=H.value k m := by
  congr 1
  apply find_congr
  intro e he
  exact h.hit_eq hk (hm.keys e he) _

theorem value_cons (e : κ × ν) (es : List (κ × ν)) :
    H.value k (e::es)=if H.same k e.1=true then some e.2 else H.value k es := by
  unfold value
  rw [List.find?_cons]
  cases H.same k e.1 <;> rfl

theorem mem_setFirst {p : κ × ν → Bool} (he : e∈setFirst p k v m) :
    e=(k, v) ∨ e∈m ∨ ∃ old∈m, e=(old.1, v) := by
  induction m with
  | nil => exact .inl (List.mem_singleton.mp he)
  | cons x xs ih =>
    rw [setFirst] at he
    split_ifs at he
    · rcases List.mem_cons.mp he with rfl | he
      · exact .inr (.inr ⟨x,List.mem_cons_self,rfl⟩)
      · exact .inr (.inl (List.mem_cons_of_mem x he))
    · rcases List.mem_cons.mp he with rfl | he
      · exact .inr (.inl List.mem_cons_self)
      · rcases ih he with hnew | hold | ⟨old,hold,heq⟩
        · exact .inl hnew
        · exact .inr (.inl (List.mem_cons_of_mem x hold))
        · exact .inr (.inr ⟨old,List.mem_cons_of_mem x hold,heq⟩)

theorem LawfulOn.set_keyed (h : H.LawfulOn K) (hm : H.Keyed K m) (hk : k∈K) :
    H.Keyed K (H.set k v m) := by
  unfold set
  generalize H.buckets m=n
  induction m with
  | nil => exact ⟨by simpa [setFirst] using hk,List.pairwise_singleton _ _⟩
  | cons x xs ih =>
    obtain ⟨hx,hxs⟩ := List.pairwise_cons.mp hm.apart
    obtain ⟨hxK,hxsK⟩ := List.forall_mem_cons.mp hm.keys
    rw [setFirst,h.hit_eq hk hxK]
    split_ifs with hsame
    · exact ⟨List.forall_mem_cons.mpr ⟨hxK,hxsK⟩,List.pairwise_cons.mpr ⟨hx,hxs⟩⟩
    · obtain ⟨hkeys,hapart⟩ := ih ⟨hxsK,hxs⟩
      refine ⟨List.forall_mem_cons.mpr ⟨hxK,hkeys⟩,List.pairwise_cons.mpr ⟨?_,hapart⟩⟩
      intro e he
      rcases mem_setFirst he with rfl | hold | ⟨old,hold,rfl⟩
      · cases hback : H.same x.1 k with
        | false => rfl
        | true => exact absurd (h.symm x.1 hxK k hk hback) hsame
      · exact hx e hold
      · exact hx old hold

/-- A value is set for all the keys that are equal to the one given. -/
theorem LawfulOn.value_set (h : H.LawfulOn K) (hm : H.Keyed K m) (hk : k∈K) (hk' : k'∈K) :
    H.value k' (H.set k v m)=if H.same k' k=true then some v else H.value k' m := by
  unfold set
  generalize H.buckets m=n
  induction m with
  | nil =>
    rw [setFirst,value_cons]
  | cons x xs ih =>
    obtain ⟨-,hxs⟩ := List.pairwise_cons.mp hm.apart
    obtain ⟨hxK,hxsK⟩ := List.forall_mem_cons.mp hm.keys
    rw [setFirst,h.hit_eq hk hxK]
    split_ifs with hkx hk'k hk'k
    · rw [value_cons,if_pos (h.trans k' hk' k hk x.1 hxK hk'k hkx)]
    · have hne : H.same k' x.1≠true := fun hk'x =>
        hk'k (h.trans k' hk' x.1 hxK k hk hk'x (h.symm k hk x.1 hxK hkx))
      rw [value_cons,if_neg hne,value_cons,if_neg hne]
    · have hne : H.same k' x.1≠true := fun hk'x =>
        hkx (h.trans k hk k' hk' x.1 hxK (h.symm k' hk' k hk hk'k) hk'x)
      rw [value_cons,if_neg hne,ih ⟨hxsK,hxs⟩,if_pos hk'k]
    · rw [value_cons,ih ⟨hxsK,hxs⟩,if_neg hk'k,value_cons]

theorem Keyed.sublist {m' : List (κ × ν)} (hm : H.Keyed K m) (hsub : m'.Sublist m) :
    H.Keyed K m' :=
  ⟨fun e he => hm.keys e (hsub.subset he),hm.apart.sublist hsub⟩

theorem value_eq_none (hnone : ∀ e∈m,H.same k e.1=false) : H.value k m=none := by
  unfold value
  rw [List.find?_eq_none.mpr fun e he => by simp [hnone e he]]
  rfl

/-- Of an entry and the later ones only one can be equal to a key. -/
theorem LawfulOn.value_tail (h : H.LawfulOn K) (hm : H.Keyed K (e::m)) (hk : k∈K)
    (hsame : H.same k e.1=true) : H.value k m=none := by
  obtain ⟨he,-⟩ := List.pairwise_cons.mp hm.apart
  obtain ⟨heK,hmK⟩ := List.forall_mem_cons.mp hm.keys
  apply value_eq_none
  intro x hx
  cases hkx : H.same k x.1 with
  | false => rfl
  | true =>
    have hex := h.trans e.1 heK k hk x.1 (hmK x hx) (h.symm k hk e.1 heK hsame) hkx
    rw [he x hx] at hex
    cases hex

theorem LawfulOn.value_erase (h : H.LawfulOn K) (hm : H.Keyed K m) (hk : k∈K) (hk' : k'∈K) :
    H.value k' (H.erase k m)=if H.same k' k=true then none else H.value k' m := by
  unfold erase
  generalize H.buckets m=n
  induction m with
  | nil => simp [value]
  | cons x xs ih =>
    obtain ⟨-,hxs⟩ := List.pairwise_cons.mp hm.apart
    obtain ⟨hxK,hxsK⟩ := List.forall_mem_cons.mp hm.keys
    cases hkx : H.same k x.1 with
    | true =>
      rw [List.eraseP_cons_of_pos (by rw [h.hit_eq hk hxK,hkx])]
      split_ifs with hk'k
      · exact h.value_tail hm hk' (h.trans k' hk' k hk x.1 hxK hk'k hkx)
      · have hne : H.same k' x.1≠true := fun hk'x =>
          hk'k (h.trans k' hk' x.1 hxK k hk hk'x (h.symm k hk x.1 hxK hkx))
        rw [value_cons,if_neg hne]
    | false =>
      rw [List.eraseP_cons_of_neg (by rw [h.hit_eq hk hxK,hkx]; decide),value_cons,
        ih ⟨hxsK,hxs⟩,value_cons]
      split_ifs with hk'x hk'k
      · have hkx' := h.trans k hk k' hk' x.1 hxK (h.symm k' hk' k hk hk'k) hk'x
        rw [hkx] at hkx'
        cases hkx'
      all_goals rfl

/-- Entries are dropped by their values. -/
theorem LawfulOn.value_filter (h : H.LawfulOn K) (hm : H.Keyed K m) (hk : k∈K) (q : ν → Bool) :
    H.value k (m.filter fun e => q e.2)=(H.value k m).filter q := by
  induction m with
  | nil => rfl
  | cons x xs ih =>
    obtain ⟨-,hxs⟩ := List.pairwise_cons.mp hm.apart
    obtain ⟨-,hxsK⟩ := List.forall_mem_cons.mp hm.keys
    have hrest := ih ⟨hxsK,hxs⟩
    rw [value_cons,List.filter_cons]
    cases hq : q x.2 with
    | true =>
      rw [if_pos rfl,value_cons,hrest]
      split_ifs
      · rw [Option.filter_some,if_pos hq]
      · rfl
    | false =>
      rw [if_neg Bool.false_ne_true,hrest]
      split_ifs with hkx
      · rw [h.value_tail hm hk hkx,Option.filter_some,if_neg (by simp [hq])]
        rfl
      · rfl

end Hashing

end EmuleQt.Framework
