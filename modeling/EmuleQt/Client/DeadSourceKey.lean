import EmuleQt.Framework.BucketMap
import EmuleQt.Protocol.ED2KLink

namespace EmuleQt.Client

open Crypto Framework Net Protocol

/-- `std::hash<uint32>` is the standard library's own. -/
def addressHash (hash32 : UInt32 → UInt64) : Address → UInt64
  | .ipv4 ip => hash32 ip
  -- FNV-1a over the bytes
  | .ipv6 ip => ip.bytes.foldl (fun h b => (h ^^^ b.toUInt64)*1099511628211) 14695981039346656037
  | .none => 0

structure DeadSourceKey where
  hash : Digest 16
  serverAddress : Address
  ipv6 : Address
  userID : UInt32
  port : UInt16
  kadPort : UInt16
  deriving DecidableEq

namespace DeadSourceKey

variable {a b c : DeadSourceKey}

def SharesPort (a b : DeadSourceKey) : Prop :=
  (a.port≠0 ∧ a.port=b.port) ∨ (a.kadPort≠0 ∧ a.kadPort=b.kadPort)

/-- High ID, or low ID with server. -/
def SameID (a b : DeadSourceKey) : Prop :=
  a.userID≠0 ∧ a.userID=b.userID ∧ SharesPort a b ∧
    (a.serverAddress=b.serverAddress ∨ ¬ isLowID a.userID.toNat)

def SameUserHash (a b : DeadSourceKey) : Prop :=
  isLowID a.userID.toNat ∧ a.hash≠Digest.zero 16 ∧ a.hash=b.hash

/-- `operator==` -/
def Same (a b : DeadSourceKey) : Prop :=
  if a.ipv6 ≠ .none ∨ b.ipv6 ≠ .none then a.ipv6 = b.ipv6 ∧ a.port = b.port
  else SameID a b ∨ SameUserHash a b

instance instDecidableSharesPort (a b : DeadSourceKey) : Decidable (SharesPort a b) :=
  inferInstanceAs (Decidable (_ ∨ _))

instance instDecidableSameID (a b : DeadSourceKey) : Decidable (SameID a b) :=
  inferInstanceAs (Decidable (_ ∧ _ ∧ _ ∧ _))

instance instDecidableSameUserHash (a b : DeadSourceKey) : Decidable (SameUserHash a b) :=
  inferInstanceAs (Decidable (_ ∧ _ ∧ _))

instance instDecidableSame (a b : DeadSourceKey) : Decidable (Same a b) :=
  if h : a.ipv6 ≠ .none ∨ b.ipv6 ≠ .none then
    decidable_of_iff (a.ipv6=b.ipv6 ∧ a.port=b.port) (by rw [Same,if_pos h])
  else decidable_of_iff (SameID a b ∨ SameUserHash a b) (by rw [Same,if_neg h])

/-- The sum over the bytes of the user hash. -/
def userHashWord (k : DeadSourceKey) : UInt64 :=
  UInt64.ofNat (k.hash.bytes.zipIdx.map fun e => (e.1.toNat+1)*(e.2*e.2+1)).sum+1

variable (hash32 : UInt32 → UInt64)

/-- `std::hash<DeadSourceKey>` -/
def stdHash (k : DeadSourceKey) : UInt64 :=
  if k.ipv6 ≠ .none then addressHash hash32 k.ipv6
  else if k.userID≠0 then
    if isLowID k.userID.toNat then k.userID.toUInt64 ^^^ addressHash hash32 k.serverAddress
    else k.userID.toUInt64
  else k.userHashWord

/-- What the map of dead sources is told about its keys. -/
def hashing {ν : Type*} (buckets : List (DeadSourceKey × ν) → Nat) : Hashing DeadSourceKey ν where
  hash k := (stdHash hash32 k).toNat
  same a b := decide (Same a b)
  buckets := buckets

/-- The key says who the source is. -/
def Usable (k : DeadSourceKey) : Prop :=
  k.ipv6 ≠ .none ∨ (k.userID ≠ 0 ∧ (k.port ≠ 0 ∨ k.kadPort ≠ 0)) ∨
    (isLowID k.userID.toNat ∧ k.hash ≠ Digest.zero 16)

instance instDecidableUsable (k : DeadSourceKey) : Decidable (Usable k) :=
  inferInstanceAs (Decidable (_ ∨ _ ∨ _))

/-- The words of two low IDs: of the IDs and their servers, or of the user hashes without an ID. -/
def SameWord (a b : DeadSourceKey) : Prop :=
  if a.userID=0 then
    if b.userID=0 then a.hash=b.hash
    else a.userHashWord=b.userID.toUInt64 ^^^ addressHash hash32 b.serverAddress
  else if b.userID=0 then
    a.userID.toUInt64 ^^^ addressHash hash32 a.serverAddress=b.userHashWord
  else a.userID.toUInt64 ^^^ addressHash hash32 a.serverAddress =
    b.userID.toUInt64 ^^^ addressHash hash32 b.serverAddress

/-- The identities of the keys do not get in each other's way: low IDs with one user hash go by
one word, and a key that matches two others by different identities links them as well. -/
structure Coherent (K : Set DeadSourceKey) : Prop where
  userHash : ∀ a∈K, ∀ b∈K, a.ipv6 = .none → b.ipv6 = .none → SameUserHash a b →
    isLowID b.userID.toNat ∧ SameWord hash32 a b
  ports : ∀ a∈K, ∀ b∈K, ∀ c∈K, a.ipv6 = .none → b.ipv6 = .none → c.ipv6 = .none →
    SameID a b → SameID b c → SharesPort a c ∨ SameUserHash a c
  mixed : ∀ a∈K, ∀ b∈K, ∀ c∈K, a.ipv6 = .none → b.ipv6 = .none → c.ipv6 = .none →
    SameID a b → SameUserHash b c → SameID a c ∨ a.hash=b.hash

variable {hash32}

theorem same_of_ipv6 (h : a.ipv6 ≠ .none ∨ b.ipv6 ≠ .none) :
    Same a b ↔ a.ipv6=b.ipv6 ∧ a.port=b.port := by
  rw [Same,if_pos h]

theorem same_of_none (ha : a.ipv6 = .none) (hb : b.ipv6 = .none) :
    Same a b ↔ SameID a b ∨ SameUserHash a b := by
  have hnone : ¬ (a.ipv6 ≠ .none ∨ b.ipv6 ≠ .none) := by simp [ha,hb]
  rw [Same,if_neg hnone]

theorem Same.ipv6_none (h : Same a b) : a.ipv6 = .none ↔ b.ipv6 = .none := by
  by_cases hv6 : a.ipv6 ≠ .none ∨ b.ipv6 ≠ .none
  · rw [((same_of_ipv6 hv6).mp h).1]
  · tauto

theorem SharesPort.symm (h : SharesPort a b) : SharesPort b a := by
  unfold SharesPort at *
  rcases h with ⟨hne,heq⟩ | ⟨hne,heq⟩
  · exact .inl ⟨heq ▸ hne,heq.symm⟩
  · exact .inr ⟨heq ▸ hne,heq.symm⟩

theorem SameID.symm (h : SameID a b) : SameID b a := by
  obtain ⟨hne,hid,hport,hserver⟩ := h
  exact ⟨hid ▸ hne,hid.symm,hport.symm,hserver.imp Eq.symm fun hhigh => hid ▸ hhigh⟩

theorem SameUserHash.symm (h : SameUserHash a b) (hlow : isLowID b.userID.toNat) : SameUserHash b a :=
  ⟨hlow,h.2.2 ▸ h.2.1,h.2.2.symm⟩

theorem SameID.trans_of_port (hab : SameID a b) (hbc : SameID b c) (hport : SharesPort a c) :
    SameID a c := by
  obtain ⟨hne,hid,-,hserver⟩ := hab
  obtain ⟨-,hid',-,hserver'⟩ := hbc
  refine ⟨hne,hid.trans hid',hport,?_⟩
  rcases hserver with hsame | hhigh
  · exact hserver'.imp hsame.trans fun hhigh => hid ▸ hhigh
  · exact .inr hhigh

theorem stdHash_of_sameID (ha : a.ipv6 = .none) (hb : b.ipv6 = .none) (h : SameID a b) :
    stdHash hash32 a=stdHash hash32 b := by
  obtain ⟨hne,hid,-,hserver⟩ := h
  unfold stdHash
  rw [ha,hb,if_neg (not_not.mpr rfl),if_neg (not_not.mpr rfl),if_pos hne,← hid,if_pos hne]
  split_ifs with hlow
  · rw [hserver.resolve_right (not_not.mpr hlow)]
  · rfl

theorem stdHash_of_low (ha : a.ipv6 = .none) (hlow : isLowID a.userID.toNat) :
    stdHash hash32 a=if a.userID=0 then a.userHashWord
      else a.userID.toUInt64 ^^^ addressHash hash32 a.serverAddress := by
  unfold stdHash
  rw [if_neg (by simp [ha]),if_pos hlow]
  split_ifs <;> tauto

theorem sameWord_iff (ha : a.ipv6 = .none) (hb : b.ipv6 = .none) (h : SameUserHash a b)
    (hlow : isLowID b.userID.toNat) :
    SameWord hash32 a b ↔ stdHash hash32 a=stdHash hash32 b := by
  rw [stdHash_of_low ha h.1,stdHash_of_low hb hlow]
  unfold SameWord
  split_ifs with hida hidb hidb
  · have hword : a.userHashWord=b.userHashWord := by
      unfold userHashWord
      rw [h.2.2]
    exact ⟨fun _ => hword,fun _ => h.2.2⟩
  all_goals exact Iff.rfl

variable {K : Set DeadSourceKey}

theorem lawful_coherent {ν : Type*} {buckets : List (DeadSourceKey × ν) → Nat}
    (h : (hashing hash32 buckets).LawfulOn K) : Coherent hash32 K := by
  have hhash : ∀ a∈K,∀ b∈K,Same a b → stdHash hash32 a=stdHash hash32 b :=
    fun a ha b hb hsame => UInt64.toNat_inj.mp (h.hash_eq a ha b hb (decide_eq_true hsame))
  have hsymm : ∀ a∈K,∀ b∈K,Same a b → Same b a :=
    fun a ha b hb hsame => of_decide_eq_true (h.symm a ha b hb (decide_eq_true hsame))
  have htrans : ∀ a∈K,∀ b∈K,∀ c∈K,Same a b → Same b c → Same a c :=
    fun a ha b hb c hc hab hbc =>
      of_decide_eq_true (h.trans a ha b hb c hc (decide_eq_true hab) (decide_eq_true hbc))
  constructor
  · intro a ha b hb hna hnb hsame
    have hab : Same a b := (same_of_none hna hnb).mpr (.inr hsame)
    have hlow : isLowID b.userID.toNat := by
      rcases (same_of_none hnb hna).mp (hsymm a ha b hb hab) with hid | hhash
      · rw [hid.2.1]
        exact hsame.1
      · exact hhash.1
    exact ⟨hlow,(sameWord_iff hna hnb hsame hlow).mpr (hhash a ha b hb hab)⟩
  · intro a ha b hb c hc hna hnb hnc hab hbc
    have hac := htrans a ha b hb c hc ((same_of_none hna hnb).mpr (.inl hab))
      ((same_of_none hnb hnc).mpr (.inl hbc))
    exact ((same_of_none hna hnc).mp hac).imp_left fun hid => hid.2.2.1
  · intro a ha b hb c hc hna hnb hnc hab hbc
    have hac := htrans a ha b hb c hc ((same_of_none hna hnb).mpr (.inl hab))
      ((same_of_none hnb hnc).mpr (.inr hbc))
    exact ((same_of_none hna hnc).mp hac).imp_right fun hhash => hhash.2.2.trans hbc.2.2.symm

theorem same_self (h : Usable a) : Same a a := by
  by_cases hv6 : a.ipv6 = .none
  · rw [same_of_none hv6 hv6]
    rcases h with h | ⟨hid,hport⟩ | ⟨hlow,hhash⟩
    · exact absurd hv6 h
    · exact .inl ⟨hid,rfl,hport.imp (fun h => ⟨h,rfl⟩) fun h => ⟨h,rfl⟩,.inl rfl⟩
    · exact .inr ⟨hlow,hhash,rfl⟩
  · exact (same_of_ipv6 (.inl hv6)).mpr ⟨rfl,rfl⟩

theorem Coherent.symm (h : Coherent hash32 K) (ha : a∈K) (hb : b∈K) (hab : Same a b) :
    Same b a := by
  by_cases hna : a.ipv6 = .none
  · have hnb := hab.ipv6_none.mp hna
    rw [same_of_none hnb hna]
    rcases (same_of_none hna hnb).mp hab with hid | hhash
    · exact .inl hid.symm
    · exact .inr (hhash.symm (h.userHash a ha b hb hna hnb hhash).1)
  · obtain ⟨haddress,hport⟩ := (same_of_ipv6 (.inl hna)).mp hab
    exact (same_of_ipv6 (.inr hna)).mpr ⟨haddress.symm,hport.symm⟩

theorem Coherent.trans (h : Coherent hash32 K) (ha : a∈K) (hb : b∈K) (hc : c∈K)
    (hab : Same a b) (hbc : Same b c) : Same a c := by
  by_cases hna : a.ipv6 = .none
  · have hnb := hab.ipv6_none.mp hna
    have hnc := hbc.ipv6_none.mp hnb
    rw [same_of_none hna hnc]
    rcases (same_of_none hna hnb).mp hab with hid | hhash
    · rcases (same_of_none hnb hnc).mp hbc with hid' | hhash'
      · exact (h.ports a ha b hb c hc hna hnb hnc hid hid').imp_left (hid.trans_of_port hid')
      · rcases h.mixed a ha b hb c hc hna hnb hnc hid hhash' with hac | hsame
        · exact .inl hac
        · exact .inr ⟨hid.2.1 ▸ hhash'.1,hsame ▸ hhash'.2.1,hsame.trans hhash'.2.2⟩
    · have hlow := (h.userHash a ha b hb hna hnb hhash).1
      rcases (same_of_none hnb hnc).mp hbc with hid' | hhash'
      · rcases h.mixed c hc b hb a ha hnc hnb hna hid'.symm (hhash.symm hlow) with hca | hsame
        · exact .inl hca.symm
        · exact .inr ⟨hhash.1,hhash.2.1,hhash.2.2.trans hsame.symm⟩
      · exact .inr ⟨hhash.1,hhash.2.1,hhash.2.2.trans hhash'.2.2⟩
  · obtain ⟨haddress,hport⟩ := (same_of_ipv6 (.inl hna)).mp hab
    have hnb : b.ipv6 ≠ .none := haddress ▸ hna
    obtain ⟨haddress',hport'⟩ := (same_of_ipv6 (.inl hnb)).mp hbc
    exact (same_of_ipv6 (.inl hna)).mpr ⟨haddress.trans haddress',hport.trans hport'⟩

theorem Coherent.stdHash_eq (h : Coherent hash32 K) (ha : a∈K) (hb : b∈K) (hab : Same a b) :
    stdHash hash32 a=stdHash hash32 b := by
  by_cases hna : a.ipv6 = .none
  · have hnb := hab.ipv6_none.mp hna
    rcases (same_of_none hna hnb).mp hab with hid | hhash
    · exact stdHash_of_sameID hna hnb hid
    · obtain ⟨hlow,hword⟩ := h.userHash a ha b hb hna hnb hhash
      exact (sameWord_iff hna hnb hhash hlow).mp hword
  · obtain ⟨haddress,-⟩ := (same_of_ipv6 (.inl hna)).mp hab
    unfold stdHash
    rw [if_pos hna,if_pos (haddress ▸ hna),haddress]

theorem coherent_lawful {ν : Type*} {buckets : List (DeadSourceKey × ν) → Nat}
    (hK : ∀ k∈K,Usable k) (h : Coherent hash32 K) :
    (hashing hash32 buckets).LawfulOn K where
  hash_eq _ ha _ hb hab := congrArg UInt64.toNat (h.stdHash_eq ha hb (of_decide_eq_true hab))
  refl a ha := decide_eq_true (same_self (hK a ha))
  symm _ ha _ hb hab := decide_eq_true (h.symm ha hb (of_decide_eq_true hab))
  trans _ ha _ hb _ hc hab hbc :=
    decide_eq_true (h.trans ha hb hc (of_decide_eq_true hab) (of_decide_eq_true hbc))

end DeadSourceKey

end EmuleQt.Client
