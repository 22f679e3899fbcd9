import EmuleQt.Math.LittleEndian
import EmuleQt.Net.Address
import Mathlib.Data.Prod.Lex
import Mathlib.Order.Bounds.Basic

namespace EmuleQt.IpFilter

open Math Net

/-- The keys a table of ranges may have, with the steps to their neighbours; the steps past an end
of the key space are not described. -/
class RangeKey (κ : Type) extends LinearOrder κ where
  keyNext : κ → κ
  keyPrev : κ → κ
  keyIsMax : κ → Bool
  keyIsMax_iff : ∀ {k : κ}, keyIsMax k = true ↔ ∀ x, x ≤ k
  lt_keyNext : ∀ {k x : κ}, keyIsMax k = false → (x < keyNext k ↔ x ≤ k)
  le_keyPrev : ∀ {k x y : κ}, y < k → (x ≤ keyPrev k ↔ x < k)

instance linearOrderUInt32 : LinearOrder UInt32 where
  le_refl := UInt32.le_refl
  le_trans _ _ _ := UInt32.le_trans
  le_antisymm _ _ := UInt32.le_antisymm
  lt_iff_le_not_ge a b := by
    rw [UInt32.lt_iff_toNat_lt,UInt32.le_iff_toNat_le,UInt32.le_iff_toNat_le]
    omega
  le_total a b := UInt32.le_total a b
  toDecidableLE := inferInstance

instance : RangeKey UInt32 where
  keyNext k := k+1
  keyPrev k := k-1
  keyIsMax k := decide (k=0xFFFFFFFF)
  keyIsMax_iff {k} := by
    rw [decide_eq_true_eq]
    constructor
    · rintro rfl x
      have hx := x.toNat_lt
      rw [UInt32.le_iff_toNat_le]
      exact Nat.le_of_lt_succ hx
    · intro h
      exact UInt32.le_antisymm (UInt32.le_iff_toNat_le.mpr (Nat.le_of_lt_succ k.toNat_lt)) (h _)
  lt_keyNext {k x} h := by
    have hk := k.toNat_lt
    have hne : k.toNat≠2^32-1 := fun heq => by
      have hmax : k=0xFFFFFFFF := UInt32.toNat_inj.mp heq
      simp [hmax] at h
    have hnext : (k+1).toNat=k.toNat+1 := by
      rw [UInt32.toNat_add]
      exact Nat.mod_eq_of_lt (by simp; omega)
    rw [UInt32.lt_iff_toNat_lt,UInt32.le_iff_toNat_le,hnext]
    exact Nat.lt_succ_iff
  le_keyPrev {k x y} h := by
    have hpos : 0<k.toNat := Nat.lt_of_le_of_lt (Nat.zero_le _) (UInt32.lt_iff_toNat_lt.mp h)
    have hprev : (k-1).toNat=k.toNat-1 :=
      UInt32.toNat_sub_of_le _ _ (UInt32.le_iff_toNat_le.mpr hpos)
    rw [UInt32.lt_iff_toNat_lt,UInt32.le_iff_toNat_le,hprev]
    omega

/-- One more, the least significant byte first; the last carry is lost. -/
def increment : List UInt8 → List UInt8
  | [] => []
  | b :: bs => if b + 1 ≠ 0 then (b + 1) :: bs else (b + 1) :: increment bs

/-- One less, the least significant byte first; the last borrow is lost. -/
def decrement : List UInt8 → List UInt8
  | [] => []
  | b :: bs => if b ≠ 0 then (b - 1) :: bs else (b - 1) :: decrement bs

@[simp] theorem increment_length (bs : List UInt8) : (increment bs).length=bs.length := by
  induction bs with
  | nil => rfl
  | cons b bs ih =>
    rw [increment]
    split_ifs <;> simp [ih]

@[simp] theorem decrement_length (bs : List UInt8) : (decrement bs).length=bs.length := by
  induction bs with
  | nil => rfl
  | cons b bs ih =>
    rw [decrement]
    split_ifs <;> simp [ih]

theorem leValue_increment {bs : List UInt8} (h : leValue bs+1<256^bs.length) :
    leValue (increment bs)=leValue bs+1 := by
  induction bs with
  | nil => simp [leValue] at h
  | cons b bs ih =>
    have hb := b.toNat_lt
    have hnext : (b+1).toNat=(b.toNat+1)%256 := UInt8.toNat_add b 1
    rw [increment]
    split_ifs with hcarry
    · have hne : b.toNat+1≠256 := fun heq => hcarry (UInt8.toNat_inj.mp (by
        rw [hnext,heq]
        rfl))
      rw [leValue,leValue,hnext,Nat.mod_eq_of_lt (by omega)]
      omega
    · have hzero : b+1=0 := not_not.mp hcarry
      have hlast : b.toNat=255 := by
        have hmod := congrArg UInt8.toNat hzero
        simp at hmod
        omega
      rw [leValue,List.length_cons,Nat.pow_succ] at h
      rw [leValue,leValue,hzero,ih (by omega)]
      simp
      omega

theorem leValue_decrement {bs : List UInt8} (h : 0<leValue bs) :
    leValue (decrement bs)=leValue bs-1 := by
  induction bs with
  | nil => simp [leValue] at h
  | cons b bs ih =>
    rw [decrement]
    split_ifs with hborrow
    · have hpos : 0<b.toNat := Nat.pos_of_ne_zero fun h0 => hborrow (UInt8.toNat_inj.mp h0)
      have hprev : (b-1).toNat=b.toNat-1 :=
        UInt8.toNat_sub_of_le _ _ (UInt8.le_iff_toNat_le.mpr hpos)
      rw [leValue,leValue,hprev]
      omega
    · have hzero : b=0 := not_not.mp hborrow
      rw [leValue,hzero] at h
      rw [leValue,leValue,hzero,ih (by simpa using h)]
      simp at h ⊢
      omega

/-- `std::array<uint8, 16>` in network order. -/
abbrev V6Key := IPv6Bytes

namespace V6Key

/-- The number the bytes stand for. -/
def value (k : V6Key) : Nat := leValue k.bytes.reverse

theorem value_lt (k : V6Key) : k.value<256^16 := by
  have hlt := leValue_lt k.bytes.reverse
  rwa [List.length_reverse,k.size] at hlt

theorem ext_bytes {a b : V6Key} (h : a.bytes=b.bytes) : a=b := by
  cases a
  cases h
  rfl

theorem value_injective : Function.Injective value := by
  intro a b h
  have hbytes := congrArg (leBytes 16) h
  have hself : ∀ k : V6Key, leBytes 16 (value k)=k.bytes.reverse := fun k => by
    have hk := leBytes_leValue k.bytes.reverse
    rwa [List.length_reverse,k.size] at hk
  rw [hself,hself,List.reverse_inj] at hbytes
  exact ext_bytes hbytes

end V6Key

instance : LinearOrder V6Key := LinearOrder.lift' V6Key.value V6Key.value_injective

namespace V6Key

theorem le_iff {a b : V6Key} : a≤b ↔ a.value≤b.value := Iff.rfl

theorem lt_iff {a b : V6Key} : a<b ↔ a.value<b.value := Iff.rfl

theorem leValue_reverse_cons (b : UInt8) (bs : List UInt8) :
    leValue (b::bs).reverse=leValue bs.reverse+256^bs.length*b.toNat := by
  have happend : ∀ xs : List UInt8,
      leValue (xs++[b])=leValue xs+256^xs.length*b.toNat := by
    intro xs
    induction xs with
    | nil => simp [leValue]
    | cons x xs ih =>
      rw [List.cons_append,leValue,ih,leValue,List.length_cons,Nat.pow_succ]
      ring
  rw [List.reverse_cons,happend,List.length_reverse]

theorem lex_iff {xs ys : List UInt8} (h : xs.length=ys.length) :
    List.Lex (· < ·) xs ys ↔ leValue xs.reverse<leValue ys.reverse := by
  induction xs generalizing ys with
  | nil =>
    rw [List.length_eq_zero_iff.mp h.symm]
    simp
  | cons x xs ih =>
    cases ys with
    | nil => simp at h
    | cons y ys =>
      have hlength : xs.length=ys.length := by simpa using h
      have hx := leValue_lt xs.reverse
      have hy := leValue_lt ys.reverse
      rw [List.length_reverse] at hx hy
      rw [← hlength] at hy
      rw [leValue_reverse_cons,leValue_reverse_cons,← hlength,List.cons_lex_cons_iff,ih hlength,
        UInt8.lt_iff_toNat_lt]
      rcases Nat.lt_trichotomy x.toNat y.toNat with hlt | heq | hgt
      · have hmul := Nat.mul_le_mul_left (256^xs.length) hlt
        rw [Nat.mul_succ] at hmul
        exact iff_of_true (Or.inl hlt) (by omega)
      · have hxy : x=y := UInt8.toNat_inj.mp heq
        simp [hxy]
      · have hmul := Nat.mul_le_mul_left (256^xs.length) hgt
        rw [Nat.mul_succ] at hmul
        have hne : x≠y := fun hxy => by simp [hxy] at hgt
        exact iff_of_false (by simp [hne]; omega) (by omega)

theorem lt_iff_lex (a b : V6Key) : a<b ↔ List.Lex (· < ·) a.bytes b.bytes := by
  rw [lt_iff,lex_iff (a.size.trans b.size.symm)]
  rfl

def keyNext (k : V6Key) : V6Key := ⟨(increment k.bytes.reverse).reverse, by simp [k.size]⟩

def keyPrev (k : V6Key) : V6Key := ⟨(decrement k.bytes.reverse).reverse, by simp [k.size]⟩

def keyIsMax (k : V6Key) : Bool := k.bytes.all fun b => decide (b = 0xFF)

theorem leValue_replicate (n : Nat) : leValue (List.replicate n 0xFF)+1=256^n := by
  induction n with
  | zero => rfl
  | succ n ih =>
    rw [List.replicate_succ,leValue,Nat.pow_succ,← ih]
    simp
    ring

def maxKey : V6Key := ⟨List.replicate 16 0xFF,List.length_replicate⟩

theorem keyIsMax_iff_value (k : V6Key) : keyIsMax k=true ↔ k.value=256^16-1 := by
  have hmax : value maxKey=256^16-1 := by
    have hall := leValue_replicate 16
    rw [value,maxKey,List.reverse_replicate]
    omega
  have hbytes : keyIsMax k=true ↔ k.bytes=List.replicate 16 0xFF := by
    rw [List.eq_replicate_iff,keyIsMax,List.all_eq_true]
    simp [k.size]
  rw [hbytes,← hmax,value_injective.eq_iff]
  exact ⟨fun h => ext_bytes h,fun h => by rw [h,maxKey]⟩

end V6Key

instance : RangeKey V6Key where
  keyNext := V6Key.keyNext
  keyPrev := V6Key.keyPrev
  keyIsMax := V6Key.keyIsMax
  keyIsMax_iff {k} := by
    rw [V6Key.keyIsMax_iff_value]
    constructor
    · intro h x
      have hx := x.value_lt
      rw [V6Key.le_iff]
      omega
    · intro h
      have hmax : V6Key.keyIsMax V6Key.maxKey=true := by decide
      have hle := V6Key.le_iff.mp (h V6Key.maxKey)
      rw [(V6Key.keyIsMax_iff_value _).mp hmax] at hle
      have hk := k.value_lt
      omega
  lt_keyNext {k x} h := by
    have hne : k.value≠256^16-1 := fun heq => by
      rw [(V6Key.keyIsMax_iff_value k).mpr heq] at h
      cases h
    have hnext : (V6Key.keyNext k).value=k.value+1 := by
      have hlt := k.value_lt
      rw [V6Key.keyNext,V6Key.value,List.reverse_reverse]
      refine leValue_increment ?_
      rw [List.length_reverse,k.size]
      change k.value+1<_
      omega
    rw [V6Key.lt_iff,V6Key.le_iff,hnext]
    exact Nat.lt_succ_iff
  le_keyPrev {k x y} h := by
    have hpos : 0<k.value := Nat.lt_of_le_of_lt (Nat.zero_le _) (V6Key.lt_iff.mp h)
    have hprev : (V6Key.keyPrev k).value=k.value-1 := by
      rw [V6Key.keyPrev,V6Key.value,List.reverse_reverse]
      exact leValue_decrement hpos
    rw [V6Key.lt_iff,V6Key.le_iff,hprev]
    omega

open RangeKey

/-- One blocked range; both ends belong to it. -/
structure IPFilterEntry (κ : Type) where
  start : κ
  stop : κ
  level : UInt32
  hits : UInt32
  desc : String
  deriving DecidableEq

variable {κ : Type} [RangeKey κ]

namespace IPFilterEntry

/-- The comparator of `std::sort`. -/
def precedes (a b : IPFilterEntry κ) : Bool :=
  if a.start ≠ b.start then decide (a.start < b.start)
  else if a.stop ≠ b.stop then decide (a.stop < b.stop)
  else decide (a.level < b.level)

def covers (e : IPFilterEntry κ) (k : κ) : Prop := e.start ≤ k ∧ k ≤ e.stop

instance (e : IPFilterEntry κ) (k : κ) : Decidable (e.covers k) :=
  inferInstanceAs (Decidable (_ ∧ _))

def sameRange (a b : IPFilterEntry κ) : Bool :=
  decide (a.start=b.start ∧ a.stop=b.stop ∧ a.level=b.level)

end IPFilterEntry

/-- `std::unique`: of equal neighbours one is left. -/
def unique : List κ → List κ
  | [] => []
  | [x] => [x]
  | x :: y :: l => if x = y then unique (y :: l) else x :: unique (y :: l)

/-- The key space is cut where a range starts, and after one ends. -/
def cutsOf (entries : List (IPFilterEntry κ)) : List κ :=
  entries.flatMap fun e => e.start::if keyIsMax e.stop then [] else [keyNext e.stop]

/-- The heap of the ranges that have started, the strictest on top; the ranges come in their order,
so of equal levels the earlier stays above. -/
def push (e : IPFilterEntry κ) : List (IPFilterEntry κ) → List (IPFilterEntry κ)
  | [] => [e]
  | top :: active => if e.level < top.level then e :: top :: active else top :: push e active

/-- The ranges that start at a cut go on the heap. -/
def pushStarting (start : κ) : (waiting active : List (IPFilterEntry κ)) →
    List (IPFilterEntry κ) × List (IPFilterEntry κ)
  | [], active => ([], active)
  | e::waiting, active =>
    if e.start=start then pushStarting start waiting (push e active) else (e::waiting, active)

/-- A piece with its level; `merged` has the last piece first. -/
def extend (start stop : κ) (top : IPFilterEntry κ) (merged : List (IPFilterEntry κ)) :
    List (IPFilterEntry κ) :=
  let whole := decide (top.start = start ∧ top.stop = stop)
  let piece := ⟨start, stop, top.level, if whole then top.hits else 0, top.desc⟩
  match merged with
  | [] => [piece]
  | back :: rest =>
    if back.level = top.level ∧ keyIsMax back.stop = false ∧ keyNext back.stop = start then
      { back with stop := stop } :: rest
    else piece :: back :: rest

/-- Where a piece ends: no later cut means that the covering range runs to the top of the key
space. -/
def pieceStop (cuts : List κ) (top : IPFilterEntry κ) : κ :=
  match cuts with
  | next::_ => keyPrev next
  | [] => top.stop

/-- The boundary sweep over the cuts that are left. -/
def sweepCuts : (cuts : List κ) → (waiting active merged : List (IPFilterEntry κ)) →
    List (IPFilterEntry κ)
  | [], _, _, merged => merged
  | start::cuts, waiting, active, merged =>
    let (waiting, active) := pushStarting start waiting active
    -- ended ranges are dropped only where they come to the top
    let active := active.dropWhile fun e => decide (e.stop<start)
    match active with
    | [] => sweepCuts cuts waiting [] merged
    | top::rest =>
      sweepCuts cuts waiting (top::rest) (extend start (pieceStop cuts top) top merged)

def sortAndMergeRanges (entries : List (IPFilterEntry κ)) (modified : Bool) :
    List (IPFilterEntry κ) × Bool :=
  if entries.length < 2 then (entries, modified)
  else
    let entries := (entries.filter fun e => !decide (e.stop < e.start)).mergeSort
      fun a b => !b.precedes a
    let cuts := unique ((cutsOf entries).mergeSort fun a b => decide (a ≤ b))
    let merged := (sweepCuts cuts entries [] []).reverse
    let same := decide (merged.length = entries.length) &&
      (merged.zip entries).all fun (a, b) => a.sameRange b
    (merged, if same then modified else true)

/-- The levels of the ranges that cover a key. -/
def levelsAt (entries : List (IPFilterEntry κ)) (k : κ) : Set UInt32 :=
  {l | ∃ e∈entries, e.covers k ∧ e.level=l}

/-- Each range starts after the one before it has ended. -/
def Disjoint (entries : List (IPFilterEntry κ)) : Prop :=
  entries.Pairwise fun a b => a.start < b.start ∧ a.stop < b.start

/-- Every key has the strictest level of the ranges that cover it, and only that. -/
def Strictest (entries merged : List (IPFilterEntry κ)) : Prop :=
  ∀ k l, l ∈ levelsAt merged k ↔ IsLeast (levelsAt entries k) l

end EmuleQt.IpFilter
