import EmuleQt.Framework.Runs
import Mathlib.Data.List.TakeWhile
import Mathlib.Tactic.Ring

namespace EmuleQt.Utils

open Framework

def putVarint (v : Nat) : List UInt8 :=
  if v < 0x80 then [UInt8.ofNat v] else UInt8.ofNat (v % 0x80 + 0x80) :: putVarint (v / 0x80)
termination_by v
decreasing_by omega

def encodeBlockRuns (bits : List Bool) : List UInt8 :=
  if bits = [] then [] else (runLengths true 0 bits).flatMap putVarint

def kMaxBlockRunBits : Nat := 2 ^ 24

/-- The loops of `decodeBlockRuns` between two bytes: the bits built, the value of the next run,
and what has come of its length. -/
structure RunDecoder where
  bits : List Bool
  value : Bool
  run : Nat
  shift : Nat

def RunDecoder.start : RunDecoder := ⟨[], true, 0, 0⟩

def decodeByte (count : Nat) (d : RunDecoder) (b : UInt8) : Option RunDecoder :=
  if 35<d.shift then none
  else
    let run := d.run+b.toNat%0x80*2^d.shift
    if 0x80≤b.toNat then some { d with run := run, shift := d.shift+7 }
    else if count-d.bits.length<run then none
    else some ⟨d.bits++List.replicate run d.value,!d.value,0,0⟩

def decodeBlockRuns (runs : List UInt8) (count : Nat) : Option (List Bool) :=
  if kMaxBlockRunBits < count then none
  else
    match runs.foldlM (decodeByte count) .start with
    | none => none
    -- A length that is cut off has left the shift behind.
    | some d => if d.shift = 0 ∧ d.bits.length = count then some d.bits else none

def blockRanges (bits : List Bool) (value : Bool) (blockSize fileSize : Int) : List Int :=
  if blockSize ≤ 0 ∨ fileSize ≤ 0 then []
  else
    ((maximalRuns (fun bit => bit == value) bits 0 none).takeWhile
      fun r => decide (r.1 * blockSize < fileSize)).flatMap
        fun r => [r.1 * blockSize, min fileSize (r.2 * blockSize) - 1]

variable {count : Nat} {bits : List Bool} {d : RunDecoder}

theorem decodeByte_last {v : Nat} (hv : v<0x80) (hshift : d.shift≤35)
    (hroom : d.run+v*2^d.shift≤count-d.bits.length) :
    decodeByte count d (UInt8.ofNat v) =
      some ⟨d.bits++List.replicate (d.run+v*2^d.shift) d.value,!d.value,0,0⟩ := by
  have hbyte : (UInt8.ofNat v).toNat=v := by
    rw [UInt8.toNat_ofNat']
    omega
  unfold decodeByte
  rw [if_neg (Nat.not_lt.mpr hshift),hbyte,Nat.mod_eq_of_lt hv]
  rw [if_neg (Nat.not_le.mpr hv),if_neg (Nat.not_lt.mpr hroom)]

theorem decodeByte_more {v : Nat} (hv : v<0x80) (hshift : d.shift≤35) :
    decodeByte count d (UInt8.ofNat (v+0x80)) =
      some { d with run := d.run+v*2^d.shift, shift := d.shift+7 } := by
  have hbyte : (UInt8.ofNat (v+0x80)).toNat=v+0x80 := by
    rw [UInt8.toNat_ofNat']
    omega
  have hlow : (v+0x80)%0x80=v := by omega
  unfold decodeByte
  rw [if_neg (Nat.not_lt.mpr hshift),hbyte,hlow]
  rw [if_pos (Nat.le_add_left _ _)]

theorem decode_putVarint (count k v : Nat) (d : RunDecoder) (hv : v<0x80^(k+1))
    (hshift : d.shift+7*k≤35)
    (hroom : d.run+v*2^d.shift≤count-d.bits.length) :
    (putVarint v).foldlM (decodeByte count) d =
      some ⟨d.bits++List.replicate (d.run+v*2^d.shift) d.value,!d.value,0,0⟩ := by
  induction k generalizing v d with
  | zero =>
    rw [putVarint,if_pos (by simpa using hv),List.foldlM_cons,
      decodeByte_last (by simpa using hv) (by omega) hroom]
    rfl
  | succ k ih =>
    rw [putVarint]
    split_ifs with hsmall
    · rw [List.foldlM_cons,decodeByte_last hsmall (by omega) hroom]
      rfl
    · have hlow : v%0x80<0x80 := Nat.mod_lt v (by decide)
      have hhigh : v/0x80<0x80^(k+1) := by
        rw [Nat.div_lt_iff_lt_mul (by decide),← Nat.pow_succ]
        exact hv
      have hvalue : d.run+v%0x80*2^d.shift+v/0x80*2^(d.shift+7) =
          d.run+v*2^d.shift := by
        have hsplit := Nat.div_add_mod v 0x80
        calc d.run+v%0x80*2^d.shift+v/0x80*2^(d.shift+7)
            = d.run+(0x80*(v/0x80)+v%0x80)*2^d.shift := by ring
          _ = d.run+v*2^d.shift := by rw [hsplit]
      have hrest := ih (v/0x80)
        { d with run := d.run+v%0x80*2^d.shift, shift := d.shift+7 } hhigh
        (by dsimp only; omega) (by dsimp only; omega)
      rw [hvalue] at hrest
      rw [List.foldlM_cons,decodeByte_more hlow (by omega)]
      exact hrest

theorem decode_runs (hcount : count≤kMaxBlockRunBits) (ns : List Nat) (bits : List Bool)
    (value : Bool) (hsum : bits.length+ns.sum≤count) : ∃ last,
    (ns.flatMap putVarint).foldlM (decodeByte count) ⟨bits,value,0,0⟩ =
      some ⟨bits++expandRuns value ns,last,0,0⟩ := by
  induction ns generalizing bits value with
  | nil => exact ⟨value,by simp [expandRuns]⟩
  | cons n ns ih =>
    rw [List.sum_cons] at hsum
    have hn : n<0x80^(3+1) := by
      unfold kMaxBlockRunBits at hcount
      omega
    have hone := decode_putVarint count 3 n ⟨bits,value,0,0⟩ hn
      (by dsimp only; omega) (by dsimp only; omega)
    simp only [Nat.zero_add,Nat.pow_zero,Nat.mul_one] at hone
    obtain ⟨last,hlast⟩ := ih (bits++List.replicate n value) (!value) (by
      rw [List.length_append,List.length_replicate]
      omega)
    refine ⟨last,?_⟩
    rw [List.flatMap_cons,List.foldlM_append,hone]
    rw [expandRuns,← List.append_assoc]
    exact hlast

theorem decode_encode (h : bits.length≤kMaxBlockRunBits) :
    decodeBlockRuns (encodeBlockRuns bits) bits.length=some bits := by
  have hfold : ∃ last, (encodeBlockRuns bits).foldlM (decodeByte bits.length) .start =
      some ⟨bits,last,0,0⟩ := by
    unfold encodeBlockRuns
    split_ifs with hempty
    · exact ⟨true,by rw [hempty]; rfl⟩
    · obtain ⟨last,hlast⟩ := decode_runs h (runLengths true 0 bits) [] true (by
        rw [sum_runLengths,List.length_nil]
        omega)
      rw [expandRuns_runLengths] at hlast
      exact ⟨last,hlast⟩
  obtain ⟨last,hlast⟩ := hfold
  unfold decodeBlockRuns
  rw [if_neg (Nat.not_lt.mpr h),hlast]
  exact if_pos ⟨rfl,rfl⟩

theorem decodeByte_bits_le {b : UInt8} {d' : RunDecoder} (hd : d.bits.length≤count)
    (h : decodeByte count d b=some d') : d'.bits.length≤count := by
  unfold decodeByte at h
  split_ifs at h with hshift hmore
  · cases h
    exact hd
  · dsimp only at h
    split_ifs at h with hroom
    cases h
    rw [List.length_append,List.length_replicate]
    omega

theorem decode_bits_le (runs : List UInt8) {d' : RunDecoder} (hd : d.bits.length≤count)
    (h : runs.foldlM (decodeByte count) d=some d') : d'.bits.length≤count := by
  induction runs generalizing d with
  | nil =>
    cases h
    exact hd
  | cons b runs ih =>
    rw [List.foldlM_cons] at h
    cases hb : decodeByte count d b with
    | none =>
      rw [hb] at h
      cases h
    | some next =>
      rw [hb] at h
      exact ih (decodeByte_bits_le hd hb) h

theorem decodeBlockRuns_length {runs : List UInt8} (h : decodeBlockRuns runs count=some bits) :
    bits.length=count := by
  unfold decodeBlockRuns at h
  split_ifs at h
  cases hfold : runs.foldlM (decodeByte count) RunDecoder.start with
  | none =>
    rw [hfold] at h
    cases h
  | some d =>
    rw [hfold] at h
    dsimp only at h
    split_ifs at h with hdone
    cases h
    exact hdone.2

theorem mem_takeWhile {α : Type*} {R : α → α → Prop} {p : α → Bool} {xs : List α} {x : α}
    (horder : xs.Pairwise R) (hends : ∀ a b,a∈xs → R a b → p b=true → p a=true)
    (hx : x∈xs) (hp : p x=true) : x∈xs.takeWhile p := by
  induction xs with
  | nil => cases hx
  | cons y ys ih =>
    obtain ⟨hy,hys⟩ := List.pairwise_cons.mp horder
    rcases List.mem_cons.mp hx with rfl | hmem
    · rw [List.takeWhile_cons_of_pos hp]
      exact List.mem_cons_self
    · rw [List.takeWhile_cons_of_pos (hends y x List.mem_cons_self (hy x hmem) hp)]
      have hrest : ∀ a b,a∈ys → R a b → p b=true → p a=true :=
        fun a b ha => hends a b (List.mem_cons_of_mem y ha)
      exact List.mem_cons_of_mem y (ih hys hrest hmem)

/-! # The bytes of the blocks -/

section

variable {blockSize : Int}

theorem block_lt_block (hsize : 0<blockSize) {i j : Nat} (h : i<j) :
    i*blockSize<j*blockSize :=
  Int.mul_lt_mul_of_pos_right (Int.ofNat_lt.mpr h) hsize

theorem mem_block_run (hsize : 0<blockSize) {x : Int} (hx : 0≤x) (first last : Nat) :
    first*blockSize≤x ∧ x<last*blockSize ↔
      first≤(x/blockSize).toNat ∧ (x/blockSize).toNat<last := by
  have hblock := Int.ediv_nonneg hx hsize.le
  rw [← Int.le_ediv_iff_mul_le hsize,← Int.ediv_lt_iff_lt_mul hsize]
  omega

theorem runs_place (bits : List Bool) (value : Bool) (j : Nat) :
    (∃ r∈maximalRuns (fun bit => bit == value) bits 0 none, r.1≤j ∧ j<r.2) ↔
      ∃ bit, bits[j]? = some bit ∧ bit=value := by
  rw [mem_maximalRuns fun f hf => by cases hf]
  simp

end

/-- The ranges are inclusive, stand in order apart from each other, and are the bytes of the
blocks with the value as far as the file goes. -/
theorem blockRanges_spec (bits : List Bool) (value : Bool) (blockSize fileSize : Int) :
    ∃ ranges : List (Int × Int),
      blockRanges bits value blockSize fileSize=ranges.flatMap (fun r => [r.1,r.2]) ∧
      (∀ r∈ranges,r.1≤r.2) ∧ ranges.Pairwise (fun a b => a.2<b.1) ∧
      ∀ x,(∃ r∈ranges, r.1≤x ∧ x≤r.2) ↔ 0<blockSize ∧ 0≤x ∧ x<fileSize ∧
        bits[(x/blockSize).toNat]? = some value := by
  by_cases hnone : blockSize≤0 ∨ fileSize≤0
  · refine ⟨[],by rw [blockRanges,if_pos hnone]; rfl,by simp,List.Pairwise.nil,?_⟩
    intro x
    constructor
    · rintro ⟨r,hr,-⟩
      cases hr
    · rintro ⟨hsize,hx,hfile,-⟩
      omega
  have hsize : 0<blockSize := by omega
  have hopen : ∀ first∈(none : Option Nat), first<0 := fun f hf => by cases hf
  let runs := maximalRuns (fun bit => bit == value) bits 0 none
  let inFile : Nat × Nat → Bool := fun r => decide (r.1*blockSize<fileSize)
  have horder : runs.Pairwise fun a b => a.2<b.1 := maximalRuns_pairwise hopen
  have hnonempty : ∀ r∈runs,r.1<r.2 := fun r hr => (maximalRuns_bounds hopen hr).1
  refine ⟨(runs.takeWhile inFile).map fun r => (r.1*blockSize, min fileSize (r.2*blockSize)-1),
    ?_,?_,?_,?_⟩
  · rw [blockRanges,if_neg hnone,List.flatMap_map]
  · intro r hr
    obtain ⟨run,hrun,rfl⟩ := List.mem_map.mp hr
    have hin : inFile run=true := List.mem_takeWhile_imp hrun
    have hfile : run.1*blockSize<fileSize := of_decide_eq_true hin
    have hlt := block_lt_block hsize (hnonempty run ((List.takeWhile_prefix _).subset hrun))
    omega
  · apply List.Pairwise.map _ _ (horder.sublist (List.takeWhile_prefix _).sublist)
    intro a b hab
    have hlt := block_lt_block hsize hab
    omega
  · intro x
    constructor
    · rintro ⟨r,hr,hfrom,hto⟩
      obtain ⟨run,hrun,rfl⟩ := List.mem_map.mp hr
      have hmem := (List.takeWhile_prefix inFile).subset hrun
      have hx : 0≤x := le_trans (Int.mul_nonneg (Int.natCast_nonneg _) hsize.le) hfrom
      refine ⟨hsize,hx,by omega,?_⟩
      obtain ⟨hfirst,hlast⟩ := (mem_block_run hsize hx run.1 run.2).mp ⟨hfrom,by omega⟩
      obtain ⟨bit,hbit,heq⟩ := (runs_place bits value _).mp ⟨run,hmem,hfirst,hlast⟩
      rw [← heq]
      exact hbit
    · rintro ⟨-,hx,hfile,hbit⟩
      obtain ⟨run,hrun,hfirst,hlast⟩ := (runs_place bits value _).mpr ⟨value,hbit,rfl⟩
      obtain ⟨hfrom,hto⟩ := (mem_block_run hsize hx run.1 run.2).mpr ⟨hfirst,hlast⟩
      have hin : inFile run=true := decide_eq_true (lt_of_le_of_lt hfrom hfile)
      have hends : ∀ a b,a∈runs → a.2<b.1 → inFile b=true → inFile a=true := by
        intro a b ha hab hb
        have hlt := block_lt_block hsize (Nat.lt_trans (hnonempty a ha) hab)
        exact decide_eq_true (hlt.trans (of_decide_eq_true hb))
      refine ⟨_,List.mem_map.mpr ⟨run,mem_takeWhile horder hends hrun hin,rfl⟩,hfrom,?_⟩
      omega

/-- A bitmap survives its encoding, what is decoded has the length asked for and at no byte more,
and the ranges of a value are the bytes of its blocks. -/
theorem blockRuns_faithful :
    (∀ bits : List Bool, bits.length ≤ kMaxBlockRunBits →
      decodeBlockRuns (encodeBlockRuns bits) bits.length = some bits) ∧
    (∀ (runs : List UInt8) (count : Nat),
      (∀ read d, read <+: runs → read.foldlM (decodeByte count) .start = some d →
        d.bits.length ≤ count) ∧
      (decodeBlockRuns runs count = none ∨
        ∃ bits, decodeBlockRuns runs count = some bits ∧ bits.length = count)) ∧
    (∀ (bits : List Bool) (value : Bool) (blockSize fileSize : Int),
      ∃ ranges : List (Int × Int),
        blockRanges bits value blockSize fileSize = ranges.flatMap (fun r => [r.1, r.2]) ∧
        (∀ r ∈ ranges, r.1 ≤ r.2) ∧ ranges.Pairwise (fun a b => a.2 < b.1) ∧
        ∀ x, (∃ r ∈ ranges, r.1 ≤ x ∧ x ≤ r.2) ↔ 0 < blockSize ∧ 0 ≤ x ∧ x < fileSize ∧
          bits[(x / blockSize).toNat]? = some value) := by
  refine ⟨fun bits hbits => decode_encode hbits,fun runs count => ⟨?_,?_⟩,blockRanges_spec⟩
  · intro read d _ hread
    have hstart : RunDecoder.start.bits.length≤count := Nat.zero_le count
    exact decode_bits_le read hstart hread
  · cases hdecode : decodeBlockRuns runs count with
    | none => exact .inl rfl
    | some bits => exact .inr ⟨bits,rfl,decodeBlockRuns_length hdecode⟩

example : blockRanges [true,false,false,true,false] false 10 45=[10,29,40,44] := by
  decide

end EmuleQt.Utils
