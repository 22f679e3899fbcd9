import EmuleQt.Kademlia.RandomLookup
import EmuleQt.Utils.QDataStream

namespace EmuleQt.Kademlia

open Math (leBytes leValue leBytes_length leBytes_leValue leValue_lt)
open Utils (bigEndian)

namespace UInt128Words

/-- Which of two numbers is the greater. -/
def threeWay (a b : Nat) : Int := if a<b then -1 else if b<a then 1 else 0

/-- From the first word on; `left` words are still to be compared. -/
def compareLoop (x other : UInt128Words) : (left : Nat) → Int
  | 0 => 0
  | left+1 =>
    let i := 3-left
    if x.word i<other.word i then -1
    else if x.word i>other.word i then 1
    else compareLoop x other left

def compareTo (x other : UInt128Words) : Int := compareLoop x other 4

/-- Two words as one of 64 bits; only whether it is zero is ever asked. -/
def word64 (x : UInt128Words) (i : Nat) : Nat :=
  (x.word (2*i)).toNat+2^32*(x.word (2*i+1)).toNat

/-- `compareTo` with a 32-bit number. -/
def compareToSmall (x : UInt128Words) (value : UInt32) : Int :=
  if x.word64 0>0 ∨ x.word 2>0 ∨ x.word 3>value then 1
  else if x.word 3<value then -1 else 0

/-- From the last word to the first; the shift rounds down, so that the difference borrows. -/
def subtractLoop (value : UInt128Words) : (i : Nat) → (sum : Int) → UInt128Words → UInt128Words
  | 0, _, x => x
  | i+1, sum, x =>
    let sum := sum+(x.word i).toNat-(value.word i).toNat
    subtractLoop value i (sum >>> (32 : Nat)) (x.setWord i (UInt32.ofInt sum))

def subtract (x value : UInt128Words) : UInt128Words :=
  if value.compareToSmall 0 ≠ 0 then subtractLoop value 4 0 x else x

/-- `subtract` of a 32-bit number. -/
def subtractSmall (x : UInt128Words) (value : UInt32) : UInt128Words :=
  if value≠0 then x.subtract (setValue value) else x

/-- One byte is put into its word. -/
def putByte (valueBE : Nat → UInt8) (x : UInt128Words) (i : Nat) : UInt128Words :=
  x.setWord (i/4)
    (x.word (i/4) ||| (valueBE i).toUInt32 <<< UInt32.ofNat (8*(3-i%4)))

def setValueBE (valueBE : Nat → UInt8) : UInt128Words :=
  (List.range 16).foldl (putByte valueBE) (setValue 0)

def xorBE (x : UInt128Words) (valueBE : Nat → UInt8) : UInt128Words :=
  x.xorWith (setValueBE valueBE)

/-- `std::byteswap`. -/
def byteswap (w : UInt32) : UInt32 := UInt32.ofNat (leValue (leBytes 4 w.toNat).reverse)

def toByteArray (x : UInt128Words) : List UInt8 :=
  (List.range 4).flatMap fun i => leBytes 4 (byteswap (x.word i)).toNat

theorem threeWay_eq_zero {a b : Nat} : threeWay a b=0 ↔ a=b := by
  unfold threeWay
  split_ifs <;> simp <;> omega

theorem toNat_injective {x y : UInt128Words} (h : x.toNat=y.toNat) : x=y := by
  apply toBitVec_injective
  apply BitVec.eq_of_toNat_eq
  rw [toBitVec_toNat,toBitVec_toNat,h]

theorem compareTo_eq (x y : UInt128Words) : x.compareTo y=threeWay x.toNat y.toNat := by
  have hx1 := (x.word 1).toNat_lt
  have hx2 := (x.word 2).toNat_lt
  have hx3 := (x.word 3).toNat_lt
  have hy1 := (y.word 1).toNat_lt
  have hy2 := (y.word 2).toNat_lt
  have hy3 := (y.word 3).toNat_lt
  simp only [compareTo,compareLoop,gt_iff_lt,UInt32.lt_iff_toNat_lt,threeWay,toNat,Nat.reduceSub]
  split_ifs <;> first | rfl | omega

theorem compareToSmall_eq (x : UInt128Words) (value : UInt32) :
    x.compareToSmall value=threeWay x.toNat value.toNat := by
  have h1 := (x.word 1).toNat_lt
  have hvalue := value.toNat_lt
  simp only [compareToSmall,word64,gt_iff_lt,UInt32.lt_iff_toNat_lt,threeWay,toNat,
    UInt32.toNat_zero,Nat.reduceMul,Nat.reduceAdd]
  split_ifs <;> first | rfl | omega

theorem compareToSmall_zero (x : UInt128Words) : x.compareToSmall 0=0 ↔ x=setValue 0 := by
  constructor
  · intro h
    rw [compareToSmall_eq,threeWay_eq_zero] at h
    exact toNat_injective h
  · rintro rfl
    rfl

theorem toNat_subtract (x y : UInt128Words) :
    (x.subtract y).toNat=(x.toNat+2^128-y.toNat)%2^128 := by
  have hx := x.toNat_lt
  unfold subtract
  split_ifs with h
  · rw [x.eq_ofWords]
    simp only [subtractLoop,setWord_ofWords_zero,setWord_ofWords_one,setWord_ofWords_two,
      setWord_ofWords_three,toNat,word_ofWords_zero,word_ofWords_one,word_ofWords_two,
      word_ofWords_three,UInt32.ofInt,UInt32.toNat_ofNat',Int.shiftRight_eq_div_pow]
    have h0 := (y.word 0).toNat_lt
    have h1 := (y.word 1).toNat_lt
    have h2 := (y.word 2).toNat_lt
    have h3 := (y.word 3).toNat_lt
    omega
  · rw [(compareToSmall_zero y).mp (not_not.mp h),show (setValue 0).toNat=0 from rfl]
    omega

@[simp] theorem toNat_setValue (value : UInt32) : (setValue value).toNat=value.toNat := by
  simp [toNat,setValue]

theorem toNat_subtractSmall (x : UInt128Words) (value : UInt32) :
    (x.subtractSmall value).toNat=(x.toNat+2^128-value.toNat)%2^128 := by
  unfold subtractSmall
  split_ifs with h
  · rw [toNat_subtract,toNat_setValue]
  · have hx := x.toNat_lt
    rw [not_not.mp h,UInt32.toNat_zero]
    omega

theorem toNat_or_byte (w : UInt32) (b : UInt8) {k : Nat} (hk : k≤3)
    (hw : 2^(8*k+8) ∣ w.toNat) :
    (w ||| b.toUInt32 <<< UInt32.ofNat (8*k)).toNat=w.toNat+b.toNat*2^(8*k) := by
  have hbyte : b.toNat*2^(8*k)<2^(8*k+8) := by
    rw [Nat.pow_add,Nat.mul_comm]
    exact Nat.mul_lt_mul_of_pos_left b.toNat_lt (Nat.two_pow_pos _)
  have hword : 2^(8*k+8)≤2^32 := Nat.pow_le_pow_right (by decide) (by omega)
  obtain ⟨a,ha⟩ := hw
  rw [UInt32.toNat_or,UInt32.toNat_shiftLeft,UInt8.toNat_toUInt32,UInt32.toNat_ofNat',
    show 8*k%2^32%32=8*k by omega,Nat.shiftLeft_eq,
    Nat.mod_eq_of_lt (lt_of_lt_of_le hbyte hword),ha,Nat.two_pow_add_eq_or_of_lt hbyte]

/-- Four bytes, the first of them on top. -/
def wordBE (a b c d : UInt8) : UInt32 :=
  0 ||| a.toUInt32 <<< UInt32.ofNat (8*3) ||| b.toUInt32 <<< UInt32.ofNat (8*2) |||
    c.toUInt32 <<< UInt32.ofNat (8*1) ||| d.toUInt32 <<< UInt32.ofNat (8*0)

theorem toNat_wordBE (a b c d : UInt8) : (wordBE a b c d).toNat=leValue [d,c,b,a] := by
  have h3 := toNat_or_byte 0 a (k := 3) (by omega) (by simp)
  have h2 := toNat_or_byte _ b (k := 2) (by omega) (by rw [h3]; simp)
  have h1 := toNat_or_byte _ c (k := 1) (by omega) (by rw [h2,h3]; simp; omega)
  have h0 := toNat_or_byte _ d (k := 0) (by omega) (by rw [h1,h2,h3]; simp; omega)
  rw [wordBE,h0,h1,h2,h3]
  simp only [leValue,UInt32.toNat_zero]
  omega

theorem putByte_eq (v : Nat → UInt8) (x : UInt128Words) (i : Nat) {k : Nat} (hk : k<4) :
    putByte v x (4*i+k) =
      x.setWord i (x.word i ||| (v (4*i+k)).toUInt32 <<< UInt32.ofNat (8*(3-k))) := by
  rw [putByte,show (4*i+k)/4=i by omega,show (4*i+k)%4=k by omega]

theorem putByte_word (v : Nat → UInt8) (x : UInt128Words) {i : Nat} (hi : i<4)
    (hzero : x.word i=0) :
    [4*i+0,4*i+1,4*i+2,4*i+3].foldl (putByte v) x =
      x.setWord i (wordBE (v (4*i+0)) (v (4*i+1)) (v (4*i+2)) (v (4*i+3))) := by
  have htwice : ∀ a b,(x.setWord i a).setWord i b=x.setWord i b := by
    simp [setWord]
  simp only [List.foldl_cons,List.foldl_nil,putByte_eq v _ i (show 0<4 by decide),
    putByte_eq v _ i (show 1<4 by decide),putByte_eq v _ i (show 2<4 by decide),
    putByte_eq v _ i (show 3<4 by decide),word_setWord x i i _ hi,if_true,htwice,hzero,wordBE,
    Nat.reduceSub]

theorem toNat_setValueBE (v : Nat → UInt8) :
    (setValueBE v).toNat=leValue ((List.range 16).map v).reverse := by
  have hwords : setValueBE v=ofWords (wordBE (v 0) (v 1) (v 2) (v 3))
      (wordBE (v 4) (v 5) (v 6) (v 7)) (wordBE (v 8) (v 9) (v 10) (v 11))
      (wordBE (v 12) (v 13) (v 14) (v 15)) := by
    have hrange : List.range 16=[4*0+0,4*0+1,4*0+2,4*0+3] ++
        [4*1+0,4*1+1,4*1+2,4*1+3] ++
        [4*2+0,4*2+1,4*2+2,4*2+3] ++
        [4*3+0,4*3+1,4*3+2,4*3+3] := rfl
    rw [setValueBE,hrange,List.foldl_append,List.foldl_append,List.foldl_append,
      putByte_word v _ (by decide) rfl,putByte_word v _ (by decide) rfl,
      putByte_word v _ (by decide) rfl,putByte_word v _ (by decide) rfl]
    rfl
  have hrange : List.range 16=[0,1,2,3,4,5,6,7,8,9,10,11,12,13,14,15] := rfl
  rw [hwords,hrange]
  simp only [toNat,word_ofWords_zero,word_ofWords_one,word_ofWords_two,word_ofWords_three,
    toNat_wordBE,List.map_cons,List.map_nil,List.reverse_cons,List.reverse_nil,List.nil_append,
    List.cons_append,leValue]
  omega

theorem byteswap_bytes (w : UInt32) : leBytes 4 (byteswap w).toNat=bigEndian 4 w.toNat := by
  have hlength : (leBytes 4 w.toNat).reverse.length=4 := by simp
  have hlt := leValue_lt (leBytes 4 w.toNat).reverse
  have hbytes := leBytes_leValue (leBytes 4 w.toNat).reverse
  rw [hlength] at hlt hbytes
  rw [byteswap,UInt32.toNat_ofNat',Nat.mod_eq_of_lt (show _ < 2^32 from hlt),hbytes,bigEndian]

theorem leBytes_append {b w : Nat} (hw : w<256^b) (a n : Nat) :
    leBytes (b+a) (n*256^b+w)=leBytes b w++leBytes a n := by
  induction b generalizing w with
  | zero =>
    have hw : w=0 := by simpa using hw
    simp [hw,leBytes]
  | succ b ih =>
    have hbyte : UInt8.ofNat (n*256^(b+1)+w)=UInt8.ofNat w := by
      apply UInt8.toNat_inj.mp
      rw [UInt8.toNat_ofNat',UInt8.toNat_ofNat',Nat.pow_succ,← Nat.mul_assoc]
      omega
    have hrest : (n*256^(b+1)+w)/256=n*256^b+w/256 := by
      rw [Nat.pow_succ,← Nat.mul_assoc]
      omega
    rw [show b+1+a=b+a+1 by omega,leBytes,leBytes,hbyte,hrest,ih (by omega),
      List.cons_append]

theorem toByteArray_eq (x : UInt128Words) : x.toByteArray=bigEndian 16 x.toNat := by
  have hrange : List.range 4=[0,1,2,3] := rfl
  have hword : ∀ i,(x.word i).toNat<256^4 := fun i => (x.word i).toNat_lt
  simp only [toByteArray,hrange,byteswap_bytes,List.flatMap_cons,List.flatMap_nil,bigEndian,
    List.append_nil,← List.reverse_append]
  rw [List.append_assoc,List.append_assoc,← leBytes_append (hword 1),← leBytes_append (hword 2),
    ← leBytes_append (hword 3)]
  rfl

theorem testBit_setBitNumber (x : UInt128Words) {bit : Nat} (hbit : bit<128) (value : Bool)
    (i : Nat) :
    (x.setBitNumber bit value).toNat.testBit i =
      if i=127-bit then value else x.toNat.testBit i := by
  by_cases hi : i<128
  · have hset := getBitNumber_setBitNumber x hbit value (127-i)
    rw [getBitNumber_eq_testBit _ (by omega),← toNat_testBit _ (by omega),
      getBitNumber_eq_testBit _ (by omega),← toNat_testBit _ (by omega),
      show 127-(127-i)=i by omega] at hset
    rw [hset]
    by_cases heq : i=127-bit
    · rw [if_pos (by omega),if_pos heq]
    · rw [if_neg (by omega),if_neg heq]
  · have hpow : 2^128≤2^i := Nat.pow_le_pow_right (by decide) (by omega)
    rw [if_neg (by omega),Nat.testBit_lt_two_pow (lt_of_lt_of_le (toNat_lt _) hpow),
      Nat.testBit_lt_two_pow (lt_of_lt_of_le (toNat_lt _) hpow)]

/-- The words are a number modulo 2 ^ 128, and their operations are its operations. -/
theorem agrees_mod_two_pow (x y : UInt128Words) (value : UInt32) (bits : Nat)
    (valueBE : Nat → UInt8) {bit : Nat} (hbit : bit < 128) :
    (x.add y).toNat = (x.toNat + y.toNat) % 2 ^ 128 ∧
    (x.addSmall value).toNat = (x.toNat + value.toNat) % 2 ^ 128 ∧
    (x.subtract y).toNat = (x.toNat + 2 ^ 128 - y.toNat) % 2 ^ 128 ∧
    (x.subtractSmall value).toNat = (x.toNat + 2 ^ 128 - value.toNat) % 2 ^ 128 ∧
    (x.shiftLeft bits).toNat = x.toNat * 2 ^ bits % 2 ^ 128 ∧
    x.getBitNumber bit = x.toNat.testBit (127 - bit) ∧
    (∀ i, (x.setBitNumber bit (decide (value ≠ 0))).toNat.testBit i =
      if i = 127 - bit then decide (value ≠ 0) else x.toNat.testBit i) ∧
    x.compareTo y = threeWay x.toNat y.toNat ∧
    x.compareToSmall value = threeWay x.toNat value.toNat ∧
    (x.xorWith y).toNat = x.toNat ^^^ y.toNat ∧
    (x.xorBE valueBE).toNat = x.toNat ^^^ leValue ((List.range 16).map valueBE).reverse ∧
    (setValueBE valueBE).toNat = leValue ((List.range 16).map valueBE).reverse ∧
    x.toByteArray = bigEndian 16 x.toNat ∧
    (setValueBE valueBE).toByteArray = (List.range 16).map valueBE := by
  have hxor : ∀ y : UInt128Words, (x.xorWith y).toNat=x.toNat ^^^ y.toNat := by
    intro y
    rw [← toBitVec_toNat,toBitVec_xorWith,BitVec.toNat_xor,toBitVec_toNat,toBitVec_toNat]
  refine ⟨?_,?_,toNat_subtract x y,toNat_subtractSmall x value,?_,?_,
    testBit_setBitNumber x hbit _,compareTo_eq x y,compareToSmall_eq x value,hxor y,?_,
    toNat_setValueBE valueBE,toByteArray_eq x,?_⟩
  · rw [← toBitVec_toNat,toBitVec_add,BitVec.toNat_add,toBitVec_toNat,toBitVec_toNat]
  · have hvalue : value.toNat<2^128 := lt_trans value.toNat_lt (by decide)
    rw [← toBitVec_toNat,toBitVec_addSmall,BitVec.toNat_add,toBitVec_toNat,BitVec.toNat_ofNat,
      Nat.mod_eq_of_lt hvalue]
  · rw [← toBitVec_toNat,toBitVec_shiftLeft,BitVec.toNat_shiftLeft,toBitVec_toNat,
      Nat.shiftLeft_eq]
  · rw [getBitNumber_eq_testBit x hbit,toNat_testBit x hbit]
  · rw [xorBE,hxor,toNat_setValueBE]
  · have hbytes := leBytes_leValue ((List.range 16).map valueBE).reverse
    rw [List.length_reverse,List.length_map,List.length_range] at hbytes
    rw [toByteArray_eq,toNat_setValueBE,bigEndian,hbytes,List.reverse_reverse]

/-- A carry out of the last word. -/
theorem agrees_mod_two_pow_border :
    ((ofWords 0 0 0 4294967295).add (setValue 1)).toNat = 2 ^ 32 ∧
    ((ofWords 0 0 0 4294967295).shiftLeft 33).toNat = 4294967295 * 2 ^ 33 ∧
    (ofWords 0 0 0 4294967295).getBitNumber 96 = true := by
  obtain ⟨hadd,-,-,-,hshift,hbit,-⟩ := agrees_mod_two_pow (ofWords 0 0 0 4294967295) (setValue 1) 1
    33 (fun _ => 0) (show 96<128 by decide)
  exact ⟨hadd,hshift,hbit.trans (by decide)⟩

end UInt128Words

end EmuleQt.Kademlia
