import EmuleQt.Kademlia.RoutingZone
import Mathlib.Data.Nat.Bitwise
import Mathlib.Tactic.Ring
import Mathlib.Data.List.Induction

namespace EmuleQt.Kademlia

/-- A 128-bit number as it is stored: four words, the most significant one first. -/
structure UInt128Words where
  m_data : List UInt32
  size : m_data.length=4
  deriving DecidableEq

namespace UInt128Words

def word (x : UInt128Words) (i : Nat) : UInt32 := x.m_data.getD i 0

def setWord (x : UInt128Words) (i : Nat) (w : UInt32) : UInt128Words :=
  ⟨x.m_data.set i w,by rw [List.length_set,x.size]⟩

def ofWords (a b c d : UInt32) : UInt128Words := ⟨[a,b,c,d],rfl⟩

def setValue (value : UInt32) : UInt128Words := ofWords 0 0 0 value

def getBitNumber (x : UInt128Words) (bit : Nat) : Bool :=
  if bit > 127 then false
  else decide (((x.word (bit / 32) >>> UInt32.ofNat (31 - bit % 32)) &&& 1) = 1)

def setBitNumber (x : UInt128Words) (bit : Nat) (value : Bool) : UInt128Words :=
  let mask : UInt32 := 1 <<< UInt32.ofNat (31 - bit % 32)
  let set := x.word (bit / 32) ||| mask
  x.setWord (bit / 32) (if value then set else set ^^^ mask)

def xorWith (x value : UInt128Words) : UInt128Words :=
  ofWords (x.word 0 ^^^ value.word 0) (x.word 1 ^^^ value.word 1) (x.word 2 ^^^ value.word 2)
    (x.word 3 ^^^ value.word 3)

/-- From the last word to the first; `i` words are left, and the sum carries. -/
def addLoop (value : UInt128Words) : (i sum : Nat) → UInt128Words → UInt128Words
  | 0, _, x => x
  | i+1, sum, x =>
    let sum := sum+(x.word i).toNat+(value.word i).toNat
    addLoop value i (sum >>> 32) (x.setWord i (UInt32.ofNat sum))

def add (x value : UInt128Words) : UInt128Words :=
  if value = setValue 0 then x else addLoop value 4 0 x

def addSmall (x : UInt128Words) (value : UInt32) : UInt128Words :=
  if value=0 then x else x.add (setValue value)

/-- Down to the word `indexShift`, which becomes the first one. -/
def shiftLoop (x : UInt128Words) (shift indexShift : Nat) :
    (i shifted : Nat) → (result : UInt128Words) → UInt128Words
  | 0, _, result => result
  | i+1, shifted, result =>
    if i < indexShift then result
    else
      let shifted := shifted+(x.word i).toNat <<< shift
      shiftLoop x shift indexShift i (shifted >>> 32)
        (result.setWord (i-indexShift) (UInt32.ofNat shifted))

def shiftLeft (x : UInt128Words) (bits : Nat) : UInt128Words :=
  if bits = 0 ∨ x = setValue 0 then x
  else if bits > 127 then setValue 0
  else shiftLoop x (bits % 32) (bits / 32) 4 0 (setValue 0)

/-- The value keeps its first bits; those from `128 - left` on are drawn, the bit `i` as bit `i` of
`drawn`. -/
def padRandom (drawn : UInt128Words) : (left : Nat) → UInt128Words → UInt128Words
  | 0, x => x
  | left+1, x =>
    padRandom drawn left (x.setBitNumber (127-left) (drawn.getBitNumber (127-left)))

/-- `UInt128(value, numBits)`. -/
def ofPrefix (drawn value : UInt128Words) (numBits : Nat) : UInt128Words :=
  padRandom drawn (128-numBits) value

/-- The number the words stand for. -/
def toNat (x : UInt128Words) : Nat :=
  (((x.word 0).toNat*2^32+(x.word 1).toNat)*2^32+(x.word 2).toNat)*2^32 +
    (x.word 3).toNat

def toBitVec (x : UInt128Words) : KadUInt128 := BitVec.ofNat 128 x.toNat

theorem eq_ofWords (x : UInt128Words) :
    x=ofWords (x.word 0) (x.word 1) (x.word 2) (x.word 3) := by
  match x with
  | ⟨[a,b,c,d],_⟩ => rfl

@[simp] theorem word_ofWords_zero (a b c d : UInt32) : (ofWords a b c d).word 0=a := rfl
@[simp] theorem word_ofWords_one (a b c d : UInt32) : (ofWords a b c d).word 1=b := rfl
@[simp] theorem word_ofWords_two (a b c d : UInt32) : (ofWords a b c d).word 2=c := rfl
@[simp] theorem word_ofWords_three (a b c d : UInt32) : (ofWords a b c d).word 3=d := rfl

@[simp] theorem setWord_ofWords_zero (a b c d w : UInt32) :
    (ofWords a b c d).setWord 0 w=ofWords w b c d := rfl
@[simp] theorem setWord_ofWords_one (a b c d w : UInt32) :
    (ofWords a b c d).setWord 1 w=ofWords a w c d := rfl
@[simp] theorem setWord_ofWords_two (a b c d w : UInt32) :
    (ofWords a b c d).setWord 2 w=ofWords a b w d := rfl
@[simp] theorem setWord_ofWords_three (a b c d w : UInt32) :
    (ofWords a b c d).setWord 3 w=ofWords a b c w := rfl

theorem word_setWord (x : UInt128Words) (i j : Nat) (w : UInt32) (hi : i<4) :
    (x.setWord i w).word j=if j=i then w else x.word j := by
  unfold setWord word
  rw [List.getD_eq_getElem?_getD,List.getD_eq_getElem?_getD,List.getElem?_set]
  by_cases hij : i=j
  · rw [if_pos hij,if_pos hij.symm,if_pos (by rw [x.size]; exact hi)]
    rfl
  · rw [if_neg hij,if_neg (Ne.symm hij)]

theorem toNat_lt (x : UInt128Words) : x.toNat<2^128 := by
  have h0 := (x.word 0).toNat_lt
  have h1 := (x.word 1).toNat_lt
  have h2 := (x.word 2).toNat_lt
  have h3 := (x.word 3).toNat_lt
  unfold toNat
  omega

@[simp] theorem toBitVec_toNat (x : UInt128Words) : x.toBitVec.toNat=x.toNat := by
  rw [toBitVec,BitVec.toNat_ofNat,Nat.mod_eq_of_lt x.toNat_lt]

theorem getBitNumber_of_ge (x : UInt128Words) {bit : Nat} (h : 128≤bit) :
    x.getBitNumber bit=false := by
  unfold getBitNumber
  rw [if_pos (by omega)]

theorem getBitNumber_eq_testBit (x : UInt128Words) {bit : Nat} (hbit : bit<128) :
    x.getBitNumber bit=(x.word (bit/32)).toNat.testBit (31-bit%32) := by
  have hshift : (31-bit%32)%2^32%32=31-bit%32 := by omega
  unfold getBitNumber
  rw [if_neg (by omega)]
  simp only [← UInt32.toNat_inj,UInt32.toNat_and,UInt32.toNat_shiftRight,UInt32.toNat_ofNat',UInt32.toNat_one,
    hshift,Nat.testBit_eq_decide_div_mod_eq,Nat.and_one_is_mod,Nat.shiftRight_eq_div_pow]

theorem toNat_testBit (x : UInt128Words) {bit : Nat} (hbit : bit<128) :
    x.toNat.testBit (127-bit)=(x.word (bit/32)).toNat.testBit (31-bit%32) := by
  have h1 := (x.word 1).toNat_lt
  have h2 := (x.word 2).toNat_lt
  have h3 := (x.word 3).toNat_lt
  have hcase : bit/32=0 ∨ bit/32=1 ∨ bit/32=2 ∨ bit/32=3 := by omega
  unfold toNat
  rw [Nat.mul_comm _ (2^32),Nat.testBit_two_pow_mul_add _ h3,Nat.mul_comm _ (2^32),
    Nat.testBit_two_pow_mul_add _ h2,Nat.mul_comm _ (2^32),Nat.testBit_two_pow_mul_add _ h1]
  obtain h | h | h | h := hcase
  · rw [h,if_neg (by omega),if_neg (by omega),if_neg (by omega),
      show 127-bit-32-32-32=31-bit%32 by omega]
  · rw [h,if_neg (by omega),if_neg (by omega),if_pos (by omega),
      show 127-bit-32-32=31-bit%32 by omega]
  · rw [h,if_neg (by omega),if_pos (by omega),show 127-bit-32=31-bit%32 by omega]
  · rw [h,if_pos (by omega),show 127-bit=31-bit%32 by omega]

theorem getBitNumber_toBitVec (x : UInt128Words) (bit : Nat) :
    Kademlia.getBitNumber x.toBitVec bit=x.getBitNumber bit := by
  by_cases hbit : bit<128
  · rw [getBitNumber_eq_testBit x hbit,← toNat_testBit x hbit,Kademlia.getBitNumber,
      BitVec.getMsbD_eq_getLsbD,decide_eq_true hbit,Bool.true_and,← BitVec.testBit_toNat,
      toBitVec_toNat]
  · rw [getBitNumber_of_ge x (by omega)]
    simp [Kademlia.getBitNumber,BitVec.getMsbD_eq_getLsbD,hbit]

theorem toBitVec_injective {x y : UInt128Words} (h : x.toBitVec=y.toBitVec) : x=y := by
  have hvalue : x.toNat=y.toNat := by rw [← toBitVec_toNat,h,toBitVec_toNat]
  have hx : ∀ i,(x.word i).toNat<2^32 := fun i => (x.word i).toNat_lt
  have hy : ∀ i,(y.word i).toNat<2^32 := fun i => (y.word i).toNat_lt
  have hx1 := hx 1
  have hx2 := hx 2
  have hx3 := hx 3
  have hy1 := hy 1
  have hy2 := hy 2
  have hy3 := hy 3
  unfold toNat at hvalue
  have h0 : x.word 0=y.word 0 := UInt32.toNat_inj.mp (by omega)
  have h1 : x.word 1=y.word 1 := UInt32.toNat_inj.mp (by omega)
  have h2 : x.word 2=y.word 2 := UInt32.toNat_inj.mp (by omega)
  have h3 : x.word 3=y.word 3 := UInt32.toNat_inj.mp (by omega)
  rw [x.eq_ofWords,y.eq_ofWords,h0,h1,h2,h3]

@[simp] theorem toBitVec_zero : (setValue 0).toBitVec=0#128 := rfl

theorem toBitVec_xorWith (x y : UInt128Words) :
    (x.xorWith y).toBitVec=x.toBitVec ^^^ y.toBitVec := by
  apply BitVec.eq_of_getMsbD_eq
  intro i hi
  have hcase : i/32=0 ∨ i/32=1 ∨ i/32=2 ∨ i/32=3 := by omega
  have hword : ((x.xorWith y).word (i/32)).toNat =
      (x.word (i/32)).toNat ^^^ (y.word (i/32)).toNat := by
    obtain h | h | h | h := hcase <;> rw [h] <;> exact UInt32.toNat_xor ..
  have hbit := getBitNumber_toBitVec (x.xorWith y) i
  rw [getBitNumber_eq_testBit _ hi,hword,Nat.testBit_xor,← getBitNumber_eq_testBit x hi,
    ← getBitNumber_eq_testBit y hi,← getBitNumber_toBitVec,← getBitNumber_toBitVec] at hbit
  rw [BitVec.getMsbD_xor]
  exact hbit

theorem toBitVec_add (x y : UInt128Words) : (x.add y).toBitVec=x.toBitVec+y.toBitVec := by
  unfold add
  split_ifs with h
  · rw [h,toBitVec_zero,BitVec.add_zero]
  · apply BitVec.eq_of_toNat_eq
    rw [BitVec.toNat_add,toBitVec_toNat,toBitVec_toNat,toBitVec_toNat,x.eq_ofWords]
    simp only [addLoop,setWord_ofWords_zero,setWord_ofWords_one,setWord_ofWords_two,
      setWord_ofWords_three,toNat,word_ofWords_zero,word_ofWords_one,word_ofWords_two,
      word_ofWords_three,UInt32.toNat_ofNat',Nat.shiftRight_eq_div_pow]
    omega

theorem toBitVec_addSmall (x : UInt128Words) (value : UInt32) :
    (x.addSmall value).toBitVec=x.toBitVec+BitVec.ofNat 128 value.toNat := by
  unfold addSmall
  split_ifs with h
  · simp [h]
  · rw [toBitVec_add]
    simp [toBitVec,toNat,setValue]

theorem toNat_shiftLoop (x : UInt128Words) (shift indexShift : Nat) (h : indexShift<4) :
    (shiftLoop x shift indexShift 4 0 (setValue 0)).toNat =
      x.toNat*2^shift*2^(32*indexShift)%2^128 := by
  have hvalue : x.toNat*2^shift=(((x.word 0).toNat*2^shift*2^32 +
      (x.word 1).toNat*2^shift)*2^32+(x.word 2).toNat*2^shift)*2^32 +
      (x.word 3).toNat*2^shift := by
    unfold toNat
    ring
  rw [hvalue]
  have hcase : indexShift=0 ∨ indexShift=1 ∨ indexShift=2 ∨ indexShift=3 := by omega
  obtain rfl | rfl | rfl | rfl := hcase
  all_goals
    simp only [shiftLoop,setValue,toNat,setWord_ofWords_zero,setWord_ofWords_one,
      setWord_ofWords_two,setWord_ofWords_three,word_ofWords_zero,word_ofWords_one,
      word_ofWords_two,word_ofWords_three,UInt32.toNat_ofNat',UInt32.toNat_zero,
      Nat.shiftRight_eq_div_pow,Nat.shiftLeft_eq,Nat.reduceSub,Nat.reduceLT,↓reduceIte]
    omega

theorem toBitVec_shiftLeft (x : UInt128Words) (bits : Nat) :
    (x.shiftLeft bits).toBitVec=x.toBitVec <<< bits := by
  unfold shiftLeft
  split_ifs with hnone hall
  · obtain h | h := hnone
    · rw [h,BitVec.shiftLeft_zero]
    · rw [h,toBitVec_zero,BitVec.zero_shiftLeft]
  · rw [toBitVec_zero,BitVec.shiftLeft_eq_zero (by omega)]
  · apply BitVec.eq_of_toNat_eq
    rw [toBitVec_toNat,toNat_shiftLoop x _ _ (by omega),BitVec.toNat_shiftLeft,toBitVec_toNat,
      Nat.shiftLeft_eq,Nat.mul_assoc,← Nat.pow_add,Nat.mod_add_div]

theorem getBitNumber_setBitNumber (x : UInt128Words) {bit : Nat} (hbit : bit<128) (value : Bool)
    (i : Nat) :
    (x.setBitNumber bit value).getBitNumber i=if i=bit then value else x.getBitNumber i := by
  by_cases hi : i<128
  · have hshift : (31-bit%32)%2^32%32=31-bit%32 := by omega
    have hmask : ((1 : UInt32) <<< UInt32.ofNat (31-bit%32)).toNat=2^(31-bit%32) := by
      rw [UInt32.toNat_shiftLeft,UInt32.toNat_ofNat',hshift,UInt32.toNat_one,Nat.one_shiftLeft]
      exact Nat.mod_eq_of_lt (Nat.pow_lt_pow_right (by decide) (by omega))
    rw [getBitNumber_eq_testBit _ hi,getBitNumber_eq_testBit x hi]
    unfold setBitNumber
    rw [word_setWord x _ _ _ (by omega)]
    by_cases hword : i/32=bit/32
    · rw [if_pos hword,← hword]
      by_cases heq : i=bit
      · subst heq
        cases value <;> simp [hmask,Nat.testBit_xor,Nat.testBit_or,Nat.testBit_two_pow_self]
      · have hne : 31-bit%32≠31-i%32 := by omega
        rw [if_neg heq]
        cases value <;>
          simp [hmask,Nat.testBit_xor,Nat.testBit_or,Nat.testBit_two_pow_of_ne hne]
    · rw [if_neg hword,if_neg (fun heq => hword (by rw [heq]))]
  · rw [getBitNumber_of_ge _ (by omega),getBitNumber_of_ge _ (by omega),if_neg (by omega)]

theorem getBitNumber_ofPrefix (drawn value : UInt128Words) {numBits : Nat} (h : numBits≤128)
    (i : Nat) :
    (ofPrefix drawn value numBits).getBitNumber i =
      if i<numBits then value.getBitNumber i else drawn.getBitNumber i := by
  have hpad : ∀ (left : Nat) (x : UInt128Words), left≤128 →
      (padRandom drawn left x).getBitNumber i =
        if i<128-left then x.getBitNumber i else drawn.getBitNumber i := by
    intro left
    induction left with
    | zero =>
      intro x _
      rw [padRandom]
      by_cases hi : i<128
      · rw [if_pos (by omega)]
      · rw [getBitNumber_of_ge _ (by omega),getBitNumber_of_ge _ (by omega),ite_self]
    | succ left ih =>
      intro x hleft
      rw [padRandom,ih _ (by omega),getBitNumber_setBitNumber x (by omega)]
      by_cases heq : i=127-left
      · rw [if_pos (by omega),if_pos heq,if_neg (by omega),heq]
      · rw [if_neg heq]
        by_cases hlt : i<128-(left+1)
        · rw [if_pos (by omega),if_pos hlt]
        · rw [if_neg (by omega),if_neg hlt]
  rw [ofPrefix,hpad _ _ (by omega),show 128-(128-numBits)=numBits by omega]

end UInt128Words

namespace RoutingZone

/-- `genSubZone`: the index of the zone on a side. -/
def genSubZone (zoneIndex : UInt128Words) (side : Bool) : UInt128Words :=
  let newIndex := zoneIndex.shiftLeft 1
  if side then newIndex.addSmall 1 else newIndex

def zoneIndex (path : List Bool) : UInt128Words := path.foldl genSubZone (.setValue 0)

def makeRandomLookupTarget (drawn zoneIndex : UInt128Words) (level : Nat)
    (localKadId : UInt128Words) : UInt128Words :=
  (UInt128Words.ofPrefix drawn (zoneIndex.shiftLeft (128 - level)) level).xorWith localKadId

/-- The leaf where a distance belongs. -/
def leafPath (distance : UInt128Words) : (level : Nat) → Zone → List Bool
  | _, .leaf _ => []
  | level, .node zero one =>
    if distance.getBitNumber level then true::leafPath distance (level+1) one
    else false::leafPath distance (level+1) zero

theorem toBitVec_genSubZone (index : UInt128Words) (side : Bool) :
    (genSubZone index side).toBitVec=Zone.subIndex index.toBitVec side := by
  cases side with
  | false => simp [genSubZone,Zone.subIndex,UInt128Words.toBitVec_shiftLeft]
  | true =>
    simp [genSubZone,Zone.subIndex,UInt128Words.toBitVec_addSmall,
      UInt128Words.toBitVec_shiftLeft]

theorem getBitNumber_genSubZone (index : UInt128Words) (side : Bool) (bit : Nat) :
    (genSubZone index side).getBitNumber bit =
      if bit=127 then side else index.getBitNumber (bit+1) := by
  have hdisjoint : (index.toBitVec <<< 1) &&& (if side then 1#128 else 0#128)=0#128 := by
    apply BitVec.eq_of_getLsbD_eq
    intro i hi
    cases side <;> simp [BitVec.getLsbD_one]
    omega
  have hor : Zone.subIndex index.toBitVec side =
      (index.toBitVec <<< 1) ||| (if side then 1#128 else 0#128) :=
    BitVec.add_eq_or_of_and_eq_zero _ _ hdisjoint
  rw [← UInt128Words.getBitNumber_toBitVec,toBitVec_genSubZone,hor,getBitNumber,
    BitVec.getMsbD_or,BitVec.getMsbD_shiftLeft]
  have hnext := UInt128Words.getBitNumber_toBitVec index (bit+1)
  rw [getBitNumber] at hnext
  by_cases hlast : bit=127
  · have hout := index.getBitNumber_of_ge (show 128≤bit+1 by omega)
    rw [if_pos hlast,hnext,hout,hlast]
    cases side <;> rfl
  · have hlow : (if side then 1#128 else 0#128).getMsbD bit=false := by
      cases side <;> simp [BitVec.getMsbD_one]
      omega
    rw [if_neg hlast,hnext,hlow,Bool.or_false]

theorem getBitNumber_zoneIndex (path : List Bool) (hlevel : path.length≤128) {i : Nat}
    (hi : i<path.length) :
    (zoneIndex path).getBitNumber (128-path.length+i)=path[i] := by
  induction path using List.reverseRecOn generalizing i with
  | nil => simp at hi
  | append_singleton path side ih =>
    have hlength : (path++[side]).length=path.length+1 := List.length_append
    have hindex : zoneIndex (path++[side])=genSubZone (zoneIndex path) side := by
      simp [zoneIndex]
    rw [hindex,getBitNumber_genSubZone]
    by_cases hlast : i=path.length
    · subst hlast
      rw [if_pos (by omega)]
      simp
    · have hbefore : i<path.length := by omega
      rw [if_neg (by omega),List.getElem_append_left hbefore,← ih (by omega) hbefore]
      congr 1
      omega

theorem getBitNumber_target (localKadId drawn : UInt128Words) (path : List Bool)
    (hlevel : path.length≤128) (i : Nat) :
    (localKadId.xorWith (makeRandomLookupTarget drawn (zoneIndex path) path.length
      localKadId)).getBitNumber i =
      if h : i<path.length then path[i] else drawn.getBitNumber i := by
  have hcancel : localKadId.xorWith (makeRandomLookupTarget drawn (zoneIndex path) path.length
      localKadId)=UInt128Words.ofPrefix drawn
        ((zoneIndex path).shiftLeft (128-path.length)) path.length := by
    apply UInt128Words.toBitVec_injective
    rw [makeRandomLookupTarget,UInt128Words.toBitVec_xorWith,UInt128Words.toBitVec_xorWith,
      BitVec.xor_comm,BitVec.xor_assoc,BitVec.xor_self,BitVec.xor_zero]
  rw [hcancel,UInt128Words.getBitNumber_ofPrefix _ _ hlevel]
  by_cases hi : i<path.length
  · rw [if_pos hi,dif_pos hi,← UInt128Words.getBitNumber_toBitVec,
      UInt128Words.toBitVec_shiftLeft,getBitNumber,BitVec.getMsbD_shiftLeft]
    have hindex := getBitNumber_zoneIndex path hlevel hi
    rw [← UInt128Words.getBitNumber_toBitVec,getBitNumber,Nat.add_comm] at hindex
    exact hindex
  · rw [if_neg hi,dif_neg hi]

theorem leafPath_of_bits (distance : UInt128Words) (z : Zone) (level : Nat) (path : List Bool)
    (bin : ContactList) (hleaf : z.binAt path=some bin)
    (hbits : ∀ i (h : i<path.length), distance.getBitNumber (level+i)=path[i]) :
    leafPath distance level z=path := by
  induction z generalizing level path with
  | leaf b =>
    cases path with
    | nil => rfl
    | cons bit path => simp [Zone.binAt] at hleaf
  | node zero one ihzero ihone =>
    cases path with
    | nil => simp [Zone.binAt] at hleaf
    | cons bit path =>
      have hfirst : distance.getBitNumber level=bit := hbits 0 (by simp)
      have hrest : ∀ i (h : i<path.length),
          distance.getBitNumber (level+1+i)=path[i] := by
        intro i h
        have hnext := hbits (i+1) (by simpa using h)
        rw [Nat.add_right_comm,Nat.add_assoc]
        simpa using hnext
      rw [leafPath,hfirst]
      cases bit with
      | false => exact congrArg (List.cons false) (ihzero (level+1) path hleaf hrest)
      | true => exact congrArg (List.cons true) (ihone (level+1) path hleaf hrest)

/-- The distance of the random lookup's target starts with the path of the zone and goes on with
the bits drawn, so of all leaves of a tree the zone is the one it belongs in. -/
theorem randomLookupTarget_refreshes (localKadId drawn : UInt128Words) (path : List Bool)
    (hlevel : path.length < 128) :
    let target := makeRandomLookupTarget drawn (zoneIndex path) path.length localKadId
    let distance := localKadId.xorWith target
    (∀ i (h : i<path.length), distance.getBitNumber i=path[i]) ∧
    (∀ i,path.length ≤ i → distance.getBitNumber i=drawn.getBitNumber i) ∧
    ∀ (z : Zone) (p : List Bool) (bin : ContactList), z.binAt path=some bin →
      (leafPath distance 0 z=p ↔ p=path) := by
  intro target distance
  have hbits := getBitNumber_target localKadId drawn path (by omega)
  have hpath : ∀ i (h : i<path.length), distance.getBitNumber i=path[i] := by
    intro i h
    exact (hbits i).trans (dif_pos h)
  refine ⟨hpath,?_,?_⟩
  · intro i h
    exact (hbits i).trans (dif_neg (by omega))
  · intro z p bin hleaf
    have hreached : leafPath distance 0 z=path := by
      refine leafPath_of_bits distance z 0 path bin hleaf ?_
      intro i h
      rw [Nat.zero_add]
      exact hpath i h
    rw [hreached]
    exact eq_comm

/-- A zone a hundred levels down. -/
theorem randomLookupTarget_deep :
    (List.replicate 99 true ++ [false]).length < 128 ∧
    ((UInt128Words.setValue 5).xorWith (makeRandomLookupTarget (.ofWords 0 0 0 7)
      (zoneIndex (List.replicate 99 true ++ [false])) 100 (.setValue 5))).getBitNumber 99 =
      false := by
  have hlevel : (List.replicate 99 true++[false]).length<128 := by decide
  exact ⟨hlevel,(randomLookupTarget_refreshes (.setValue 5) (.ofWords 0 0 0 7) _ hlevel).1 99
    (by decide)⟩

end RoutingZone

end EmuleQt.Kademlia
