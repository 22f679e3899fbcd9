import EmuleQt.Kademlia.TagList
import Mathlib.Data.Rat.Floor
import Mathlib.Tactic.Positivity

namespace EmuleQt.Kademlia

open Net

/-- How a positive number becomes a `uint16`: what does not fit is undefined in the language and
left to the processor. -/
structure Truncation where
  convert : ℚ → UInt16
  convert_fits : ∀ q : ℚ, 0 ≤ q → q < 65536 → (convert q).toNat = ⌊q⌋₊

/-- Through a wider register, of which the low 16 bits are kept. -/
def Truncation.lowBits : Truncation where
  convert q := UInt16.ofNat ⌊q⌋₊
  convert_fits q hq hlt := by
    have hfloor : ⌊q⌋₊ < 65536 := (Nat.floor_lt hq).mpr (by exact_mod_cast hlt)
    simp [Nat.mod_eq_of_lt hfloor]

def kPublishPointsPerSubnet : ℚ := 10

/-- The points of one publisher: those of its /24 block shared out among all that it published. -/
def share (g : Tracking) (p : PublishingIP) : ℚ :=
  if g (subnet p.ip) > 0 then kPublishPointsPerSubnet / g (subnet p.ip) else 0

def trustOf (g : Tracking) (ips : List PublishingIP) : ℚ := (ips.map (share g)).sum

theorem share_nonneg (g : Tracking) (p : PublishingIP) : 0 ≤ share g p := by
  unfold share kPublishPointsPerSubnet
  split_ifs with h
  · positivity
  · exact le_refl 0

theorem trustOf_nonneg (g : Tracking) (ips : List PublishingIP) : 0≤trustOf g ips := by
  apply List.sum_nonneg
  intro x hx
  obtain ⟨p,-,rfl⟩ := List.mem_map.mp hx
  exact share_nonneg g p

theorem trustOf_append (g : Tracking) (a b : List PublishingIP) :
    trustOf g (a++b)=trustOf g a+trustOf g b := by
  simp [trustOf]

theorem trustOf_alone (g : Tracking) (ips : List PublishingIP)
    (h : ∀ p∈ips,g (subnet p.ip)=1) :
    trustOf g ips=ips.length*kPublishPointsPerSubnet := by
  have hshare : ips.map (share g)=ips.map fun _ => kPublishPointsPerSubnet := by
    apply List.map_congr_left
    intro p hp
    simp [share,h p hp]
  rw [trustOf,hshare]
  simp

theorem trustOf_increase (g : Tracking) (ip : Address) (ips : List PublishingIP) :
    let k := subnet ip
    trustOf (adjustGlobalPublishTracking g ip true) ips=trustOf g ips +
      (ips.countP fun p => decide (subnet p.ip=k)) *
        (kPublishPointsPerSubnet/(g k+1) -
          if g k>0 then kPublishPointsPerSubnet/g k else 0) := by
  intro k
  induction ips with
  | nil => simp [trustOf]
  | cons p ips ih =>
    simp only [trustOf,List.map_cons,List.sum_cons] at ih ⊢
    rw [ih]
    by_cases hp : subnet p.ip=k
    · have hshare : share (adjustGlobalPublishTracking g ip true) p =
          kPublishPointsPerSubnet/(g k+1) := by
        simp [share,adjustGlobalPublishTracking,hp,k]
      have hold : share g p=if g k>0 then kPublishPointsPerSubnet/g k else 0 := by
        simp [share,hp]
      rw [hshare,hold,List.countP_cons_of_pos (by simp [hp])]
      push_cast
      ring
    · have hshare : share (adjustGlobalPublishTracking g ip true) p=share g p := by
        have hne : subnet p.ip≠subnet ip := hp
        simp [share,adjustGlobalPublishTracking,Function.update_of_ne hne]
      rw [hshare,List.countP_cons_of_neg (by simp [hp])]
      ring

theorem trustOf_publish (g : Tracking) (ips : List PublishingIP) (p : PublishingIP)
    (hcounted : (ips.countP fun q => decide (subnet q.ip=subnet p.ip))≤g (subnet p.ip)) :
    trustOf g ips≤trustOf (adjustGlobalPublishTracking g p.ip true) (ips++[p]) := by
  have hnew : trustOf (adjustGlobalPublishTracking g p.ip true) [p] =
      kPublishPointsPerSubnet/(g (subnet p.ip)+1) := by
    simp [trustOf,share,adjustGlobalPublishTracking]
  rw [trustOf_append,hnew,trustOf_increase]
  generalize (ips.countP fun q => decide (subnet q.ip=subnet p.ip))=m at hcounted
  generalize g (subnet p.ip)=c at hcounted
  unfold kPublishPointsPerSubnet
  by_cases hc : c>0
  · have hmc : (m : ℚ)≤c := by exact_mod_cast hcounted
    have hkey : 0≤((m : ℚ)*(10/(c+1)-10/c)+10/(c+1)) := by
      have heq : (m : ℚ)*(10/(c+1)-10/c)+10/(c+1) =
          10*(c-m)/(c*(c+1)) := by
        field_simp
        ring
      rw [heq]
      positivity
    rw [if_pos hc]
    linarith
  · have hm : m=0 := by omega
    rw [hm]
    simp only [Nat.cast_zero,zero_mul,add_zero]
    have hshare : (0 : ℚ)≤10/(c+1) := by positivity
    linarith

/-- A keyword entry with the trust value it remembers. -/
structure TrustedEntry extends KeyEntry where
  trustValue : ℚ
  lastTrustValueCalc : UInt32
  trustValue_nonneg : 0≤trustValue

namespace TrustedEntry

def publishers (e : TrustedEntry) : List PublishingIP := e.publishingIPs.getD []

def recalculateTrustValue (g : Tracking) (e : TrustedEntry) : TrustedEntry :=
  { e with
    trustValue := trustOf g e.publishers
    trustValue_nonneg := trustOf_nonneg g e.publishers }

def getTrustValue (now : UInt32) (g : Tracking) (e : TrustedEntry) : ℚ × TrustedEntry :=
  if e.trustValue = 0 ∨ now - e.lastTrustValueCalc > 600 then
    let e := { e.recalculateTrustValue g with lastTrustValueCalc := now }
    (e.trustValue, e)
  else (e.trustValue, e)

def hundredths (trunc : Truncation) (trust : ℚ) : UInt16 := trunc.convert (trust*100)

/-- The value of `TAG_PUBLISHINFO` as it is written. -/
def writtenPublishInfo (trunc : Truncation) (now : UInt32) (g : Tracking) (e : TrustedEntry) :
    UInt32 :=
  e.toKeyEntry.publishInfo (hundredths trunc (e.getTrustValue now g).1)

/-- The trust value is up to date, as it is when a publisher has been recorded. -/
def Fresh (g : Tracking) (e : TrustedEntry) : Prop := e.trustValue = trustOf g e.publishers

theorem getTrustValue_nonneg (now : UInt32) (g : Tracking) (e : TrustedEntry) :
    0≤(e.getTrustValue now g).1 := by
  unfold getTrustValue
  split_ifs with h
  · exact trustOf_nonneg g e.publishers
  · exact e.trustValue_nonneg

theorem getTrustValue_fresh {now : UInt32} {g : Tracking} {e : TrustedEntry} (h : e.Fresh g) :
    (e.getTrustValue now g).1=trustOf g e.publishers := by
  unfold getTrustValue
  split_ifs with hold
  · rfl
  · exact h

end TrustedEntry

/-- The name count a searcher reads. -/
def namesInInfo (publishInfo : UInt32) : Nat := (publishInfo >>> 24).toNat

def publishersInInfo (publishInfo : UInt32) : Nat := ((publishInfo >>> 16) &&& 0xFF).toNat

def trustInInfo (publishInfo : UInt32) : Nat := (publishInfo &&& 0xFFFF).toNat

namespace KeyEntry

theorem publishInfo_toNat (trust : UInt16) (e : KeyEntry) :
    (e.publishInfo trust).toNat=e.fileNames.length%256*2^24 +
      ((e.publishingIPs.getD []).length%256*2^16+trust.toNat) := by
  unfold publishInfo
  have hnames : e.fileNames.length%256<256 := Nat.mod_lt _ (by decide)
  have hips : (e.publishingIPs.getD []).length%256<256 := Nat.mod_lt _ (by decide)
  have htrust : trust.toNat<65536 := trust.toNat_lt
  generalize e.fileNames.length%256=n at hnames
  generalize (e.publishingIPs.getD []).length%256=p at hips
  generalize trust.toNat=t at htrust
  have hlow : p <<< 16 ||| t=p <<< 16+t :=
    (Nat.shiftLeft_add_eq_or_of_lt (by omega) p).symm
  have hhigh : n <<< 24 ||| (p <<< 16 ||| t)=n <<< 24+(p <<< 16 ||| t) := by
    refine (Nat.shiftLeft_add_eq_or_of_lt ?_ n).symm
    omega
  have hnat : ((UInt32.ofNat n <<< 24) ||| (UInt32.ofNat p <<< 16) ||| UInt32.ofNat t).toNat =
      n <<< 24 ||| (p <<< 16 ||| t) := by
    have hn : n <<< 24<2^32 := by rw [Nat.shiftLeft_eq]; omega
    have hp : p <<< 16<2^32 := by rw [Nat.shiftLeft_eq]; omega
    simp only [UInt32.toNat_or,UInt32.toNat_shiftLeft,UInt32.toNat_ofNat']
    rw [Nat.mod_eq_of_lt (show n<2^32 by omega),Nat.mod_eq_of_lt (show p<2^32 by omega),
      Nat.mod_eq_of_lt (show t<2^32 by omega),Nat.or_assoc]
    simp only [show UInt32.toNat 24%32=24 from rfl,show UInt32.toNat 16%32=16 from rfl,
      Nat.mod_eq_of_lt hn,Nat.mod_eq_of_lt hp]
  rw [hnat,hhigh,hlow,Nat.shiftLeft_eq,Nat.shiftLeft_eq]

theorem namesInInfo_publishInfo (trust : UInt16) (e : KeyEntry) :
    namesInInfo (e.publishInfo trust)=e.fileNames.length%256 := by
  have h := publishInfo_toNat trust e
  have htrust : trust.toNat<65536 := trust.toNat_lt
  have hshift : namesInInfo (e.publishInfo trust)=(e.publishInfo trust).toNat/2^24 := by
    simp [namesInInfo,Nat.shiftRight_eq_div_pow]
  omega

theorem publishersInInfo_publishInfo (trust : UInt16) (e : KeyEntry) :
    publishersInInfo (e.publishInfo trust)=(e.publishingIPs.getD []).length%256 := by
  have h := publishInfo_toNat trust e
  have htrust : trust.toNat<65536 := trust.toNat_lt
  have hshift : publishersInInfo (e.publishInfo trust) =
      (e.publishInfo trust).toNat/2^16%2^8 := by
    simp only [publishersInInfo,UInt32.toNat_and,UInt32.toNat_shiftRight]
    rw [← Nat.and_two_pow_sub_one_eq_mod]
    simp [Nat.shiftRight_eq_div_pow]
  omega

theorem trustInInfo_publishInfo (trust : UInt16) (e : KeyEntry) :
    trustInInfo (e.publishInfo trust)=trust.toNat := by
  have h := publishInfo_toNat trust e
  have htrust : trust.toNat<65536 := trust.toNat_lt
  have hlow : trustInInfo (e.publishInfo trust)=(e.publishInfo trust).toNat%2^16 := by
    rw [← Nat.and_two_pow_sub_one_eq_mod]
    simp [trustInInfo]
  omega

end KeyEntry

theorem hundredths_toNat_iff (trunc : Truncation) {trust : ℚ} (htrust : 0≤trust) :
    (TrustedEntry.hundredths trunc trust).toNat = ⌊trust*100⌋₊ ↔ trust*100<65536 := by
  have hpos : 0≤trust*100 := by positivity
  constructor
  · intro h
    have hlt : ⌊trust*100⌋₊ < 65536 := by
      rw [← h]
      exact (TrustedEntry.hundredths trunc trust).toNat_lt
    exact_mod_cast (Nat.floor_lt hpos).mp hlt
  · intro h
    exact trunc.convert_fits _ hpos h

namespace TrustedEntry

/-- A searcher reads the entry's own numbers back. -/
structure Decodes (trunc : Truncation) (now : UInt32) (g : Tracking) (e : TrustedEntry) : Prop where
  names : namesInInfo (e.writtenPublishInfo trunc now g) = e.fileNames.length
  publishers : publishersInInfo (e.writtenPublishInfo trunc now g) = e.publishers.length
  trust : trustInInfo (e.writtenPublishInfo trunc now g) = ⌊(e.getTrustValue now g).1 * 100⌋₊

theorem decodes_iff (trunc : Truncation) (now : UInt32) (g : Tracking) (e : TrustedEntry)
    (hcap : e.publishers.length≤kMaxPublishers) :
    e.Decodes trunc now g ↔
      e.fileNames.length<256 ∧ (e.getTrustValue now g).1*100<65536 := by
  have hcap' : e.publishers.length≤100 := hcap
  have htrust := hundredths_toNat_iff trunc (e.getTrustValue_nonneg now g)
  have hnames : namesInInfo (e.writtenPublishInfo trunc now g)=e.fileNames.length%256 :=
    KeyEntry.namesInInfo_publishInfo _ _
  have hips : publishersInInfo (e.writtenPublishInfo trunc now g)=e.publishers.length%256 :=
    KeyEntry.publishersInInfo_publishInfo _ _
  have hlow : trustInInfo (e.writtenPublishInfo trunc now g) =
      (hundredths trunc (e.getTrustValue now g).1).toNat := KeyEntry.trustInInfo_publishInfo _ _
  constructor
  · intro h
    refine ⟨?_,htrust.mp (hlow ▸ h.trust)⟩
    have hread := hnames ▸ h.names
    omega
  · intro h
    refine ⟨?_,?_,?_⟩
    · rw [hnames]
      exact Nat.mod_eq_of_lt h.1
    · rw [hips]
      exact Nat.mod_eq_of_lt (by omega)
    · rw [hlow]
      exact htrust.mpr h.2

/-- The entry when a publisher has been recorded. -/
structure Published (g : Tracking) (p : PublishingIP) (e e' : TrustedEntry) : Prop where
  publishers : e'.publishers = e.publishers ++ [p]
  before : e.Fresh g
  after : e'.Fresh (adjustGlobalPublishTracking g p.ip true)

/-- All publishers of the entry in the block of `p` are counted there. -/
def Counted (g : Tracking) (p : PublishingIP) (e : TrustedEntry) : Prop :=
  (e.publishers.countP fun q => decide (subnet q.ip = subnet p.ip)) ≤ g (subnet p.ip)

/-- What a searcher reads are the entry's own numbers just as long as its trust stays below 655.36
and its names below 256, and then another publisher does not lower what is read. -/
theorem publishInfo_decodes (trunc : Truncation) (now : UInt32) (g : Tracking) (e : TrustedEntry)
    (hcap : e.publishers.length ≤ kMaxPublishers) :
    (e.Decodes trunc now g ↔
      e.fileNames.length < 256 ∧ (e.getTrustValue now g).1 * 100 < 65536) ∧
    ∀ (p : PublishingIP) (e' : TrustedEntry), e.Published g p e' → e.Counted g p →
      (e'.getTrustValue now (adjustGlobalPublishTracking g p.ip true)).1 * 100 < 65536 →
      trustInInfo (e.writtenPublishInfo trunc now g) ≤
        trustInInfo (e'.writtenPublishInfo trunc now (adjustGlobalPublishTracking g p.ip true)) := by
  refine ⟨decodes_iff trunc now g e hcap,?_⟩
  intro p e' hpub hcounted hfits
  have hle : (e.getTrustValue now g).1 ≤
      (e'.getTrustValue now (adjustGlobalPublishTracking g p.ip true)).1 := by
    rw [getTrustValue_fresh hpub.before,getTrustValue_fresh hpub.after,hpub.publishers]
    exact trustOf_publish g e.publishers p hcounted
  have hbefore : (e.getTrustValue now g).1*100<65536 := by linarith
  have hread : trustInInfo (e.writtenPublishInfo trunc now g)=_ :=
    KeyEntry.trustInInfo_publishInfo _ _
  have hread' : trustInInfo (e'.writtenPublishInfo trunc now
      (adjustGlobalPublishTracking g p.ip true))=_ := KeyEntry.trustInInfo_publishInfo _ _
  rw [hread,hread',(hundredths_toNat_iff trunc (e.getTrustValue_nonneg _ _)).mpr hbefore,
    (hundredths_toNat_iff trunc (e'.getTrustValue_nonneg _ _)).mpr hfits]
  exact Nat.floor_le_floor (by linarith)

/-- An entry of one name with `n` publishers from `n` networks. -/
def crowd (n : Nat) : TrustedEntry :=
  { KeyEntry.create with
    fileNames := [⟨[], 1⟩]
    publishingIPs := some ((List.range n).map fun i =>
      ⟨0, .ipv4 (UInt32.ofNat (16777216 + 256 * i)), kNoAICHHash⟩)
    trustValue := 0
    lastTrustValueCalc := 0
    trustValue_nonneg := le_refl 0 }

/-- The counts when nothing but the crowd is stored. -/
def crowdTracking (n : Nat) : Tracking := (crowd n).track fun _ => 0

theorem crowd_trust (n : Nat)
    (h : ∀ p∈(crowd n).publishers, crowdTracking n (subnet p.ip)=1) :
    ((crowd n).getTrustValue 0 (crowdTracking n)).1*100=((n*1000 : Nat) : ℚ) := by
  have hlen : (crowd n).publishers.length=n := by simp [crowd,publishers]
  change trustOf (crowdTracking n) (crowd n).publishers*100=_
  rw [trustOf_alone _ _ h,hlen,kPublishPointsPerSubnet]
  push_cast
  ring

theorem crowd_sixtyFive : ∀ p∈(crowd 65).publishers, crowdTracking 65 (subnet p.ip)=1 := by
  decide +kernel

theorem crowd_sixtySix : ∀ p∈(crowd 66).publishers, crowdTracking 66 (subnet p.ip)=1 := by
  decide +kernel

/-- One publisher fits, alone in its network. -/
theorem publishInfo_decodes_one :
    (crowd 1).publishers.length ≤ kMaxPublishers ∧
      (crowd 1).Decodes .lowBits 0 (crowdTracking 1) := by
  have hcap : (crowd 1).publishers.length≤kMaxPublishers := by decide
  have hone : ∀ p∈(crowd 1).publishers, crowdTracking 1 (subnet p.ip)=1 := by decide +kernel
  refine ⟨hcap,(publishInfo_decodes .lowBits 0 (crowdTracking 1) (crowd 1) hcap).1.mpr ?_⟩
  rw [crowd_trust 1 hone]
  exact ⟨by decide,by norm_num⟩

/-- The 66th honest publisher takes what a searcher reads from 65000 hundredths to 464. -/
theorem publishInfo_wraps :
    (crowd 66).publishers.length ≤ kMaxPublishers ∧
    (∀ trunc, ¬ (crowd 66).Decodes trunc 0 (crowdTracking 66)) ∧
    trustInInfo ((crowd 65).writtenPublishInfo .lowBits 0 (crowdTracking 65)) = 65000 ∧
    trustInInfo ((crowd 66).writtenPublishInfo .lowBits 0 (crowdTracking 66)) = 464 := by
  have hcap : (crowd 66).publishers.length≤kMaxPublishers := by decide
  have hfew := crowd_trust 65 crowd_sixtyFive
  have hmany := crowd_trust 66 crowd_sixtySix
  have hread : ∀ n,trustInInfo ((crowd n).writtenPublishInfo .lowBits 0 (crowdTracking n)) =
      (UInt16.ofNat ⌊((crowd n).getTrustValue 0 (crowdTracking n)).1*100⌋₊).toNat :=
    fun n => KeyEntry.trustInInfo_publishInfo _ _
  refine ⟨hcap,?_,?_,?_⟩
  · intro trunc h
    have hfits := ((decodes_iff trunc 0 _ _ hcap).mp h).2
    rw [hmany] at hfits
    norm_num at hfits
  · rw [hread,hfew,Nat.floor_natCast]
    decide
  · rw [hread,hmany,Nat.floor_natCast]
    decide

end TrustedEntry

end EmuleQt.Kademlia
