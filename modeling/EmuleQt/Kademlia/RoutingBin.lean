import EmuleQt.Kademlia.Contact

namespace EmuleQt.Kademlia

open Net

def kK : Nat := 10
def kMaxContactsSubnet : Nat := 10
def kMaxContactsIP : Nat := 1
def kReplaceMargin : Int := 120

/-- The /24 an address lies in. -/
def subnetOf (ip : UInt32) : UInt32 := ip &&& 0xFFFFFF00

def sameSubnet (a b : UInt32) : Bool := (a ^^^ b) &&& 0xFFFFFF00 == 0

def isLan (ip : UInt32) : Bool := (Address.fromHostOrder ip).isLan

theorem sameSubnet_iff (a b : UInt32) : sameSubnet a b=true ↔ subnetOf a=subnetOf b := by
  have hdistrib : (a ^^^ b) &&& 0xFFFFFF00=subnetOf a ^^^ subnetOf b := by
    apply UInt32.toBitVec_inj.mp
    apply BitVec.eq_of_getLsbD_eq
    simp [subnetOf,Bool.and_xor_distrib_right]
  rw [sameSubnet,hdistrib,beq_iff_eq,UInt32.xor_eq_zero_iff]

theorem subnetOf_toNat (ip : UInt32) : (subnetOf ip).toNat/2^16=ip.toNat/2^16 := by
  have hmask : (0xFFFFFF00 : UInt32).toNat >>> 16=2^16-1 := by decide
  have hsize := ip.toNat_lt
  rw [subnetOf,UInt32.toNat_and,← Nat.shiftRight_eq_div_pow,Nat.shiftRight_and_distrib,hmask,
    Nat.and_two_pow_sub_one_eq_mod,Nat.shiftRight_eq_div_pow]
  omega

theorem isLan_eq (ip : UInt32) : isLan ip =
    let a := ip.toNat/2^24
    let b := ip.toNat/2^16%2^8
    decide (a=10 ∨ (a=172 ∧ 16≤b ∧ b≤31) ∨ (a=192 ∧ b=168) ∨ a=127 ∨
      (a=169 ∧ b=254)) := by
  unfold isLan Address.fromHostOrder
  split_ifs with h
  · subst h
    rfl
  · rfl

theorem isLan_congr {a b : UInt32} (h : subnetOf a=subnetOf b) : isLan a=isLan b := by
  have hlead : a.toNat/2^16=b.toNat/2^16 := by
    rw [← subnetOf_toNat a,h,subnetOf_toNat b]
  have hfirst : a.toNat/2^24=b.toNat/2^24 := by omega
  rw [isLan_eq,isLan_eq,hlead,hfirst]

/-- `s_globalContactIPs` and `s_globalContactSubnets`. -/
structure GlobalTracking where
  contactIPs : UInt32 → Nat
  contactSubnets : UInt32 → Nat

def GlobalTracking.empty : GlobalTracking := ⟨fun _ => 0, fun _ => 0⟩

def adjustGlobalTracking (g : GlobalTracking) (ip : UInt32) (increase : Bool) : GlobalTracking :=
  let next (n : Nat) := if increase then n + 1 else n - 1
  { contactIPs := Function.update g.contactIPs ip (next (g.contactIPs ip))
    contactSubnets := Function.update g.contactSubnets (subnetOf ip)
      (next (g.contactSubnets (subnetOf ip))) }

/-- What all bins share: the counts of addresses and subnets, the use count of every contact, and,
for the proofs only, the contacts deleted so far with the use count each then had. -/
structure Shared where
  tracking : GlobalTracking
  uses : Nat → Nat
  freed : List (Contact × Nat)

namespace Shared

def empty : Shared := ⟨GlobalTracking.empty, fun _ => 0, []⟩

def inUse (s : Shared) (c : Contact) : Bool := decide (0 < s.uses c.ref)

def incUse (s : Shared) (ref : Nat) : Shared :=
  { s with uses := Function.update s.uses ref (s.uses ref + 1) }

def decUse (s : Shared) (ref : Nat) : Shared :=
  { s with uses := Function.update s.uses ref (s.uses ref - 1) }

def adjust (s : Shared) (ip : UInt32) (increase : Bool) : Shared :=
  { s with tracking := adjustGlobalTracking s.tracking ip increase }

/-- `delete c`. -/
def delete (s : Shared) (c : Contact) : Shared :=
  { s with freed := s.freed ++ [(c, s.uses c.ref)] }

end Shared

def checkGlobalIPLimits (g : GlobalTracking) (ip : UInt32) : Bool :=
  decide (g.contactIPs ip < kMaxContactsIP) &&
    (decide (g.contactSubnets (subnetOf ip) < kMaxContactsSubnet) || isLan ip)

namespace RoutingBin

-- A bin is the list of its contacts, the oldest first.

def getContact (bin : ContactList) (id : KadUInt128) : Option Contact :=
  bin.find? fun c => decide (id = c.clientId)

def getRemaining (bin : ContactList) : Nat := kK - bin.length

def sameSubnets (bin : ContactList) (ip : UInt32) : Nat :=
  bin.countP fun c => sameSubnet ip c.ip

/-- No more than two of one /24, unless it is the local network. -/
def crowded (bin : ContactList) (ip : UInt32) : Bool :=
  decide (2 ≤ sameSubnets bin ip) && !isLan ip

def addContact (bin : ContactList) (g : GlobalTracking) (contact : Contact) :
    Option (ContactList × GlobalTracking) :=
  if bin.any (fun c => decide (contact.clientId = c.clientId)) then none
  else if !checkGlobalIPLimits g contact.ip then none
  else if crowded bin contact.ip then none
  else if bin.length < kK then some (bin ++ [contact], adjustGlobalTracking g contact.ip true)
  else none

def removeContact (bin : ContactList) (contact : Contact) : ContactList :=
  bin.filter fun c => decide (c.ref ≠ contact.ref)

def modifyContact (bin : ContactList) (ref : Nat) (f : Contact → Contact) : ContactList :=
  bin.map fun c => if c.ref=ref then f c else c

def pushToBottom (bin : ContactList) (contact : Contact) : ContactList :=
  removeContact bin contact ++ [contact]

def setAlive (bin : ContactList) (contact : Contact) (now : Int) : ContactList :=
  match getContact bin contact.clientId with
  | some found => pushToBottom bin (found.updateType now)
  | none => bin

def rank (c : Contact) : Int := if c.type = 4 then -1 else c.strength

/-- The contact of least rank that nobody uses, the oldest of several. -/
def weakest (s : Shared) (bin : ContactList) : Option Contact :=
  bin.foldl (fun victim c =>
    if s.inUse c then victim
    else
      match victim with
      | none => some c
      | some v => if rank c < rank v then some c else some v) none

def replaceWeakest (bin : ContactList) (s : Shared) (newcomer : Contact) :
    Option (Contact × ContactList × Shared) :=
  if bin.length < kK then none
  else if bin.any (fun c => decide (c.clientId = newcomer.clientId)) then none
  else
    match weakest s bin with
    | none => none
    | some victim =>
      if victim.type ≠ 4 ∧ newcomer.strength < victim.strength + kReplaceMargin then none
      else
        let ip := newcomer.ip
        let g := s.tracking
        -- the limits, with the victim's own share taken out
        let sameIP := g.contactIPs ip - (if ip = victim.ip then 1 else 0)
        let sameSubnet24 :=
          g.contactSubnets (subnetOf ip) - (if sameSubnet ip victim.ip then 1 else 0)
        let others := removeContact bin victim
        if kMaxContactsIP ≤ sameIP then none
        else if kMaxContactsSubnet ≤ sameSubnet24 ∧ isLan ip = false then none
        else if crowded others ip then none
        else some (victim, others ++ [newcomer], (s.adjust victim.ip false).adjust ip true)

def changeContactIPAddress (bin : ContactList) (g : GlobalTracking) (contact : Contact)
    (newIP : UInt32) : Option (ContactList × GlobalTracking) :=
  if contact.ip = newIP then some (bin, g)
  else if kMaxContactsIP ≤ g.contactIPs newIP then none
  else if !sameSubnet newIP contact.ip &&
      ((decide (kMaxContactsSubnet ≤ g.contactSubnets (subnetOf newIP)) && !isLan newIP) ||
        crowded bin newIP) then none
  else some (modifyContact bin contact.ref (·.setAddress newIP),
    adjustGlobalTracking (adjustGlobalTracking g contact.ip false) newIP true)

/-- The bin's destructor: the counts are given back, the contacts themselves stay. -/
def destroy (bin : ContactList) (s : Shared) : Shared :=
  bin.foldl (fun s c => s.adjust c.ip false) s

end RoutingBin

end EmuleQt.Kademlia
