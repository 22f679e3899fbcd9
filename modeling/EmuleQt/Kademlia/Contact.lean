import EmuleQt.Net.Address

namespace EmuleQt.Kademlia

open Net

abbrev KadUInt128 := BitVec 128

def getBitNumber (x : KadUInt128) (bit : Nat) : Bool := x.getMsbD bit

structure KadUDPKey where
  key : UInt32
  ip : UInt32
  deriving DecidableEq

namespace KadUDPKey

def getKeyValue (k : KadUDPKey) (myIP : UInt32) : UInt32 := if myIP = k.ip then k.key else 0

def isEmpty (k : KadUDPKey) : Bool := decide (k.key = 0 ∨ k.ip = 0)

end KadUDPKey

def KADEMLIA_VERSION1_46c : UInt8 := 1
def KADEMLIA_VERSION5_48a : UInt8 := 5
def KADEMLIA_VERSION6_49aBETA : UInt8 := 6

def HR2S (hours : Int) : Int := hours * 3600
def MIN2S (minutes : Int) : Int := minutes * 60

/-- A node of the routing table. `ref` is the object's address: searches hold the object, not a
copy. Its `m_inUse` lives in `Shared`. `m_address` is always made from the host order number. -/
structure Contact where
  ref : Nat
  clientId : KadUInt128
  distance : KadUInt128
  udpKey : KadUDPKey
  lastTypeSet : Int
  checkStart : Int
  recheckAt : Int
  expires : Int
  created : Int
  ip : UInt32
  tcpPort : UInt16
  udpPort : UInt16
  version : UInt8
  type : Nat
  typeBeforeCheck : Nat
  ipVerified : Bool
  receivedHelloPacket : Bool
  deriving DecidableEq

abbrev ContactList := List Contact

namespace Contact

def address (c : Contact) : Address := Address.fromHostOrder c.ip

/-- `new Contact` for the local ID or, in a search, for its target. -/
def create (ref : Nat) (target clientId : KadUInt128) (ip : UInt32) (udpPort tcpPort : UInt16)
    (version : UInt8) (udpKey : KadUDPKey) (ipVerified : Bool) (now : Int) : Contact where
  ref := ref
  clientId := clientId
  distance := target ^^^ clientId
  udpKey := udpKey
  lastTypeSet := now
  checkStart := 0
  recheckAt := 0
  expires := 0
  created := now
  ip := ip
  tcpPort := tcpPort
  udpPort := udpPort
  version := version
  type := 3
  typeBeforeCheck := 3
  ipVerified := ipVerified
  receivedHelloPacket := false

def setAddress (c : Contact) (ip : UInt32) : Contact :=
  if c.ip ≠ ip then { c with ipVerified := false, ip := ip } else c

def strength (c : Contact) : Int :=
  (4 - min c.type 4 : Int) * 40 + (if c.ipVerified then 100 else 0) +
    (if c.receivedHelloPacket then 30 else 0) + (if c.udpKey.isEmpty then 0 else 20)

def updateType (now : Int) (c : Contact) : Contact :=
  match (now - c.created).tdiv (HR2S 1) with
  | 0 => { c with type := 2, expires := now + HR2S 1, checkStart := 0, recheckAt := 0 }
  | 1 => { c with type := 1, expires := now + 5400, checkStart := 0, recheckAt := 0 }
  | _ => { c with type := 0, expires := now + HR2S 2, checkStart := 0, recheckAt := 0 }

def checkingType (now : Int) (c : Contact) : Contact :=
  if 10 ≤ now - c.lastTypeSet ∧ c.type < 4 then
    { c with
      lastTypeSet := now
      expires := now + MIN2S 2
      checkStart := if c.checkStart = 0 then now else c.checkStart
      typeBeforeCheck := if c.checkStart = 0 then c.type else c.typeBeforeCheck
      type := c.type + 1
      recheckAt := 0 }
  else c

def expire (c : Contact) : Contact := { c with type := 4, expires := 1 }

def voidChecksSince (since now : Int) (c : Contact) : Contact :=
  if c.checkStart = 0 ∨ c.checkStart < since then c
  else { c with type := c.typeBeforeCheck, checkStart := 0, expires := now }

def markRecheck (time : Int) (c : Contact) : Contact := { c with recheckAt := time }

def isRecheckDue (now : Int) (c : Contact) : Bool := decide (c.recheckAt ≠ 0 ∧ c.recheckAt ≤ now)

/-- What a contact is counted and placed by. -/
structure Place where
  ref : Nat
  clientId : KadUInt128
  distance : KadUInt128
  ip : UInt32

/-- The object and who it is. -/
def object (c : Contact) : Nat × KadUInt128 := (c.ref, c.clientId)

def place (c : Contact) : Place := ⟨c.ref, c.clientId, c.distance, c.ip⟩

@[simp] theorem setAddress_ref (c : Contact) (ip : UInt32) : (c.setAddress ip).ref=c.ref := by
  unfold setAddress
  split_ifs <;> rfl

@[simp] theorem setAddress_clientId (c : Contact) (ip : UInt32) :
    (c.setAddress ip).clientId=c.clientId := by
  unfold setAddress
  split_ifs <;> rfl

@[simp] theorem setAddress_distance (c : Contact) (ip : UInt32) :
    (c.setAddress ip).distance=c.distance := by
  unfold setAddress
  split_ifs <;> rfl

@[simp] theorem setAddress_ip (c : Contact) (ip : UInt32) : (c.setAddress ip).ip=ip := by
  unfold setAddress
  split_ifs with h
  · rfl
  · exact not_not.mp h

@[simp] theorem updateType_place (now : Int) (c : Contact) : (c.updateType now).place=c.place := by
  unfold updateType
  split <;> rfl

@[simp] theorem checkingType_place (now : Int) (c : Contact) :
    (c.checkingType now).place=c.place := by
  unfold checkingType
  by_cases hdue : 10≤now-c.lastTypeSet ∧ c.type<4
  · rw [if_pos hdue]
    rfl
  · rw [if_neg hdue]

@[simp] theorem voidChecksSince_place (since now : Int) (c : Contact) :
    (c.voidChecksSince since now).place=c.place := by
  unfold voidChecksSince
  split_ifs <;> rfl

@[simp] theorem markRecheck_place (time : Int) (c : Contact) :
    (c.markRecheck time).place=c.place := rfl

@[simp] theorem expire_place (c : Contact) : c.expire.place=c.place := rfl

end Contact

end EmuleQt.Kademlia
