import EmuleQt.Kademlia.RoutingTable
import EmuleQt.Utils.SafeFile

namespace EmuleQt.Kademlia

open Framework Utils

def kMaxBootstrapContacts : Nat := 200
/-- What is kept of a contact. -/
def Contact.announced (c : Contact) : Announced :=
  ⟨c.clientId, c.ip, c.udpPort, c.tcpPort, c.version, c.udpKey, c.ipVerified⟩

namespace NodesFile

/-- The raw bytes of an ID: four numbers in host order, the most significant one first. -/
def writeID (id : KadUInt128) : List UInt8 :=
  writeUInt32 (id.toNat/2^96)++writeUInt32 (id.toNat/2^64) ++
    writeUInt32 (id.toNat/2^32)++writeUInt32 id.toNat

def readID : Reader KadUInt128 := do
  let w0 ← Reader.readUInt32
  let w1 ← Reader.readUInt32
  let w2 ← Reader.readUInt32
  let w3 ← Reader.readUInt32
  pure (BitVec.ofNat 128 (((w0*2^32+w1)*2^32+w2)*2^32+w3))

/-- One contact in `writeFile`. -/
def entry (a : Announced) : List UInt8 :=
  writeID a.id ++ (writeUInt32 a.ip.toNat ++ (writeUInt16 a.udpPort.toNat ++
    (writeUInt16 a.tcpPort.toNat ++ (writeUInt8 a.version.toNat ++
      (writeUInt32 a.udpKey.key.toNat ++ (writeUInt32 a.udpKey.ip.toNat ++
        writeUInt8 (if a.ipVerified then 1 else 0)))))))

/-- `sort` is `std::sort` by the type, the fresher ones first. -/
def getBootstrapContacts (sort : ContactList → ContactList) (z : Zone) (maxRequired : Nat) :
    ContactList :=
  if maxRequired < z.contacts.length then (sort z.contacts).take maxRequired else z.contacts

/-- The UDP key of an entry, and whether its address is verified. -/
def readVerification (version : Nat) : Reader (KadUDPKey × Bool) :=
  if 2≤version then do
    let key ← Reader.readUInt32
    let ip ← Reader.readUInt32
    let verified ← Reader.readUInt8
    pure (⟨UInt32.ofNat key,UInt32.ofNat ip⟩, decide (verified≠0))
  else pure (⟨0,0⟩, false)

/-- An entry of the file; one of the legacy format that has expired is passed over. -/
def readEntry (version : Nat) : Reader (Option Announced) := do
  let id ← readID
  let ip ← Reader.readUInt32
  let udpPort ← Reader.readUInt16
  let tcpPort ← Reader.readUInt16
  let byte ← Reader.readUInt8
  if version=0 ∧ 4≤byte then pure none
  else
    let contactVersion := if 1≤version then byte else 0
    let (udpKey, ipVerified) ← readVerification version
    pure (some ⟨id,UInt32.ofNat ip,UInt16.ofNat udpPort,UInt16.ofNat tcpPort,
      UInt8.ofNat contactVersion,udpKey,ipVerified⟩)

variable (w : Surroundings)

def setAllContactsVerified (t : RoutingTable) : RoutingTable :=
  { t with zone := t.zone.map fun c => { c with ipVerified := true } }

section Bytes

variable {w} {a : Announced} {rest : List UInt8}

end Bytes

end NodesFile

namespace Zone

open RoutingBin

/-- The leaf a distance leads to: its level, its index and its bin. -/
def leafFor (distance : KadUInt128) : Zone → (level : Nat) → (zoneIndex : KadUInt128) →
    Nat × KadUInt128 × ContactList
  | leaf bin, level, zoneIndex => (level, zoneIndex, bin)
  | node zero one, level, zoneIndex =>
    if getBitNumber distance level then one.leafFor distance (level+1) (subIndex zoneIndex true)
    else zero.leafFor distance (level+1) (subIndex zoneIndex false)

/-- The leaf is full and cannot be split. -/
def Closed (z : Zone) (level : Nat) (zoneIndex distance : KadUInt128) : Prop :=
  let l := z.leafFor distance level zoneIndex
  kK ≤ l.2.2.length ∧ canSplit l.1 l.2.1 l.2.2 = false

/-- The leaf holds two contacts of the /24. -/
def Crowded (z : Zone) (level : Nat) (zoneIndex distance : KadUInt128) (ip : UInt32) : Prop :=
  crowded (z.leafFor distance level zoneIndex).2.2 ip=true

/-- Who is not in the zone after a contact has come. -/
def Came (contact : Contact) (cs : ContactList) (crowd : Contact → Prop) (level : Nat)
    (zoneIndex : KadUInt128) (z : Zone) : Prop :=
  ∃ gone, (z.contacts ++ gone).Perm (contact :: cs) ∧
    ∀ c ∈ gone, crowd c ∨ z.Closed level zoneIndex c.distance

variable {localKadId : KadUInt128} {inside : KadUInt128 → Prop} {level : Nat}
  {zoneIndex : KadUInt128} {rest bin cs zero one : ContactList} {s : Shared} {contact : Contact}
  {crowd crowd' : Contact → Prop} {z r : Zone}

theorem Came.right (h : Came contact one crowd (level+1) (subIndex zoneIndex true) r)
    (hbit : ∀ c∈contact::one, getBitNumber c.distance level=true)
    (hcrowd : ∀ c∈contact::one, crowd c → crowd' c) (hp : (z.contacts++one).Perm cs) :
    Came contact cs crowd' level zoneIndex (node z r) := by
  obtain ⟨gone,hperm,hgone⟩ := h
  refine ⟨gone,?_,fun c hc => ?_⟩
  · rw [contacts,List.append_assoc]
    exact (hperm.append_left _).trans (List.perm_middle.trans (hp.cons _))
  · have hmem := hperm.mem_iff.mp (List.mem_append_right _ hc)
    refine (hgone c hc).imp (hcrowd c hmem) fun hclosed => ?_
    rwa [Closed,leafFor,if_pos (hbit c hmem)]

theorem Came.left (h : Came contact zero crowd (level+1) (subIndex zoneIndex false) r)
    (hbit : ∀ c∈contact::zero, getBitNumber c.distance level=false)
    (hcrowd : ∀ c∈contact::zero, crowd c → crowd' c) (hp : (zero++z.contacts).Perm cs) :
    Came contact cs crowd' level zoneIndex (node r z) := by
  obtain ⟨gone,hperm,hgone⟩ := h
  refine ⟨gone,?_,fun c hc => ?_⟩
  · rw [contacts,List.append_assoc]
    have hcomm : (z.contacts++gone).Perm (gone++z.contacts) := List.perm_append_comm
    refine (hcomm.append_left _).trans ?_
    rw [← List.append_assoc]
    exact (hperm.append_right _).trans (hp.cons _)
  · have hmem := hperm.mem_iff.mp (List.mem_append_right _ hc)
    refine (hgone c hc).imp (hcrowd c hmem) fun hclosed => ?_
    rwa [Closed,leafFor,if_neg (by rw [hbit c hmem]; simp)]

end Zone

namespace NodesFile

open RoutingTable

/-- No two of one ID or address, and ten of a /24 outside the local network. -/
structure Spread (as : List Announced) : Prop where
  ids : (as.map Announced.id).Nodup
  ips : (as.map Announced.ip).Nodup
  subnets : ∀ ip, isLan ip = false →
    as.countP (fun a => decide (subnetOf a.ip = subnetOf ip)) ≤ kMaxContactsSubnet

/-- The leaf of an entry is crowded by its /24, or full for good. -/
def Barred (t : RoutingTable) (a : Announced) : Prop :=
  t.zone.Crowded 0 0 (t.localKadId ^^^ a.id) a.ip ∨ t.zone.Closed 0 0 (t.localKadId ^^^ a.id)

variable {w : Surroundings} {t : RoutingTable} {a : Announced} {as bs : List Announced}
  {cs : ContactList}

theorem Spread.subperm (h : Spread as) (hs : bs.Subperm as) : Spread bs := by
  obtain ⟨l,hperm,hsub⟩ := hs
  refine ⟨(hperm.map _).nodup_iff.mp (h.ids.sublist (hsub.map _)),
    (hperm.map _).nodup_iff.mp (h.ips.sublist (hsub.map _)),fun ip hlan => ?_⟩
  rw [← hperm.countP_eq]
  exact hsub.countP_le.trans (h.subnets ip hlan)

theorem Spread.limited (h : Spread (cs.map Contact.announced)) : Limited cs := by
  obtain ⟨-,hips,hsubnets⟩ := h
  rw [List.map_map] at hips
  refine ⟨hips,fun ip hlan => ?_⟩
  have hcount := hsubnets ip hlan
  rwa [List.countP_map] at hcount

variable {sort : ContactList → ContactList}

/-- What comes back of an entry: verified when none of the file was. -/
def restored (entries : List Announced) (a : Announced) : Announced :=
  { a with ipVerified := a.ipVerified || !entries.any (·.ipVerified) }

/-- The entries that `writeFile` writes. -/
def written (sort : ContactList → ContactList) (z : Zone) : List Announced :=
  (getBootstrapContacts sort z kMaxBootstrapContacts).map Contact.announced

/-- What is read back are entries of the file, each as it was written, and one is missing only if
the leaf it belongs to was barred to it at some entry. -/
def ReadsBack (w : Surroundings) (localKadId : KadUInt128) (entries : List Announced)
    (t : RoutingTable) : Prop :=
  ∃ held lost : List Announced, (held++lost).Perm entries ∧
    (t.zone.contacts.map Contact.announced).Perm (held.map (restored entries)) ∧
    ∀ a∈lost, ∃ k, Barred ((entries.take k).foldl (·.load · w) (create localKadId)) a

/-- A peer on one side of the local ID 0. -/
def samplePeer (i : Nat) (ip : UInt32) (far : Bool) : Announced :=
  ⟨BitVec.ofNat 128 (i+if far then 2^127 else 0),ip,4672,4662,8,⟨0,0⟩,true⟩

def sampleSurroundings : Surroundings := ⟨true,fun _ => false,0,0⟩

/-- Two of 8.8.8.0/24 and eight others; and one more of the /24, when the tree has split. -/
def samplePeers : List Announced :=
  [samplePeer 1 0x08080801 true,samplePeer 2 0x08080802 true] ++
    ((List.range 8).map fun i => samplePeer (i+3) (0x09000001+256*i.toUInt32) (i%2=0)) ++
    [samplePeer 11 0x08080803 false]

def sampleRun : List Op := samplePeers.map fun a => .add a sampleSurroundings false false

deriving instance DecidableEq for Announced

end NodesFile

end EmuleQt.Kademlia
