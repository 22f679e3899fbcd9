import EmuleQt.Framework.Sweep
import EmuleQt.Kademlia.RoutingBin

namespace EmuleQt.Kademlia

open Framework

def kKBase : Nat := 4
def kKK : Nat := 5

/-- A zone is a leaf with a bin, or has two sub zones. Its level and its index follow from the way
that leads to it. -/
inductive Zone
  | leaf (bin : ContactList)
  | node (zero one : Zone)

namespace Zone

/-- `getAllEntries`. -/
def contacts : Zone → ContactList
  | leaf bin => bin
  | node zero one => zero.contacts ++ one.contacts

/-- The bin of the leaf at a path, if that is where the path ends. -/
def binAt : Zone → List Bool → Option ContactList
  | leaf bin, [] => some bin
  | leaf _, _ :: _ => none
  | node _ _, [] => none
  | node zero one, bit::path => if bit then one.binAt path else zero.binAt path

/-- Every object is changed where it is. -/
def map (f : Contact → Contact) : Zone → Zone
  | leaf bin => leaf (bin.map f)
  | node zero one => node (zero.map f) (one.map f)

/-- The work on one bin; at a path that does not end in a leaf, nothing. -/
def atLeaf (work : ContactList → Shared → ContactList × Shared) :
    Zone → List Bool → Shared → Zone × Shared
  | leaf bin, [], s =>
    let (bin, s) := work bin s
    (leaf bin, s)
  | leaf bin, _ :: _, s => (leaf bin, s)
  | node zero one, [], s => (node zero one, s)
  | node zero one, bit::path, s =>
    if bit then
      let (one, s) := one.atLeaf work path s
      (node zero one, s)
    else
      let (zero, s) := zero.atLeaf work path s
      (node zero one, s)

def canSplit (level : Nat) (zoneIndex : KadUInt128) (bin : ContactList) : Bool :=
  decide (level < 127) && (decide (zoneIndex.toNat < kKK) || decide (level < kKBase)) &&
    decide (RoutingBin.getRemaining bin = 0)

/-- The index `genSubZone` gives a side. -/
def subIndex (zoneIndex : KadUInt128) (side : Bool) : KadUInt128 :=
  (zoneIndex <<< 1)+if side then 1 else 0

/-- A contact from another bin; one that does not fit is deleted. -/
def addOrDelete (bin : ContactList) (s : Shared) (c : Contact) : ContactList × Shared :=
  match RoutingBin.addContact bin s.tracking c with
  | some (bin, g) => (bin, { s with tracking := g })
  | none => (bin, s.delete c)

/-- Contacts from other bins, one after the other. -/
def reinsert (bin : ContactList) (s : Shared) (entries : ContactList) : ContactList × Shared :=
  entries.foldl (fun (bin, s) c => addOrDelete bin s c) (bin, s)

/-- The bins of the two sides. -/
def split (level : Nat) (bin : ContactList) (s : Shared) : ContactList × ContactList × Shared :=
  bin.foldl (fun (zero, one, s) c =>
    if getBitNumber c.distance level then
      let (one, s) := addOrDelete one s c
      (zero, one, s)
    else
      let (zero, s) := addOrDelete zero s c
      (zero, one, s)) ([], [], RoutingBin.destroy bin s)

/-- The contact that came is known already: the bin, the counts, and whether it was updated. -/
def updateExisting (publicIP : UInt32) (now : Int) (bin : ContactList) (g : GlobalTracking)
    (existing contact : Contact) : ContactList × GlobalTracking × Bool :=
  let existingKeyVal := existing.udpKey.getKeyValue publicIP
  if existingKeyVal ≠ 0 ∧ existingKeyVal ≠ contact.udpKey.getKeyValue publicIP then (bin, g, false)
  else if KADEMLIA_VERSION1_46c≤existing.version ∧
      existing.version<KADEMLIA_VERSION6_49aBETA ∧ existing.receivedHelloPacket then
    -- a legacy contact that said hello may only stay alive
    if existing.address=contact.address ∧ existing.tcpPort=contact.tcpPort ∧
        existing.udpPort=contact.udpPort ∧ existing.version=contact.version then
      (RoutingBin.setAlive bin existing now, g, true)
    else (bin, g, false)
  else
    match RoutingBin.changeContactIPAddress bin g existing contact.ip with
    | none => (bin, g, false)
    | some (bin, g) =>
      if existing.version≤contact.version then
        let bin := RoutingBin.modifyContact bin existing.ref fun c =>
          { c with
            udpPort := contact.udpPort
            tcpPort := contact.tcpPort
            version := contact.version
            udpKey := contact.udpKey
            ipVerified := c.ipVerified || contact.ipVerified
            receivedHelloPacket := c.receivedHelloPacket || contact.receivedHelloPacket }
        (RoutingBin.setAlive bin existing now, g, true)
      else (bin, g, false)

/-- A zone after `add`, whether the contact went in, and the caller's `update`. -/
structure Added where
  zone : Zone
  shared : Shared
  added : Bool
  update : Bool

/-- The bin is full and cannot be split. -/
def replaceOrDrop (contact : Contact) (bin : ContactList) (s : Shared) (update : Bool) : Added :=
  match RoutingBin.replaceWeakest bin s contact with
  | some (gone, bin, s) => ⟨leaf bin,s.delete gone,true,update⟩
  | none => ⟨leaf bin,s,false,false⟩

section Add

variable (publicIP : UInt32) (now : Int) (contact : Contact)

/-- `add` in a leaf; `depth` levels are left below it. -/
def addToLeaf : (depth level : Nat) → (zoneIndex : KadUInt128) → (bin : ContactList) → Shared →
    (update : Bool) → Added
  | depth, level, zoneIndex, bin, s, update =>
    match RoutingBin.getContact bin contact.clientId with
    | some existing =>
      if update then
        let (bin, g, update) := updateExisting publicIP now bin s.tracking existing contact
        ⟨leaf bin,{ s with tracking := g },false,update⟩
      else ⟨leaf bin,s,false,update⟩
    | none =>
      if 0<RoutingBin.getRemaining bin then
        match RoutingBin.addContact bin s.tracking contact with
        | some (bin, g) => ⟨leaf bin,{ s with tracking := g },true,false⟩
        | none => ⟨leaf bin,s,false,false⟩
      else
        match depth with
        | depth+1 =>
          if canSplit level zoneIndex bin then
            let (zero, one, s) := split level bin s
            if getBitNumber contact.distance level then
              let r := addToLeaf depth (level+1) (subIndex zoneIndex true) one s update
              { r with zone := node (leaf zero) r.zone }
            else
              let r := addToLeaf depth (level+1) (subIndex zoneIndex false) zero s update
              { r with zone := node r.zone (leaf one) }
          else replaceOrDrop contact bin s update
        | 0 => replaceOrDrop contact bin s update

/-- `add` of a contact object; the root asks at level 0. -/
def add : (zone : Zone) → (level : Nat) → (zoneIndex : KadUInt128) → Shared → (update : Bool) →
    Added
  | leaf bin, level, zoneIndex, s, update =>
    addToLeaf publicIP now contact (127 - level) level zoneIndex bin s update
  | node zero one, level, zoneIndex, s, update =>
    if getBitNumber contact.distance level then
      let r := one.add (level + 1) (subIndex zoneIndex true) s update
      { r with zone := node zero r.zone }
    else
      let r := zero.add (level + 1) (subIndex zoneIndex false) s update
      { r with zone := node r.zone one }

end Add

def consolidate : Zone → Shared → Zone × Shared
  | leaf bin, s => (leaf bin, s)
  | node zero one, s =>
    let (zero, s) := zero.consolidate s
    let (one, s) := one.consolidate s
    match zero, one with
    | leaf bin, leaf bin' =>
      if bin.length + bin'.length < kK / 2 then
        let s := RoutingBin.destroy bin' (RoutingBin.destroy bin s)
        let (bin, s) := reinsert [] s (bin ++ bin')
        (leaf bin, s)
      else (node (leaf bin) (leaf bin'), s)
    | zero, one => (node zero one, s)

section SmallTimer

variable (offline : Bool) (banned : UInt32 → Bool) (now : Int)

/-- One contact in the first pass of the small timer. -/
def visitContact (c : Contact) (s : Shared) : Option Contact × Shared :=
  if banned c.ip then
    if s.inUse c then (some c, s) else (none, (s.adjust c.ip false).delete c)
  else if c.type=4 ∧ 0<c.expires ∧ c.expires≤now then
    if !offline && !s.inUse c then (none, (s.adjust c.ip false).delete c) else (some c, s)
  else if c.expires=0 then (some { c with expires := now }, s)
  else (some c, s)

/-- The second pass: the oldest contact is asked, or makes way for the next. -/
def askOldest (bin : ContactList) : ContactList :=
  match bin with
  | [] => []
  | oldest::_ =>
    if (decide (oldest.expires<now) || oldest.isRecheckDue now)=false ∨ oldest.type=4 then
      RoutingBin.pushToBottom bin oldest
    else if offline then RoutingBin.pushToBottom bin (oldest.markRecheck 0)
    else RoutingBin.pushToBottom bin (oldest.checkingType now)

def onSmallTimer (bin : ContactList) (s : Shared) : ContactList × Shared :=
  let (bin, s) := sweep (visitContact offline banned now) bin s
  (askOldest offline now bin, s)

end SmallTimer

end Zone

end EmuleQt.Kademlia
