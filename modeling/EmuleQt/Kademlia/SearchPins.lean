import EmuleQt.Framework.Keyed
import EmuleQt.Kademlia.RoutingTable

namespace EmuleQt.Kademlia

open Framework

/-- `std::map<UInt128, β>`: the keys ascend. -/
abbrev KadMap (β : Type) := List (KadUInt128 × β)

namespace KadMap

variable {β : Type}

def set (k : KadUInt128) (v : β) : KadMap β → KadMap β
  | [] => [(k, v)]
  | e :: m =>
    if k = e.1 then (k, v) :: m
    else if k < e.1 then (k, v) :: e :: m
    else e :: set k v m

def contains (m : KadMap β) (k : KadUInt128) : Bool := m.any fun e => decide (e.1 = k)

def erase (m : KadMap β) (k : KadUInt128) : KadMap β := m.filter fun e => decide (e.1 ≠ k)

/-- The entries of another map are set. -/
def setAll (m fetched : KadMap β) : KadMap β := fetched.foldl (fun m e => set e.1 e.2 m) m

end KadMap

abbrev ContactMap := KadMap Nat

section GetClosestTo

variable (maxType : Nat) (target : KadUInt128) (maxRequired : Nat) (setInUse : Bool)

/-- A verified contact that is fresh enough is handed out. -/
def offerContact (acc : ContactMap × Shared) (c : Contact) : ContactMap × Shared :=
  if c.type ≤ maxType ∧ c.ipVerified then
    (KadMap.set (c.clientId ^^^ target) c.ref acc.1,
      if setInUse then acc.2.incUse c.ref else acc.2)
  else acc

/-- The furthest go, the last one first. -/
def trimFurthest (acc : ContactMap × Shared) : ContactMap × Shared :=
  (acc.1.take maxRequired,
    if setInUse then (acc.1.drop maxRequired).reverse.foldl (fun s e => s.decUse e.2) acc.2
    else acc.2)

def RoutingBin.getClosestTo (bin : ContactList) (emptyFirst : Bool) (result : ContactMap)
    (s : Shared) : ContactMap × Shared :=
  let result := if emptyFirst then [] else result
  if bin = [] ∨ maxRequired = 0 then (result, s)
  else
    trimFurthest maxRequired setInUse
      (bin.foldl (offerContact maxType target setInUse) (result, s))

def Zone.getClosestTo (distance : KadUInt128) : Zone → (level : Nat) → (emptyFirst : Bool) →
    ContactMap → Shared → ContactMap × Shared
  | leaf bin, _, emptyFirst, result, s =>
    RoutingBin.getClosestTo maxType target maxRequired setInUse bin emptyFirst result s
  | node zero one, level, emptyFirst, result, s =>
    if getBitNumber distance level then
      let (result, s) := one.getClosestTo distance (level + 1) emptyFirst result s
      if result.length < maxRequired then zero.getClosestTo distance (level + 1) false result s
      else (result, s)
    else
      let (result, s) := zero.getClosestTo distance (level + 1) emptyFirst result s
      if result.length < maxRequired then one.getClosestTo distance (level + 1) false result s
      else (result, s)

end GetClosestTo

def kAlphaQuery : Nat := 3
def kSearchMinContacts : Nat := 10
def kSearchFindBuddyRequests : Nat := 20

inductive SearchType
  | node
  | nodeComplete
  | file
  | keyword
  | notes
  | storeFile
  | storeKeyword
  | storeNotes
  | findBuddy
  | findSource
  | nodeSpecial
  | nodeFwCheckUDP
  deriving DecidableEq

structure Search where
  type : SearchType
  target : KadUInt128
  stopping : Bool
  possible : ContactMap
  tried : ContactMap
  best : ContactMap
  responded : KadMap Bool
  inUse : ContactMap
  deleteList : ContactList
  deriving DecidableEq

namespace Search

def create (type : SearchType) (target : KadUInt128) : Search :=
  ⟨type, target, false, [], [], [], [], [], []⟩

/-- What was fetched with `setInUse` is recorded; a contact that was pinned before gives the
surplus reference back. -/
def pinFetchedContacts (search : Search) (fetched : ContactMap) (s : Shared) : Search × Shared :=
  let (inUse, s) := fetched.foldl (fun (inUse, s) e =>
    if KadMap.contains inUse e.1 then (inUse, s.decUse e.2)
    else (KadMap.set e.1 e.2 inUse, s)) (search.inUse, s)
  ({ search with inUse := inUse }, s)

/-- The candidates come from the routing table again. -/
def reseed (search : Search) (localKadId : KadUInt128) (zone : Zone) (s : Shared) :
    Search × Shared :=
  let (possible, s) := zone.getClosestTo 3 search.target 50 true (localKadId ^^^ search.target) 0
    true search.possible s
  let (search, s) := pinFetchedContacts { search with possible := possible } possible s
  let untried := search.possible.filter fun e => !KadMap.contains search.tried e.1
  ({ search with possible := untried }, s)

/-- Enough have answered, and no candidate is closer than the last of them. -/
def converged (search : Search) : Bool :=
  let needed := if search.type = .findBuddy then kSearchFindBuddyRequests else kK
  match search.possible, search.responded[needed - 1]? with
  | closest :: _, some kth =>
    decide (kSearchMinContacts ≤ search.tried.length) && !decide (closest.1 < kth.1)
  | _, _ => false

/-- The closest candidates are asked. -/
def send (search : Search) (maxToSend : Nat) : Search :=
  let maxToSend := if search.type = .node then 1 else maxToSend
  { search with
    tried := KadMap.setAll search.tried (search.possible.take maxToSend)
    possible := search.possible.drop maxToSend }

def go (search : Search) (localKadId : KadUInt128) (zone : Zone) (s : Shared) (maxToSend : Nat) :
    Search × Shared :=
  if search.stopping then (search, s)
  else
    let (search, s) := if search.possible = [] then search.reseed localKadId zone s
      else (search, s)
    if search.possible = [] then (search, s)
    else if search.converged then ({ search with stopping := true }, s)
    else (search.send maxToSend, s)

/-- `startSearch`, for a target nobody searches for. -/
def start (search : Search) (localKadId : KadUInt128) (zone : Zone) (s : Shared) :
    Search × Shared :=
  let (contacts, s) := zone.getClosestTo 3 search.target 50 true (localKadId ^^^ search.target) 0
    true [] s
  let (search, s) := search.pinFetchedContacts contacts s
  let search := { search with possible := KadMap.setAll search.possible contacts }
  search.go localKadId zone s kAlphaQuery

/-- The addresses and the /24s an answer has brought so far, and whether one was closer. -/
structure Received where
  ips : List UInt32
  subnets : List UInt32
  closer : Bool
  possible : ContactMap

/-- One contact of an answer: known nodes, an address twice and a /24 a third time are left out. -/
def receive (search : Search) (fromDistance : KadUInt128) (r : Received) (c : Contact) :
    Received :=
  if KadMap.contains search.tried c.distance || KadMap.contains r.possible c.distance then r
  else if c.ip ∈ r.ips then r
  else if isLan c.ip then
    { r with
      ips := c.ip :: r.ips
      closer := r.closer || decide (c.distance < fromDistance)
      possible := KadMap.set c.distance c.ref r.possible }
  else if 2 ≤ r.subnets.count (subnetOf c.ip) then { r with ips := c.ip :: r.ips }
  else
    { ips := c.ip :: r.ips
      subnets := subnetOf c.ip :: r.subnets
      closer := r.closer || decide (c.distance < fromDistance)
      possible := KadMap.set c.distance c.ref r.possible }

/-- A candidate that is among the best is asked at once. -/
def autoQueryOne (search : Search) (e : KadUInt128 × Nat) : Search :=
  if KadMap.contains search.tried e.1 then search
  else
    let full := decide (kAlphaQuery ≤ search.best.length)
    let closerThanLast := search.best.getLast?.elim false fun last => decide (e.1<last.1)
    if !full || closerThanLast then
      let best := if full then search.best.dropLast else search.best
      { search with
        best := KadMap.set e.1 e.2 best
        tried := KadMap.set e.1 e.2 search.tried
        possible := KadMap.erase search.possible e.1 }
    else search

/-- The candidates closer than the responder. -/
def autoQuery (search : Search) (fromDistance : KadUInt128) : Search :=
  (search.possible.takeWhile fun e => decide (e.1<fromDistance)).foldl autoQueryOne search

/-- An answer with contacts the listener made for it. `sender` is the entry of `m_tried` it came
from; `refused` says that it held too many contacts or that its sender is a bad node. -/
def processResponse (search : Search) (fromIP : UInt32) (sender : Option KadUInt128)
    (refused : Bool) (results : ContactList) : Search :=
  let search := { search with deleteList := search.deleteList ++ results }
  if refused then search
  else if search.type = .nodeFwCheckUDP then search
  else if search.type = .node then { search with possible := [] }
  else
    match sender with
    | none => search
    | some fromDistance =>
      let r := results.foldl (search.receive fromDistance)
        ⟨[fromIP], [subnetOf fromIP], false, search.possible⟩
      let search := { search with
        possible := r.possible
        responded := KadMap.set fromDistance r.closer search.responded }
      if search.stopping then search else search.autoQuery fromDistance

/-- The destructor: pinned contacts are released, own ones are deleted. -/
def destroy (search : Search) (s : Shared) : Shared :=
  let s := search.inUse.foldl (fun s e => s.decUse e.2) s
  search.deleteList.foldl (fun s c => if s.inUse c then s else s.delete c) s

end Search

/-- The routing table with the searches that run on it, one a target. -/
structure KadState where
  table : RoutingTable
  searches : List Search

namespace KadState

def create (localKadId : KadUInt128) : KadState := ⟨RoutingTable.create localKadId, []⟩

def find? (k : KadState) (target : KadUInt128) : Option Search :=
  lookupKey Search.target target k.searches

/-- The search of a target, and what the bins share, after a step of the search. -/
def put (k : KadState) (r : Search × Shared) : KadState :=
  { table := { k.table with shared := r.2 }
    searches := upsert Search.target r.1.target (fun _ => r.1) k.searches }

/-- The contacts of an answer, as the listener makes them. -/
def listed (target : KadUInt128) (now : Int) : (ref : Nat) → List Announced → ContactList
  | _, [] => []
  | ref, a :: as =>
    Contact.create ref target a.id a.ip a.udpPort a.tcpPort a.version a.udpKey a.ipVerified now ::
      listed target now (ref + 1) as

inductive Op
  | table (op : RoutingTable.Op)
  | startSearch (type : SearchType) (target : KadUInt128)
  | go (target : KadUInt128) (maxToSend : Nat)
  | prepareToStop (target : KadUInt128)
  | processResponse (target : KadUInt128) (fromIP : UInt32) (sender : Option KadUInt128)
      (refused : Bool) (results : List Announced) (now : Int)
  | deleteSearch (target : KadUInt128)

def step (k : KadState) : Op → KadState
  | .table op => { k with table := k.table.step op }
  | .startSearch type target =>
    match k.find? target with
    | some _ => k
    | none =>
      k.put ((Search.create type target).start k.table.localKadId k.table.zone k.table.shared)
  | .go target maxToSend =>
    match k.find? target with
    | some search =>
      k.put (search.go k.table.localKadId k.table.zone k.table.shared maxToSend)
    | none => k
  | .prepareToStop target =>
    match k.find? target with
    | some search => k.put ({ search with stopping := true }, k.table.shared)
    | none => k
  | .processResponse target fromIP sender refused results now =>
    match k.find? target with
    | some search =>
      let contacts := listed target now k.table.nextRef results
      let table := { k.table with nextRef := k.table.nextRef + results.length }
      { k with table }.put
        (search.processResponse fromIP sender refused contacts, k.table.shared)
    | none => k
  | .deleteSearch target =>
    match k.find? target with
    | some search =>
      { table := { k.table with shared := search.destroy k.table.shared }
        searches := k.searches.eraseP fun x => decide (x.target = target) }
    | none => k

end KadState

open Framework

variable {localKadId target : KadUInt128} {cs seen bin : ContactList} {m fetched : ContactMap}
  {s s' s₀ : Shared} {c : Contact} {z : Zone}

namespace KadMap

variable {β : Type} {k : KadUInt128} {v : β} {m fetched : KadMap β} {e : KadUInt128 × β}

theorem mem_set (h : e∈set k v m) : e=(k, v) ∨ e∈m := by
  induction m with
  | nil => exact Or.inl (List.mem_singleton.mp h)
  | cons x m ih =>
    rw [set] at h
    split_ifs at h
    · exact (List.mem_cons.mp h).imp_right (List.mem_cons_of_mem x)
    · exact List.mem_cons.mp h
    · rcases List.mem_cons.mp h with rfl | h
      · exact Or.inr List.mem_cons_self
      · exact (ih h).imp_right (List.mem_cons_of_mem x)

theorem set_perm (h : k∉m.map Prod.fst) : (set k v m).Perm ((k, v)::m) := by
  induction m with
  | nil => exact List.Perm.refl _
  | cons x m ih =>
    rw [List.map_cons,List.mem_cons,not_or] at h
    rw [set,if_neg h.1]
    split_ifs
    · exact List.Perm.refl _
    · exact ((ih h.2).cons x).trans (List.Perm.swap (k, v) x m)

theorem contains_iff : contains m k=true ↔ k∈m.map Prod.fst := by
  rw [contains,List.any_eq_true,List.mem_map]
  simp

theorem mem_setAll (h : e∈setAll m fetched) : e∈m ∨ e∈fetched := by
  induction fetched generalizing m with
  | nil => exact Or.inl h
  | cons x fetched ih =>
    rcases ih h with h | h
    · rcases mem_set h with rfl | h
      · exact Or.inr List.mem_cons_self
      · exact Or.inl h
    · exact Or.inr (List.mem_cons_of_mem x h)

end KadMap

/-- Contacts handed out with `setInUse`: each is one of those seen, and has one use more. -/
structure Lent (target : KadUInt128) (seen : ContactList) (s₀ : Shared) (m : ContactMap)
    (s : Shared) : Prop where
  entries : ∀ e ∈ m, ∃ c ∈ seen, e = (c.clientId ^^^ target, c.ref)
  keys : (m.map Prod.fst).Nodup
  uses : ∀ r, s.uses r = s₀.uses r + (m.map Prod.snd).count r
  tracking : s.tracking = s₀.tracking
  freed : s.freed = s₀.freed

theorem incUse_uses (s : Shared) (ref r : Nat) :
    (s.incUse ref).uses r=if r=ref then s.uses ref+1 else s.uses r :=
  Function.update_apply _ _ _ _

theorem decUse_uses (s : Shared) (ref r : Nat) :
    (s.decUse ref).uses r=if r=ref then s.uses ref-1 else s.uses r :=
  Function.update_apply _ _ _ _

namespace Lent

theorem mono {seen' : ContactList} (h : Lent target seen s₀ m s) (hs : seen ⊆ seen') :
    Lent target seen' s₀ m s :=
  ⟨fun e he => (h.entries e he).imp fun _ hc => ⟨hs hc.1,hc.2⟩,h.keys,h.uses,h.tracking,
    h.freed⟩

theorem nothing (target : KadUInt128) (s : Shared) : Lent target [] s [] s :=
  ⟨by simp,List.nodup_nil,by simp,rfl,rfl⟩

theorem xor_right_injective {a b : KadUInt128} (h : a ^^^ target=b ^^^ target) : a=b := by
  have hcancel := congrArg (· ^^^ target) h
  simpa [BitVec.xor_assoc] using hcancel

theorem offer (h : Lent target seen s₀ m s) (maxType : Nat)
    (hnew : c.clientId∉seen.map Contact.clientId) :
    Lent target (c::seen) s₀ (offerContact maxType target true (m, s) c).1
      (offerContact maxType target true (m, s) c).2 := by
  unfold offerContact
  by_cases hoffer : c.type ≤ maxType ∧ c.ipVerified
  · rw [if_pos hoffer]
    have hkey : c.clientId ^^^ target∉m.map Prod.fst := by
      intro hmem
      obtain ⟨e,he,hk⟩ := List.mem_map.mp hmem
      obtain ⟨d,hd,rfl⟩ := h.entries e he
      exact hnew (List.mem_map.mpr ⟨d,hd,xor_right_injective hk⟩)
    have hperm := KadMap.set_perm (v := c.ref) hkey
    refine ⟨fun e he => ?_,?_,fun r => ?_,h.tracking,h.freed⟩
    · rcases KadMap.mem_set he with rfl | he
      · exact ⟨c,List.mem_cons_self,rfl⟩
      · exact (h.entries e he).imp fun _ hd => ⟨List.mem_cons_of_mem c hd.1,hd.2⟩
    · exact (hperm.map Prod.fst).nodup_iff.mpr (List.nodup_cons.mpr ⟨hkey,h.keys⟩)
    · rw [if_pos rfl,incUse_uses,(hperm.map Prod.snd).count_eq,List.map_cons,List.count_cons]
      by_cases hr : r=c.ref
      · subst hr
        rw [if_pos rfl,h.uses]
        simp
        omega
      · rw [if_neg hr,h.uses]
        simp [Ne.symm hr]
  · rw [if_neg hoffer]
    exact h.mono (List.subset_cons_self c seen)

theorem decUse_foldl (m : ContactMap) (s : Shared) :
    (∀ r,(m.foldl (fun s e => s.decUse e.2) s).uses r=s.uses r-(m.map Prod.snd).count r) ∧
      (m.foldl (fun s e => s.decUse e.2) s).tracking=s.tracking ∧
      (m.foldl (fun s e => s.decUse e.2) s).freed=s.freed := by
  induction m generalizing s with
  | nil => exact ⟨by simp,rfl,rfl⟩
  | cons e m ih =>
    obtain ⟨huses,htracking,hfreed⟩ := ih (s.decUse e.2)
    refine ⟨fun r => ?_,htracking,hfreed⟩
    rw [List.foldl_cons,huses,decUse_uses,List.map_cons,List.count_cons]
    by_cases hr : r=e.2
    · rw [if_pos hr,if_pos (by simp [hr]),hr]
      omega
    · rw [if_neg hr,if_neg (by simpa using Ne.symm hr),Nat.add_zero]

theorem trim (h : Lent target seen s₀ m s) (maxRequired : Nat) :
    Lent target seen s₀ (trimFurthest maxRequired true (m, s)).1
      (trimFurthest maxRequired true (m, s)).2 := by
  obtain ⟨huses,htracking,hfreed⟩ := decUse_foldl (m.drop maxRequired).reverse s
  refine ⟨fun e he => h.entries e (List.mem_of_mem_take he),
    h.keys.sublist ((List.take_sublist _ _).map _),fun r => ?_,htracking.trans h.tracking,
    hfreed.trans h.freed⟩
  have hsplit := congrArg (fun l => (l.map Prod.snd).count r) (List.take_append_drop maxRequired m)
  simp only [List.map_append,List.count_append] at hsplit
  have hall := h.uses r
  simp only [trimFurthest,if_true]
  rw [huses,List.map_reverse,List.count_reverse]
  omega

theorem offer_foldl (h : Lent target seen s₀ m s) (maxType : Nat) {es : ContactList}
    (hids : ((es++seen).map Contact.clientId).Nodup) :
    Lent target (es++seen) s₀ (es.foldl (offerContact maxType target true) (m, s)).1
      (es.foldl (offerContact maxType target true) (m, s)).2 := by
  induction es generalizing seen m s with
  | nil => exact h
  | cons c es ih =>
    rw [List.cons_append] at hids
    obtain ⟨hfirst,-⟩ := List.nodup_cons.mp hids
    rw [List.map_append,List.mem_append,not_or] at hfirst
    have hperm : (c::(es++seen)).Perm (es++(c::seen)) := List.perm_middle.symm
    have hrest := ih (h.offer maxType hfirst.2) ((hperm.map _).nodup_iff.mp hids)
    exact hrest.mono hperm.symm.subset

theorem getClosestTo_bin (h : Lent target seen s₀ m s) (maxType maxRequired : Nat)
    (emptyFirst : Bool) (hempty : emptyFirst=true → m=[])
    (hids : ((bin++seen).map Contact.clientId).Nodup) :
    let r := RoutingBin.getClosestTo maxType target maxRequired true bin emptyFirst m s
    Lent target (bin++seen) s₀ r.1 r.2 := by
  have hstart : (if emptyFirst=true then [] else m)=m := by
    split_ifs with hcase
    · exact (hempty hcase).symm
    · rfl
  unfold RoutingBin.getClosestTo
  rw [hstart]
  split_ifs
  · exact h.mono (List.subset_append_right bin seen)
  · exact (h.offer_foldl maxType hids).trim maxRequired

theorem getClosestTo_zone (h : Lent target seen s₀ m s) (maxType maxRequired : Nat)
    (distance : KadUInt128) (level : Nat) (emptyFirst : Bool) (hempty : emptyFirst=true → m=[])
    (hids : ((z.contacts++seen).map Contact.clientId).Nodup) :
    let r := z.getClosestTo maxType target maxRequired true distance level emptyFirst m s
    Lent target (z.contacts++seen) s₀ r.1 r.2 := by
  induction z generalizing seen m s level emptyFirst with
  | leaf bin => exact h.getClosestTo_bin maxType maxRequired emptyFirst hempty hids
  | node zero one ihZero ihOne =>
    have hzeroLast : (zero.contacts++one.contacts++seen).Perm
        (zero.contacts++(one.contacts++seen)) := by rw [List.append_assoc]
    have honeLast : (zero.contacts++one.contacts++seen).Perm
        (one.contacts++(zero.contacts++seen)) := by
      rw [← List.append_assoc]
      exact List.perm_append_comm.append_right seen
    have hzeroLastIds := (hzeroLast.map Contact.clientId).nodup_iff.mp hids
    have honeLastIds := (honeLast.map Contact.clientId).nodup_iff.mp hids
    have honeIds : ((one.contacts++seen).map Contact.clientId).Nodup :=
      hzeroLastIds.sublist ((List.sublist_append_right _ _).map _)
    have hzeroIds : ((zero.contacts++seen).map Contact.clientId).Nodup :=
      honeLastIds.sublist ((List.sublist_append_right _ _).map _)
    unfold Zone.getClosestTo
    cases getBitNumber distance level with
    | true =>
      have hfirst := ihOne h (level+1) emptyFirst hempty honeIds
      rw [if_pos rfl]
      dsimp only
      split_ifs
      · exact (ihZero hfirst (level+1) false (by simp) hzeroLastIds).mono hzeroLast.symm.subset
      · exact hfirst.mono fun c hc => hzeroLast.symm.subset (List.mem_append_right _ hc)
    | false =>
      have hfirst := ihZero h (level+1) emptyFirst hempty hzeroIds
      rw [if_neg (by simp)]
      dsimp only
      split_ifs
      · exact (ihOne hfirst (level+1) false (by simp) honeLastIds).mono honeLast.symm.subset
      · exact hfirst.mono fun c hc => honeLast.symm.subset (List.mem_append_right _ hc)

end Lent

/-- The pinned contacts of a search: each is one of the tree, under its distance, and once. -/
structure Pinned (cs : ContactList) (target : KadUInt128) (inUse : ContactMap) : Prop where
  entries : ∀ e ∈ inUse, ∃ c ∈ cs, e = (c.clientId ^^^ target, c.ref)
  keys : (inUse.map Prod.fst).Nodup

/-- After a fetch is recorded, the search holds one reference for each contact it has pinned, with
`u` what the others hold. -/
theorem pinFetchedContacts_spec {search : Search} (u : Nat → Nat)
    (hids : (cs.map Contact.clientId).Nodup) (hpinned : Pinned cs search.target search.inUse)
    (hfetched : ∀ e∈fetched,∃ c∈cs, e=(c.clientId ^^^ search.target, c.ref))
    (huses : ∀ r,s.uses r =
      u r+(search.inUse.map Prod.snd).count r+(fetched.map Prod.snd).count r) :
    ∃ inUse s', search.pinFetchedContacts fetched s=({ search with inUse := inUse }, s') ∧
      Pinned cs search.target inUse ∧
      (∀ r,s'.uses r=u r+(inUse.map Prod.snd).count r) ∧
      s'.tracking=s.tracking ∧ s'.freed=s.freed ∧
      (∀ e∈search.inUse,e∈inUse) ∧ ∀ e∈fetched,e∈inUse := by
  induction fetched generalizing search s with
  | nil => exact ⟨search.inUse,s,rfl,hpinned,by simpa using huses,rfl,rfl,by simp,by simp⟩
  | cons e fetched ih =>
    obtain ⟨hfirst,hrest⟩ := List.forall_mem_cons.mp hfetched
    obtain ⟨c,hc,rfl⟩ := hfirst
    by_cases hcontains : KadMap.contains search.inUse (c.clientId ^^^ search.target)=true
    · obtain ⟨e',he',hkey⟩ := List.mem_map.mp (KadMap.contains_iff.mp hcontains)
      obtain ⟨d,hd,rfl⟩ := hpinned.entries e' he'
      have hsame : d=c :=
        List.inj_on_of_nodup_map hids hd hc (Lent.xor_right_injective hkey)
      subst hsame
      have hstep : search.pinFetchedContacts ((d.clientId ^^^ search.target, d.ref)::fetched) s =
          search.pinFetchedContacts fetched (s.decUse d.ref) := by
        simp [Search.pinFetchedContacts,hcontains]
      have huses' : ∀ r,(s.decUse d.ref).uses r =
          u r+(search.inUse.map Prod.snd).count r+(fetched.map Prod.snd).count r := by
        intro r
        have hr := huses r
        rw [List.map_cons,List.count_cons] at hr
        rw [decUse_uses]
        by_cases heq : r=d.ref
        · subst heq
          simp only [beq_self_eq_true,if_true] at hr ⊢
          omega
        · rw [if_neg heq]
          simpa [Ne.symm heq] using hr
      obtain ⟨inUse,s',hrun,hok,huses'',htracking,hfreed,hold,hnew⟩ :=
        ih hpinned hrest huses'
      exact ⟨inUse,s',hstep.trans hrun,hok,huses'',htracking,hfreed,hold,
        List.forall_mem_cons.mpr ⟨hold _ he',hnew⟩⟩
    · have hkey : c.clientId ^^^ search.target∉search.inUse.map Prod.fst := fun hmem =>
        hcontains (KadMap.contains_iff.mpr hmem)
      have hperm := KadMap.set_perm (v := c.ref) hkey
      have hstep : search.pinFetchedContacts ((c.clientId ^^^ search.target, c.ref)::fetched) s =
          Search.pinFetchedContacts { search with
            inUse := KadMap.set (c.clientId ^^^ search.target) c.ref search.inUse } fetched s := by
        simp [Search.pinFetchedContacts,hcontains]
      have hpinned' : Pinned cs search.target
          (KadMap.set (c.clientId ^^^ search.target) c.ref search.inUse) := by
        refine ⟨fun e he => ?_,(hperm.map Prod.fst).nodup_iff.mpr
          (List.nodup_cons.mpr ⟨hkey,hpinned.keys⟩)⟩
        rcases KadMap.mem_set he with rfl | he
        · exact ⟨c,hc,rfl⟩
        · exact hpinned.entries e he
      obtain ⟨inUse,s',hrun,hok,huses',htracking,hfreed,hold,hnew⟩ := @ih s
          { search with inUse := KadMap.set (c.clientId ^^^ search.target) c.ref search.inUse }
        hpinned' hrest fun r => by
          have hr := huses r
          rw [(hperm.map Prod.snd).count_eq]
          simp only [List.map_cons,List.count_cons] at hr ⊢
          omega
      exact ⟨inUse,s',hstep.trans hrun,hok,huses',htracking,hfreed,
        fun e he => hold e (hperm.mem_iff.mpr (List.mem_cons_of_mem _ he)),
        List.forall_mem_cons.mpr ⟨hold _ (hperm.mem_iff.mpr List.mem_cons_self),hnew⟩⟩

namespace Search

variable {search : Search} {u : Nat → Nat} {e e' : KadUInt128 × Nat}

/-- The objects the search points to. -/
def PointsTo (search : Search) (e : KadUInt128 × Nat) : Prop :=
  e∈search.possible ∨ e∈search.tried ∨ e∈search.best

/-- What it points to is pinned or its own. -/
structure SearchOk (cs : ContactList) (search : Search) : Prop where
  pinned : Pinned cs search.target search.inUse
  held : ∀ e, search.PointsTo e →
    e.2∈search.inUse.map Prod.snd ∨ e.2∈search.deleteList.map Contact.ref

/-- A step of a search that only pins: one reference each, with `u` what the other searches hold. -/
structure Served (cs : ContactList) (u : Nat → Nat) (search : Search) (s : Shared)
    (r : Search × Shared) : Prop where
  ok : SearchOk cs r.1
  uses : ∀ ref, r.2.uses ref = u ref + (r.1.inUse.map Prod.snd).count ref
  tracking : r.2.tracking = s.tracking
  freed : r.2.freed = s.freed
  target : r.1.target = search.target
  deleteList : r.1.deleteList = search.deleteList

theorem send_pointsTo {n : Nat} (h : (search.send n).PointsTo e) : search.PointsTo e := by
  rcases h with h | h | h
  · exact Or.inl (List.mem_of_mem_drop h)
  · rcases KadMap.mem_setAll h with h | h
    · exact Or.inr (Or.inl h)
    · exact Or.inl (List.mem_of_mem_take h)
  · exact Or.inr (Or.inr h)

theorem autoQueryOne_pointsTo (h : (search.autoQueryOne e').PointsTo e) :
    search.PointsTo e ∨ e=e' := by
  unfold autoQueryOne at h
  by_cases htried : KadMap.contains search.tried e'.1=true
  · rw [if_pos htried] at h
    exact Or.inl h
  · rw [if_neg htried] at h
    dsimp only at h
    split_ifs at h with htop hfull
    · rcases h with h | h | h
      · exact Or.inl (Or.inl (List.mem_filter.mp h).1)
      · exact (KadMap.mem_set h).symm.imp (fun h => Or.inr (Or.inl h)) id
      · exact (KadMap.mem_set h).symm.imp
          (fun h => Or.inr (Or.inr (List.dropLast_subset _ h))) id
    · rcases h with h | h | h
      · exact Or.inl (Or.inl (List.mem_filter.mp h).1)
      · exact (KadMap.mem_set h).symm.imp (fun h => Or.inr (Or.inl h)) id
      · exact (KadMap.mem_set h).symm.imp (fun h => Or.inr (Or.inr h)) id
    · exact Or.inl h

theorem autoQueryOne_fields (search : Search) (e : KadUInt128 × Nat) :
    (search.autoQueryOne e).inUse=search.inUse ∧
      (search.autoQueryOne e).deleteList=search.deleteList ∧
      (search.autoQueryOne e).target=search.target := by
  unfold autoQueryOne
  dsimp only
  split_ifs <;> exact ⟨rfl,rfl,rfl⟩

theorem autoQuery_spec (search : Search) (es : ContactMap) :
    (∀ e,(es.foldl autoQueryOne search).PointsTo e → search.PointsTo e ∨ e∈es) ∧
      (es.foldl autoQueryOne search).inUse=search.inUse ∧
      (es.foldl autoQueryOne search).deleteList=search.deleteList ∧
      (es.foldl autoQueryOne search).target=search.target := by
  induction es generalizing search with
  | nil => exact ⟨fun e h => Or.inl h,rfl,rfl,rfl⟩
  | cons x es ih =>
    obtain ⟨hpoints,hinUse,hdelete,htarget⟩ := ih (search.autoQueryOne x)
    obtain ⟨hinUse',hdelete',htarget'⟩ := autoQueryOne_fields search x
    refine ⟨fun e h => ?_,hinUse.trans hinUse',hdelete.trans hdelete',htarget.trans htarget'⟩
    rcases hpoints e h with h | h
    · refine (autoQueryOne_pointsTo h).imp id fun h => ?_
      rw [h]
      exact List.mem_cons_self
    · exact Or.inr (List.mem_cons_of_mem x h)

theorem served_possible {r : Search × Shared} (h : Served cs u search s r)
    (possible : ContactMap) (hnew : ∀ e∈possible,e∈r.1.inUse) :
    Served cs u search s ({ r.1 with possible := possible }, r.2) := by
  refine ⟨⟨h.ok.pinned,fun e he => ?_⟩,h.uses,h.tracking,h.freed,h.target,h.deleteList⟩
  rcases he with he | he | he
  · exact Or.inl (List.mem_map_of_mem (hnew e he))
  · exact h.ok.held e (Or.inr (Or.inl he))
  · exact h.ok.held e (Or.inr (Or.inr he))

section Fetch

variable (hids : (z.contacts.map Contact.clientId).Nodup) (hok : SearchOk z.contacts search)
  (huses : ∀ ref, s.uses ref=u ref+(search.inUse.map Prod.snd).count ref)

include hids hok huses

theorem fetch_served (maxRequired : Nat) (distance : KadUInt128) :
    let r := z.getClosestTo 3 search.target maxRequired true distance 0 true [] s
    let r' := search.pinFetchedContacts r.1 r.2
    Served z.contacts u search s r' ∧ (∀ e∈r.1,e∈r'.1.inUse) ∧
      ∃ inUse, r'.1 = { search with inUse := inUse } := by
  intro r r'
  have hlent : Lent search.target z.contacts s r.1 r.2 := by
    have h := (Lent.nothing search.target s).getClosestTo_zone (z := z) 3 maxRequired
      distance 0 true (fun _ => rfl) (by rwa [List.append_nil])
    rwa [List.append_nil] at h
  obtain ⟨inUse,s',hrun,hpinned,huses',htracking,hfreed,hold,hnew⟩ :=
    pinFetchedContacts_spec u hids hok.pinned hlent.entries fun ref => by
      rw [hlent.uses,huses]
  have hr' : r'=({ search with inUse := inUse }, s') := hrun
  rw [hr']
  refine ⟨⟨⟨hpinned,fun e he => ?_⟩,huses',htracking.trans hlent.tracking,
    hfreed.trans hlent.freed,rfl,rfl⟩,hnew,inUse,rfl⟩
  refine (hok.held e he).imp_left fun h => ?_
  obtain ⟨e',he',heq⟩ := List.mem_map.mp h
  exact heq ▸ List.mem_map_of_mem (hold e' he')

theorem reseed_served (hempty : search.possible=[]) (localKadId : KadUInt128) :
    Served z.contacts u search s (search.reseed localKadId z s) := by
  obtain ⟨hserved,hnew,inUse,hfields⟩ :=
    fetch_served hids hok huses 50 (localKadId ^^^ search.target)
  unfold reseed
  rw [hempty]
  generalize z.getClosestTo 3 search.target 50 true (localKadId ^^^ search.target) 0 true [] s=r
    at hserved hnew hfields ⊢
  exact served_possible hserved _ fun e he => hnew e (List.mem_filter.mp he).1

theorem go_served (localKadId : KadUInt128) (maxToSend : Nat) :
    Served z.contacts u search s (search.go localKadId z s maxToSend) := by
  have hsame : Served z.contacts u search s (search, s) := ⟨hok,huses,rfl,rfl,rfl,rfl⟩
  have hseeded : Served z.contacts u search s
      (if search.possible=[] then search.reseed localKadId z s else (search, s)) := by
    split_ifs with hempty
    · exact reseed_served hids hok huses hempty localKadId
    · exact hsame
  unfold go
  generalize (if search.possible=[] then search.reseed localKadId z s else (search, s))=r
    at hseeded ⊢
  dsimp only
  split_ifs
  · exact hsame
  · exact hseeded
  · exact ⟨⟨hseeded.ok.pinned,hseeded.ok.held⟩,hseeded.uses,hseeded.tracking,hseeded.freed,
      hseeded.target,hseeded.deleteList⟩
  · exact ⟨⟨hseeded.ok.pinned,fun e he => hseeded.ok.held e (send_pointsTo he)⟩,hseeded.uses,
      hseeded.tracking,hseeded.freed,hseeded.target,hseeded.deleteList⟩

end Fetch

theorem start_served (hids : (z.contacts.map Contact.clientId).Nodup) (type : SearchType)
    (huses : ∀ ref,s.uses ref=u ref) :
    Served z.contacts u (create type target) s ((create type target).start localKadId z s) := by
  have hok : SearchOk z.contacts (create type target) :=
    ⟨⟨by simp [create],List.nodup_nil⟩,by simp [create,PointsTo]⟩
  have huses' : ∀ ref,s.uses ref =
      u ref+((create type target).inUse.map Prod.snd).count ref := by simpa [create] using huses
  obtain ⟨hserved,hnew,inUse,hfields⟩ :=
    fetch_served hids hok huses' 50 (localKadId ^^^ (create type target).target)
  unfold start
  generalize z.getClosestTo 3 (create type target).target 50 true
    (localKadId ^^^ (create type target).target) 0 true [] s=r at hserved hnew hfields ⊢
  dsimp only at hserved hnew hfields ⊢
  generalize (create type target).pinFetchedContacts r.1 r.2=r' at hserved hnew hfields ⊢
  obtain ⟨x,s'⟩ := r'
  dsimp only at hserved hnew hfields ⊢
  have hnone : x.possible=[] := by
    rw [hfields]
    rfl
  have hseeded := served_possible hserved
    (KadMap.setAll x.possible r.1) fun e he => by
      rcases KadMap.mem_setAll he with he | he
      · rw [hnone] at he
        cases he
      · exact hnew e he
  have hgo := go_served hids hseeded.ok hseeded.uses localKadId kAlphaQuery
  exact ⟨hgo.ok,hgo.uses,hgo.tracking.trans hseeded.tracking,hgo.freed.trans hseeded.freed,
    hgo.target.trans hseeded.target,hgo.deleteList.trans hseeded.deleteList⟩

end Search

end EmuleQt.Kademlia
