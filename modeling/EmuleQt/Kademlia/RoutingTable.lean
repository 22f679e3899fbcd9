import EmuleQt.Framework.Run
import EmuleQt.Kademlia.RoutingZoneSpec

namespace EmuleQt.Kademlia

open Framework Net

/-- The tree with what its bins share; `nextRef` is the address of the next object. -/
structure RoutingTable where
  localKadId : KadUInt128
  zone : Zone
  shared : Shared
  nextRef : Nat

/-- What a peer says of a contact. -/
structure Announced where
  id : KadUInt128
  ip : UInt32
  udpPort : UInt16
  tcpPort : UInt16
  version : UInt8
  udpKey : KadUDPKey
  ipVerified : Bool

/-- What `add` looks up outside the table. -/
structure Surroundings where
  filterLANIPs : Bool
  isFiltered : UInt32 → Bool
  publicIP : UInt32
  now : Int

/-- `Address::isPublicIP` of an IPv4 address in host order; 0 is no address. -/
def isPublicIP (ip : UInt32) : Bool :=
  let a := ip.toNat / 2 ^ 24
  let b := ip.toNat / 2 ^ 16 % 2 ^ 8
  let c := ip.toNat / 2 ^ 8 % 2 ^ 8
  !decide (a = 0 ∨ a = 10 ∨ a = 127 ∨ (a = 192 ∧ b = 168) ∨ (a = 172 ∧ 16 ≤ b ∧ b ≤ 31) ∨
    (a = 169 ∧ b = 254) ∨ 224 ≤ a ∨ (a = 100 ∧ 64 ≤ b ∧ b ≤ 127) ∨
    (a = 192 ∧ b = 0 ∧ (c = 0 ∨ c = 2)) ∨ (a = 192 ∧ b = 88 ∧ c = 99) ∨
    (a = 198 ∧ (b = 18 ∨ b = 19)) ∨ (a = 198 ∧ b = 51 ∧ c = 100) ∨
    (a = 203 ∧ b = 0 ∧ c = 113))

def isRoutable (ip : UInt32) (allowLan : Bool) : Bool :=
  if allowLan then decide (ip.toNat / 2 ^ 24 ≠ 0) else isPublicIP ip

namespace RoutingTable

def create (localKadId : KadUInt128) : RoutingTable := ⟨localKadId, .leaf [], Shared.empty, 0⟩

/-- `add(Contact*)` from the root; a contact that does not go in is deleted by the caller. -/
def insert (t : RoutingTable) (a : Announced) (helloed : Bool) (w : Surroundings) (update : Bool) :
    RoutingTable :=
  if a.id = t.localKadId then t
  else
    let contact := { Contact.create t.nextRef t.localKadId a.id a.ip a.udpPort a.tcpPort a.version
      a.udpKey a.ipVerified w.now with receivedHelloPacket := helloed }
    let r := t.zone.add w.publicIP w.now contact 0 0 t.shared update
    { t with
      zone := r.zone
      shared := if r.added then r.shared else r.shared.delete contact
      nextRef := t.nextRef + 1 }

def addUnfiltered (t : RoutingTable) (a : Announced) (w : Surroundings)
    (update fromHello : Bool) : RoutingTable :=
  if a.version ≤ KADEMLIA_VERSION1_46c then t
  else if a.id = t.localKadId then t
  else t.insert a fromHello w update

/-- Who is let in at all. -/
def acceptable (t : RoutingTable) (a : Announced) (w : Surroundings) : Bool :=
  decide (a.id ≠ t.localKadId) && decide (KADEMLIA_VERSION1_46c < a.version) &&
    isRoutable a.ip (!w.filterLANIPs) && decide (a.udpPort ≠ 0) && !w.isFiltered a.ip &&
    !(decide (a.udpPort = 53) && decide (a.version ≤ KADEMLIA_VERSION5_48a))

def add (t : RoutingTable) (a : Announced) (w : Surroundings) (update fromHello : Bool) :
    RoutingTable :=
  if t.acceptable a w then t.addUnfiltered a w update fromHello else t

/-- One entry of nodes.dat. -/
def load (t : RoutingTable) (a : Announced) (w : Surroundings) : RoutingTable :=
  if t.acceptable a w then t.insert a false w false else t

def getContact (t : RoutingTable) (id : KadUInt128) : Option Contact :=
  t.zone.contacts.find? fun c => decide (id = c.clientId)

def getContactByUDP (t : RoutingTable) (ip : UInt32) (port : UInt16) : Option Contact :=
  t.zone.contacts.find? fun c => decide (ip=c.ip) && (decide (port=c.udpPort) || port == 0)

/-- An object of the table is changed where it is. -/
def modify (t : RoutingTable) (ref : Nat) (f : Contact → Contact) : RoutingTable :=
  { t with zone := t.zone.map fun c => if c.ref = ref then f c else c }

def verifyContact (t : RoutingTable) (id : KadUInt128) (ip : UInt32) : RoutingTable :=
  match t.getContact id with
  | some c => if c.ip = ip then t.modify c.ref fun c => { c with ipVerified := true } else t
  | none => t

/-- A peer that floods is dropped at the next occasion. -/
def expireContact (t : RoutingTable) (ip : UInt32) (udpPort : UInt16) : RoutingTable :=
  match t.getContactByUDP ip udpPort with
  | some c => t.modify c.ref Contact.expire
  | none => t

/-- Work on the leaf at a path. -/
def atLeaf (t : RoutingTable) (path : List Bool)
    (work : ContactList → Shared → ContactList × Shared) : RoutingTable :=
  let (zone, shared) := t.zone.atLeaf work path t.shared
  { t with zone, shared }

def consolidate (t : RoutingTable) : RoutingTable :=
  let (zone, shared) := t.zone.consolidate t.shared
  { t with zone, shared }

inductive Op
  | add (a : Announced) (w : Surroundings) (update fromHello : Bool)
  | addUnfiltered (a : Announced) (w : Surroundings) (update fromHello : Bool)
  | load (a : Announced) (w : Surroundings)
  | setAllContactsVerified
  | verifyContact (id : KadUInt128) (ip : UInt32)
  | expireContact (ip : UInt32) (udpPort : UInt16)
  | onSmallTimer (path : List Bool) (offline : Bool) (banned : UInt32 → Bool) (now : Int)
  | voidChecksSince (path : List Bool) (since now : Int)
  | markRecheckAll (path : List Bool) (now : Int)
  | consolidate

def step (t : RoutingTable) : Op → RoutingTable
  | .add a w update fromHello => t.add a w update fromHello
  | .addUnfiltered a w update fromHello => t.addUnfiltered a w update fromHello
  | .load a w => t.load a w
  | .setAllContactsVerified => { t with zone := t.zone.map fun c => { c with ipVerified := true } }
  | .verifyContact id ip => t.verifyContact id ip
  | .expireContact ip udpPort => t.expireContact ip udpPort
  | .onSmallTimer path offline banned now => t.atLeaf path (Zone.onSmallTimer offline banned now)
  | .voidChecksSince path since now =>
    t.atLeaf path fun bin s => (bin.map (Contact.voidChecksSince since now), s)
  | .markRecheckAll path now => t.atLeaf path fun bin s => (bin.map (Contact.markRecheck now), s)
  | .consolidate => t.consolidate

/-- The tree is in order, and no object is newer than the next. -/
structure Sound (t : RoutingTable) : Prop where
  consistent : Consistent t.localKadId t.zone.contacts t.shared.tracking
  ok : t.zone.Ok (fun _ => True) 0
  fresh : ∀ ref ∈ t.zone.contacts.map Contact.ref, ref < t.nextRef

/-- What one operation does: at most one object comes, and what goes is freed. -/
structure StepOk (t t' : RoutingTable) (come : List (Nat × KadUInt128))
    (gone : ContactList) : Prop where
  localKadId : t'.localKadId=t.localKadId
  ok : t'.zone.Ok (fun _ => True) 0
  effect : Zone.Effect t.localKadId [] come t.zone.contacts t'.zone.contacts t.shared t'.shared gone
  come : come=[] ∧ t'.nextRef=t.nextRef ∨
    ∃ id, come=[(t.nextRef, id)] ∧ t'.nextRef=t.nextRef+1

variable {t t' : RoutingTable} {come : List (Nat × KadUInt128)} {gone : ContactList}

theorem sound_create (localKadId : KadUInt128) : Sound (create localKadId) :=
  ⟨⟨⟨fun _ => rfl,fun _ => rfl⟩,⟨List.nodup_nil,fun _ _ => Nat.zero_le _⟩,
    ⟨List.nodup_nil,List.nodup_nil,by simp [create,Zone.contacts]⟩⟩,
    ⟨Nat.zero_le _,fun _ _ => Nat.zero_le _,by simp⟩,by simp [create,Zone.contacts]⟩

theorem Sound.of_step (h : Sound t) (hstep : StepOk t t' come gone) : Sound t' := by
  have hconsistent := hstep.effect.consistent
  rw [List.append_nil] at hconsistent
  refine ⟨hstep.localKadId ▸ hconsistent,hstep.ok,fun ref href => ?_⟩
  have hmem := hstep.effect.refs.mem_iff.mp (List.mem_append_left _ href)
  rcases hstep.come with ⟨rfl,hnext⟩ | ⟨id,rfl,hnext⟩
  · rw [hnext]
    exact h.fresh ref hmem
  · rw [hnext]
    rcases List.mem_cons.mp hmem with rfl | hold
    · exact Nat.lt_succ_self _
    · exact Nat.lt_succ_of_lt (h.fresh ref hold)

theorem Sound.whole (h : Sound t) :
    Consistent t.localKadId (t.zone.contacts++[]) t.shared.tracking := by
  rw [List.append_nil]
  exact h.consistent

/-- Who goes in a step that does not consolidate: nobody uses them, or the newcomer itself. -/
def Spared (t : RoutingTable) (gone : ContactList) : Prop :=
  ∀ c ∈ gone, t.shared.inUse c = false ∨ c.ref = t.nextRef

theorem stays_ok (h : Sound t) : ∃ come gone, StepOk t t come gone ∧ Spared t gone :=
  ⟨[],[],⟨rfl,h.ok,Zone.Effect.of_objects h.whole (List.Perm.refl _),Or.inl ⟨rfl,rfl⟩⟩,
    by simp [Spared]⟩

theorem zone_ok {r : Zone × Shared}
    (hr : Zone.ZoneOk t.localKadId (fun _ => True) 0 [] t.zone.contacts t.shared r) :
    ∃ come gone, StepOk t { t with zone := r.1, shared := r.2 } come gone ∧ Spared t gone := by
  obtain ⟨hok,gone,heffect,hfree⟩ := hr
  exact ⟨[],gone,⟨rfl,hok,heffect,Or.inl ⟨rfl,rfl⟩⟩,fun c hc => Or.inl (hfree c hc)⟩

theorem modify_ok (h : Sound t) {ref : Nat} {f : Contact → Contact}
    (hf : ∀ c,(f c).place=c.place) :
    ∃ come gone, StepOk t (t.modify ref f) come gone ∧ Spared t gone := by
  refine zone_ok (Zone.map_ok (fun c => ?_) h.whole h.ok)
  split_ifs
  · exact hf c
  · rfl

theorem insert_ok (h : Sound t) (a : Announced) (helloed : Bool) (w : Surroundings)
    (update : Bool) :
    ∃ come gone, StepOk t (t.insert a helloed w update) come gone ∧ Spared t gone := by
  unfold insert
  split_ifs
  · exact stays_ok h
  · dsimp only
    generalize hcontact : { Contact.create t.nextRef t.localKadId a.id a.ip a.udpPort a.tcpPort
      a.version a.udpKey a.ipVerified w.now with receivedHelloPacket := helloed } = contact
    have href : contact.ref=t.nextRef := by rw [← hcontact]; rfl
    have hobject : contact.object=(t.nextRef, contact.clientId) := by rw [Contact.object,href]
    have hdistance : contact.distance=t.localKadId ^^^ contact.clientId := by
      rw [← hcontact]
      rfl
    have hunknown : contact.ref∉(t.zone.contacts++[]).map Contact.ref := fun hmem => by
      rw [List.append_nil] at hmem
      exact Nat.lt_irrefl _ (href ▸ h.fresh _ hmem)
    have hadd : Zone.AddOk t.localKadId (fun _ => True) 0 [] t.zone.contacts contact t.shared
        (t.zone.add w.publicIP w.now contact 0 0 t.shared update) :=
      Zone.add_ok w.publicIP w.now 0 h.whole h.ok (by simp) hunknown hdistance trivial
    obtain ⟨hok,gone,heffect,hfree⟩ := hadd
    generalize t.zone.add w.publicIP w.now contact 0 0 t.shared update=r at hok heffect ⊢
    cases hadded : r.added with
    | true =>
      rw [hadded,if_pos rfl,hobject] at heffect
      exact ⟨[(t.nextRef, contact.clientId)],gone,⟨rfl,hok,heffect,Or.inr ⟨_,rfl,rfl⟩⟩,
        fun c hc => Or.inl (hfree c hc)⟩
    | false =>
      rw [hadded,if_neg (by simp)] at heffect
      refine ⟨[(t.nextRef, contact.clientId)],gone++[contact],⟨rfl,hok,
        ⟨heffect.consistent,heffect.uses,?_,?_⟩,Or.inr ⟨_,rfl,rfl⟩⟩,fun c hc => ?_⟩
      · simp [Shared.delete,heffect.freed,heffect.uses]
      · rw [List.map_append,← List.append_assoc,List.map_cons,List.map_nil,hobject]
        exact (List.perm_append_singleton _ _).trans (heffect.objects.cons _)
      · rcases List.mem_append.mp hc with hc | hc
        · exact Or.inl (hfree c hc)
        · rw [List.mem_singleton.mp hc]
          exact Or.inr href

theorem step_ok (h : Sound t) {op : Op} (hop : op ≠ .consolidate) :
    ∃ come gone, StepOk t (t.step op) come gone ∧ Spared t gone := by
  have hunfiltered : ∀ a w update fromHello,∃ come gone,
      StepOk t (t.addUnfiltered a w update fromHello) come gone ∧ Spared t gone := by
    intro a w update fromHello
    unfold addUnfiltered
    split_ifs
    · exact stays_ok h
    · exact stays_ok h
    · exact insert_ok h a fromHello w update
  cases op with
  | add a w update fromHello =>
    unfold step RoutingTable.add
    dsimp only
    split_ifs
    · exact hunfiltered a w update fromHello
    · exact stays_ok h
  | addUnfiltered a w update fromHello => exact hunfiltered a w update fromHello
  | load a w =>
    unfold step load
    dsimp only
    split_ifs
    · exact insert_ok h a false w false
    · exact stays_ok h
  | setAllContactsVerified =>
    have hmap := Zone.map_ok (f := fun c => { c with ipVerified := true }) (fun _ => rfl) h.whole h.ok
    exact zone_ok hmap
  | verifyContact id ip =>
    unfold step verifyContact
    dsimp only
    cases t.getContact id with
    | none => exact stays_ok h
    | some c =>
      dsimp only
      split_ifs
      · exact modify_ok h fun _ => rfl
      · exact stays_ok h
  | expireContact ip udpPort =>
    unfold step expireContact
    dsimp only
    cases t.getContactByUDP ip udpPort with
    | none => exact stays_ok h
    | some c => exact modify_ok h Contact.expire_place
  | onSmallTimer path offline banned now =>
    exact zone_ok (Zone.atLeaf_ok (Zone.onSmallTimer_ok offline banned now) path h.whole h.ok)
  | voidChecksSince path since now =>
    exact zone_ok (Zone.atLeaf_ok (Zone.mapBin_ok (Contact.voidChecksSince_place since now)) path
      h.whole h.ok)
  | markRecheckAll path now =>
    exact zone_ok (Zone.atLeaf_ok (Zone.mapBin_ok (Contact.markRecheck_place now)) path
      h.whole h.ok)
  | consolidate => exact absurd rfl hop

theorem consolidate_ok (h : Sound t) :
    ∃ gone, gone.Perm t.zone.pressed ∧ StepOk t t.consolidate [] gone := by
  obtain ⟨hok,-,-,gone,hgone,heffect⟩ := Zone.consolidate_ok h.whole h.ok
  exact ⟨gone,hgone,rfl,hok,heffect,Or.inl ⟨rfl,rfl⟩⟩

theorem step_sound (h : Sound t) (op : Op) :
    Sound (t.step op) ∧ (t.step op).localKadId=t.localKadId := by
  by_cases hop : op = .consolidate
  · subst hop
    obtain ⟨gone,-,hstep⟩ := consolidate_ok h
    exact ⟨h.of_step hstep,hstep.localKadId⟩
  · obtain ⟨come,gone,hstep,-⟩ := step_ok h hop
    exact ⟨h.of_step hstep,hstep.localKadId⟩

theorem run_sound (localKadId : KadUInt128) (ops : List Op) :
    Sound (run step (create localKadId) ops) ∧
      (run step (create localKadId) ops).localKadId=localKadId := by
  have hstep : ∀ t op,Sound t ∧ t.localKadId=localKadId → True →
      Sound (step t op) ∧ (step t op).localKadId=localKadId := by
    intro t op h _
    obtain ⟨hsound,hlocal⟩ := step_sound h.1 op
    exact ⟨hsound,hlocal.trans h.2⟩
  exact run_invariant hstep ⟨sound_create localKadId,rfl⟩ (along_true step _ ops)

theorem exists_binAt {z : Zone} {c : Contact} (h : c∈z.contacts) :
    ∃ path bin, z.binAt path=some bin ∧ c∈bin := by
  induction z with
  | leaf bin => exact ⟨[],bin,rfl,h⟩
  | node zero one ihZero ihOne =>
    rcases List.mem_append.mp h with h | h
    · obtain ⟨path,bin,hbin,hc⟩ := ihZero h
      exact ⟨false::path,bin,hbin,hc⟩
    · obtain ⟨path,bin,hbin,hc⟩ := ihOne h
      exact ⟨true::path,bin,hbin,hc⟩

theorem mem_of_binAt {z : Zone} {path : List Bool} {bin : ContactList} {c : Contact}
    (h : z.binAt path=some bin) (hc : c∈bin) : c∈z.contacts := by
  induction z generalizing path with
  | leaf leafBin =>
    cases path with
    | nil =>
      cases h
      exact hc
    | cons bit path => cases h
  | node zero one ihZero ihOne =>
    cases path with
    | nil => cases h
    | cons bit path =>
      cases bit with
      | false => exact List.mem_append_left _ (ihZero h)
      | true => exact List.mem_append_right _ (ihOne h)

/-- After every run every contact lies in one leaf, on the path of its distance, no bin is over its
limits, no ID or address stands twice, and the counters count the contacts of the tree. -/
theorem routingTable_correct (localKadId : KadUInt128) (ops : List Op) :
    let t := run step (create localKadId) ops
    (∀ c∈t.zone.contacts,∃ path bin, t.zone.binAt path=some bin ∧ c∈bin) ∧
      (∀ path bin,t.zone.binAt path=some bin → bin.length≤kK ∧
        (∀ c∈bin,path =
          (List.range path.length).map (getBitNumber (localKadId ^^^ c.clientId))) ∧
        ∀ ip,isLan ip=false →
          bin.countP (fun c => decide (subnetOf c.ip=subnetOf ip))≤2) ∧
      (t.zone.contacts.map Contact.clientId).Nodup ∧
      (∀ ip,t.shared.tracking.contactIPs ip =
        t.zone.contacts.countP fun c => decide (c.ip=ip)) ∧
      (∀ n,t.shared.tracking.contactSubnets n =
        t.zone.contacts.countP fun c => decide (subnetOf c.ip=n)) ∧
      (t.zone.contacts.map Contact.ip).Nodup ∧
      ∀ ip,isLan ip=false →
        t.zone.contacts.countP (fun c => decide (subnetOf c.ip=subnetOf ip)) ≤
          kMaxContactsSubnet := by
  intro t
  obtain ⟨⟨⟨hcounted,hlimited,hdistinct⟩,hok,-⟩,hlocal⟩ := run_sound localKadId ops
  refine ⟨fun c hc => exists_binAt hc,fun path bin hbin => ?_,hdistinct.ids,hcounted.perIP,
    hcounted.perSubnet,hlimited.ips,hlimited.subnets⟩
  obtain ⟨hbinOk,hpath⟩ := Zone.binAt_placed hok hbin
  refine ⟨hbinOk.size,fun c hc => (hpath c hc).trans (List.map_congr_left fun i _ => ?_),
    hbinOk.spread⟩
  have hdistance := hdistinct.distances c (mem_of_binAt hbin hc)
  rw [hlocal] at hdistance
  rw [hdistance,Nat.zero_add]

end RoutingTable

end EmuleQt.Kademlia
