import EmuleQt.Kademlia.RoutingBinSpec
import EmuleQt.Kademlia.RoutingZone

namespace EmuleQt.Kademlia

open RoutingBin

variable {localKadId : KadUInt128} {inside : KadUInt128 → Prop} {bin bin' zero one es rest :
  ContactList} {c d : Contact} {g g' : GlobalTracking} {s s' : Shared} {ip : UInt32} {level : Nat}

namespace Zone

/-- Every bin is within its limits, and every contact lies on the side its distance says. -/
def Ok (inside : KadUInt128 → Prop) (level : Nat) : Zone → Prop
  | leaf bin => BinOk inside bin
  | node zero one =>
    zero.Ok (fun x => inside x ∧ getBitNumber x level = false) (level + 1) ∧
      one.Ok (fun x => inside x ∧ getBitNumber x level = true) (level + 1)

variable {z : Zone}

theorem Ok.placed (h : z.Ok inside level) : ∀ c∈z.contacts,inside c.distance := by
  induction z generalizing inside level with
  | leaf bin => exact BinOk.placed h
  | node zero one ihZero ihOne =>
    intro c hc
    rcases List.mem_append.mp hc with hc | hc
    · exact (ihZero h.1 c hc).1
    · exact (ihOne h.2 c hc).1

/-- What a step does to the contacts of a part of the tree: the rest of the tree stays, nothing is
lost but what is freed, and no use count changes. -/
structure Effect (localKadId : KadUInt128) (rest : ContactList) (come : List (Nat × KadUInt128))
    (cs cs' : ContactList) (s s' : Shared) (gone : ContactList) : Prop where
  consistent : Consistent localKadId (cs' ++ rest) s'.tracking
  uses : s'.uses = s.uses
  freed : s'.freed = s.freed ++ gone.map fun c => (c, s.uses c.ref)
  objects : (cs'.map Contact.object ++ gone.map Contact.object).Perm
    (come ++ cs.map Contact.object)

/-- Those of the contacts that come one after the other that find their /24 crowded. -/
def crowdedOut : (bin es : ContactList) → ContactList
  | _, [] => []
  | bin, c::es =>
    if crowded bin c.ip then c::crowdedOut bin es else crowdedOut (bin++[c]) es

/-- The bin with the others. -/
def fitted : (bin es : ContactList) → ContactList
  | bin, [] => bin
  | bin, c :: es => if crowded bin c.ip then fitted bin es else fitted (bin ++ [c]) es

theorem fitted_perm (bin es : ContactList) :
    (fitted bin es++crowdedOut bin es).Perm (bin++es) := by
  induction es generalizing bin with
  | nil => exact List.Perm.refl _
  | cons c es ih =>
    rw [fitted,crowdedOut]
    split_ifs
    · exact List.perm_middle.trans ((ih bin).cons c |>.trans List.perm_middle.symm)
    · have hmore := ih (bin++[c])
      rwa [List.append_assoc,List.singleton_append] at hmore

theorem fitted_append (bin xs ys : ContactList) :
    fitted bin (xs++ys)=fitted (fitted bin xs) ys := by
  induction xs generalizing bin with
  | nil => rfl
  | cons c xs ih =>
    rw [List.cons_append,fitted,fitted]
    split_ifs
    · exact ih bin
    · exact ih (bin++[c])

theorem crowded_fitted (bin es : ContactList) (ip : UInt32) :
    crowded (fitted bin es) ip=crowded (bin++es) ip := by
  induction es generalizing bin with
  | nil => rw [fitted,List.append_nil]
  | cons c es ih =>
    rw [fitted]
    split_ifs with hcrowd
    · rw [ih,crowded,crowded,sameSubnets_eq,sameSubnets_eq,List.countP_append,
        List.countP_append,List.countP_cons]
      by_cases hsame : subnetOf c.ip=subnetOf ip
      · rw [crowded,sameSubnets_eq,isLan_congr hsame,hsame,Bool.and_eq_true,
          decide_eq_true_eq] at hcrowd
        rw [hcrowd.2,decide_eq_true (by omega),decide_eq_true (by omega)]
      · rw [if_neg (by simpa using hsame),Nat.add_zero]
    · rw [ih,List.append_assoc,List.singleton_append]

theorem fitted_fitted (bin xs ys : ContactList) :
    fitted bin (fitted xs ys)=fitted (fitted bin xs) ys := by
  induction ys generalizing xs with
  | nil => rfl
  | cons c ys ih =>
    rw [fitted,fitted]
    by_cases hcrowd : crowded xs c.ip=true
    · have hmore : crowded (fitted bin xs) c.ip=true := by
        rw [crowded_fitted]
        by_contra hfree
        rw [crowded_mono (List.sublist_append_right bin xs) (by simpa using hfree)] at hcrowd
        cases hcrowd
      rw [if_pos hcrowd,if_pos hmore,ih]
    · rw [if_neg hcrowd,ih,fitted_append,fitted,fitted]
      split_ifs <;> rfl

theorem fitted_self (h : BinOk inside (bin++es)) :
    fitted bin es=bin++es ∧ crowdedOut bin es=[] := by
  induction es generalizing bin with
  | nil => exact ⟨(List.append_nil bin).symm,rfl⟩
  | cons c es ih =>
    have hfront : BinOk inside (c::(bin++es)) :=
      h.congr (SamePlaces.of_perm List.perm_middle)
    have hfree : crowded bin c.ip=false :=
      crowded_mono (List.sublist_append_left bin es) hfront.not_crowded
    have hnext := @ih (bin++[c]) (by rwa [List.append_assoc,List.singleton_append])
    rw [List.append_assoc,List.singleton_append] at hnext
    rw [fitted,crowdedOut,hfree,if_neg (by simp),if_neg (by simp)]
    exact hnext

theorem binOk_fitted (h : BinOk inside bin) (hsize : bin.length+es.length≤kK)
    (hplaced : ∀ c∈es,inside c.distance) : BinOk inside (fitted bin es) := by
  induction es generalizing bin with
  | nil => exact h
  | cons c es ih =>
    rw [List.length_cons] at hsize
    obtain ⟨hc,hes⟩ := List.forall_mem_cons.mp hplaced
    rw [fitted]
    split_ifs with hcrowd
    · exact ih h (by omega) hes
    · have hpushed := h.push (by omega) (by simpa using hcrowd) hc
      refine ih (hpushed.congr (SamePlaces.of_perm (List.perm_append_singleton c bin).symm)) ?_ hes
      rw [List.length_append,List.length_singleton]
      omega

theorem destroy_spec (hcount : Counted (bin++rest) s.tracking) :
    ∃ g, destroy bin s = { s with tracking := g } ∧ Counted rest g := by
  induction bin generalizing s with
  | nil => exact ⟨s.tracking,rfl,hcount⟩
  | cons c bin ih => exact ih (s := s.adjust c.ip false) hcount.drop

theorem addOrDelete_spec (hcount : Counted (bin++rest) s.tracking)
    (hlimited : Limited (c::(bin++rest))) (hid : c.clientId∉bin.map Contact.clientId)
    (hroom : bin.length<kK) :
    addOrDelete bin s c=if crowded bin c.ip then (bin, s.delete c)
      else (bin++[c], s.adjust c.ip true) := by
  rw [addOrDelete,addContact_eq hcount hlimited hid hroom]
  split_ifs <;> rfl

theorem counted_snoc (hcount : Counted (bin++rest) g) (c : Contact) :
    Counted ((bin++[c])++rest) (adjustGlobalTracking g c.ip true) := by
  refine (hcount.push c).congr (SamePlaces.of_perm ?_)
  rw [List.append_assoc,List.singleton_append]
  exact List.perm_middle.symm

theorem reinsert_spec (hcount : Counted (bin++rest) s.tracking)
    (hlimited : Limited (es++(bin++rest))) (hids : ((bin++es).map Contact.clientId).Nodup)
    (hsize : bin.length+es.length≤kK) :
    ∃ s', reinsert bin s es=(fitted bin es, s') ∧
      Counted (fitted bin es++rest) s'.tracking ∧ s'.uses=s.uses ∧
      s'.freed=s.freed++(crowdedOut bin es).map fun c => (c, s.uses c.ref) := by
  induction es generalizing bin s with
  | nil => exact ⟨s,rfl,hcount,rfl,by simp [crowdedOut]⟩
  | cons c es ih =>
    rw [List.length_cons] at hsize
    have hfront : Limited (c::(bin++rest)) :=
      hlimited.sublist ((List.sublist_append_right es _).cons_cons c)
    have hid : c.clientId∉bin.map Contact.clientId := by
      rw [List.map_append,List.map_cons,List.nodup_append] at hids
      exact fun hmem => hids.2.2 _ hmem _ List.mem_cons_self rfl
    have hstep : reinsert bin s (c::es) =
        reinsert (addOrDelete bin s c).1 (addOrDelete bin s c).2 es := rfl
    rw [hstep,addOrDelete_spec hcount hfront hid (by omega),fitted,crowdedOut]
    split_ifs with hcrowd
    · obtain ⟨s',hrun,hcount',huses,hfreed⟩ := ih (s := s.delete c) hcount
        (hlimited.sublist (List.sublist_cons_self c _))
        (hids.sublist ((List.Sublist.refl bin).append (List.sublist_cons_self c es) |>.map _))
        (by omega)
      refine ⟨s',hrun,hcount',huses,?_⟩
      rw [hfreed,List.map_cons]
      simp [Shared.delete]
    · obtain ⟨s',hrun,hcount',huses,hfreed⟩ := @ih (bin++[c])
        (s.adjust c.ip true) (counted_snoc hcount c)
        (hlimited.congr (SamePlaces.of_perm (by
          simp only [List.cons_append,List.append_assoc]
          exact (List.perm_middle.symm.trans (List.Perm.append_left es List.perm_middle.symm)))))
        (by rwa [List.append_assoc,List.singleton_append])
        (by rw [List.length_append,List.length_singleton]; omega)
      exact ⟨s',hrun,hcount',huses,hfreed⟩

/-- The pass of `split` over the contacts that are left. -/
def splitStep (level : Nat) (acc : ContactList × ContactList × Shared) (c : Contact) :
    ContactList × ContactList × Shared :=
  if getBitNumber c.distance level then
    let (one, s) := addOrDelete acc.2.1 acc.2.2 c
    (acc.1, one, s)
  else
    let (zero, s) := addOrDelete acc.1 acc.2.2 c
    (zero, acc.2.1, s)

theorem split_eq (level : Nat) (bin : ContactList) (s : Shared) :
    split level bin s=bin.foldl (splitStep level) ([], [], destroy bin s) := rfl

theorem addOrDelete_fits (hcount : Counted (bin++rest) s.tracking)
    (hlimited : Limited (c::(bin++rest))) (hid : c.clientId∉bin.map Contact.clientId)
    (hroom : bin.length<kK) (hspread : crowded bin c.ip=false) :
    addOrDelete bin s c=(bin++[c], s.adjust c.ip true) := by
  rw [addOrDelete_spec hcount hlimited hid hroom,hspread,if_neg (by simp)]

/-- Every contact of a bin finds its place on its side. -/
theorem splitStep_foldl (hcount : Counted (zero++(one++rest)) s.tracking)
    (hlimited : Limited (es++(zero++(one++rest))))
    (hids : ((es++(zero++one)).map Contact.clientId).Nodup)
    (hbin : BinOk inside (es++(zero++one))) :
    ∃ g, es.foldl (splitStep level) (zero, one, s) =
        (zero++es.filter (fun c => !getBitNumber c.distance level),
          one++es.filter (fun c => getBitNumber c.distance level), { s with tracking := g }) ∧
      Counted (zero++es.filter (fun c => !getBitNumber c.distance level) ++
        (one++es.filter (fun c => getBitNumber c.distance level)++rest)) g := by
  induction es generalizing zero one s with
  | nil => exact ⟨s.tracking,by simp,by simpa using hcount⟩
  | cons c es ih =>
    rw [List.cons_append] at hlimited hids hbin
    have hroom : zero.length+one.length<kK := by
      have hsize := hbin.size
      simp only [List.length_cons,List.length_append] at hsize
      omega
    obtain ⟨hnew,-⟩ := List.nodup_cons.mp hids
    rw [List.map_append,List.map_append,List.mem_append,List.mem_append,not_or,not_or] at hnew
    have hfront : Limited (c::(zero++(one++rest))) :=
      hlimited.sublist ((List.sublist_append_right es _).cons_cons c)
    have hspread : crowded (zero++one) c.ip=false :=
      crowded_mono (List.sublist_append_right es _) hbin.not_crowded
    have hmiddle : ∀ xs : ContactList, (c::(es++xs)).Perm (es++(c::xs)) := fun xs =>
      List.perm_middle.symm
    rw [List.foldl_cons,splitStep]
    cases hbit : getBitNumber c.distance level with
    | true =>
      have hswap : (zero++(one++rest)).Perm (one++(zero++rest)) := by
        rw [← List.append_assoc,← List.append_assoc]
        exact List.perm_append_comm.append_right rest
      have hshift : (c::(zero++(one++rest))).Perm (zero++((one++[c])++rest)) := by
        rw [List.append_assoc,List.singleton_append]
        exact (@List.perm_middle _ c zero _).symm.trans
          (List.Perm.append_left zero List.perm_middle.symm)
      have hadd := addOrDelete_fits (s := s) (hcount.congr (SamePlaces.of_perm hswap))
        (hfront.congr (SamePlaces.of_perm (hswap.cons c))) hnew.2.2 (by omega)
        (crowded_mono (List.sublist_append_right zero one) hspread)
      have hmore : (c::(zero++one)).Perm (zero++(one++[c])) := by
        rw [← List.append_assoc]
        exact (List.perm_append_singleton c _).symm
      obtain ⟨g,hrun,hcount'⟩ := @ih zero (one++[c]) (s.adjust c.ip true)
        ((hcount.push c).congr (SamePlaces.of_perm hshift))
        (hlimited.congr (SamePlaces.of_perm ((hmiddle _).trans (hshift.append_left es))))
        ((((hmiddle _).trans (hmore.append_left es)).map _).nodup_iff.mp hids)
        (hbin.congr (SamePlaces.of_perm ((hmiddle _).trans (hmore.append_left es))))
      refine ⟨g,?_,?_⟩
      · rw [if_pos rfl,hadd]
        simpa [hbit,Shared.adjust] using hrun
      · simpa [hbit] using hcount'
    | false =>
      have hshift : (c::(zero++(one++rest))).Perm ((zero++[c])++(one++rest)) := by
        rw [List.append_assoc,List.singleton_append]
        exact List.perm_middle.symm
      have hadd := addOrDelete_fits (s := s) hcount hfront hnew.2.1 (by omega)
        (crowded_mono (List.sublist_append_left zero one) hspread)
      have hmore : (c::(zero++one)).Perm ((zero++[c])++one) := by
        rw [List.append_assoc,List.singleton_append]
        exact List.perm_middle.symm
      obtain ⟨g,hrun,hcount'⟩ := @ih (zero++[c]) one (s.adjust c.ip true)
        ((hcount.push c).congr (SamePlaces.of_perm hshift))
        (hlimited.congr (SamePlaces.of_perm ((hmiddle _).trans (hshift.append_left es))))
        ((((hmiddle _).trans (hmore.append_left es)).map _).nodup_iff.mp hids)
        (hbin.congr (SamePlaces.of_perm ((hmiddle _).trans (hmore.append_left es))))
      refine ⟨g,?_,?_⟩
      · rw [if_neg (by simp),hadd]
        simpa [hbit,Shared.adjust] using hrun
      · simpa [hbit] using hcount'

theorem consistent_refs (h : Consistent localKadId (bin++rest) g) :
    (bin.map Contact.ref).Nodup := by
  have hall := h.distinct.refs
  rw [List.map_append] at hall
  exact hall.of_append_left

namespace Effect

variable {come : List (Nat × KadUInt128)} {gone : ContactList}

theorem refs {cs cs' : ContactList} (h : Effect localKadId rest come cs cs' s s' gone) :
    (cs'.map Contact.ref++gone.map Contact.ref).Perm
      (come.map Prod.fst++cs.map Contact.ref) := by
  have hrefs := h.objects.map Prod.fst
  rw [List.map_append,List.map_append,List.map_map,List.map_map,List.map_map] at hrefs
  exact hrefs

theorem of_objects (h : Consistent localKadId (bin'++rest) g)
    (hrefs : (bin'.map Contact.object).Perm (bin.map Contact.object)) :
    Effect localKadId rest [] bin bin' s { s with tracking := g } [] :=
  ⟨h,rfl,by simp,by simpa using hrefs⟩

theorem right (h : Effect localKadId (zero++rest) come one bin s s' gone) :
    Effect localKadId rest come (zero++one) (zero++bin) s s' gone := by
  refine ⟨h.consistent.perm (List.perm_iff_count.mpr fun c => ?_),h.uses,h.freed,
    List.perm_iff_count.mpr fun x => ?_⟩
  · simp only [List.count_append]
    omega
  · have hcount := List.perm_iff_count.mp h.objects x
    simp only [List.map_append,List.count_append] at hcount ⊢
    omega

theorem left (h : Effect localKadId (one++rest) come zero bin s s' gone) :
    Effect localKadId rest come (zero++one) (bin++one) s s' gone := by
  refine ⟨h.consistent.perm (List.perm_iff_count.mpr fun c => ?_),h.uses,h.freed,
    List.perm_iff_count.mpr fun x => ?_⟩
  · simp only [List.count_append]
    omega
  · have hcount := List.perm_iff_count.mp h.objects x
    simp only [List.map_append,List.count_append] at hcount ⊢
    omega

theorem recount (h : Effect localKadId rest come one bin { s with tracking := g } s' gone)
    (hp : one.Perm zero) : Effect localKadId rest come zero bin s s' gone :=
  ⟨h.consistent,h.uses,h.freed,h.objects.trans ((hp.map Contact.object).append_left come)⟩

theorem trans {cs ds es gone' : ContactList} {s'' : Shared}
    (h : Effect localKadId rest [] cs ds s s' gone)
    (h' : Effect localKadId rest [] ds es s' s'' gone') :
    Effect localKadId rest [] cs es s s'' (gone++gone') := by
  refine ⟨h'.consistent,h'.uses.trans h.uses,?_,List.perm_iff_count.mpr fun x => ?_⟩
  · rw [h'.freed,h.freed,h.uses,List.map_append,List.append_assoc]
  · have hfirst := List.perm_iff_count.mp h.objects x
    have hsecond := List.perm_iff_count.mp h'.objects x
    simp only [List.nil_append,List.map_append,List.count_append] at hfirst hsecond ⊢
    omega

end Effect

theorem updateExisting_spec (publicIP : UInt32) (now : Int) {existing : Contact}
    (contact : Contact) (hgood : Consistent localKadId (bin++rest) g) (hbin : BinOk inside bin)
    (he : existing∈bin) :
    let r := updateExisting publicIP now bin g existing contact
    Consistent localKadId (r.1++rest) r.2.1 ∧ BinOk inside r.1 ∧
      (r.1.map Contact.object).Perm (bin.map Contact.object) := by
  have hstays : ∀ {bin bin' g}, Consistent localKadId (bin++rest) g → BinOk inside bin →
      SamePlaces bin bin' → Consistent localKadId (bin'++rest) g ∧ BinOk inside bin' ∧
        (bin'.map Contact.object).Perm (bin.map Contact.object) := fun hgood hbin hp =>
    ⟨hgood.congr (hp.append (List.Perm.refl _)),hbin.congr hp,
      (hp.map_perm fun p => (p.ref, p.clientId)).symm⟩
  have hsame := hstays hgood hbin (List.Perm.refl _)
  unfold updateExisting
  dsimp only
  split_ifs with hkey hlegacy halive hversion
  · exact hsame
  · exact hstays hgood hbin (setAlive_samePlaces (consistent_refs hgood) existing now)
  · exact hsame
  · cases hchange : changeContactIPAddress bin g existing contact.ip with
    | none => exact hsame
    | some moved =>
      obtain ⟨bin',g'⟩ := moved
      obtain ⟨hmoved,hmovedBin,hmovedRefs⟩ := changeContactIPAddress_cases hgood hbin he hchange
      let fill (c : Contact) : Contact :=
        { c with
          udpPort := contact.udpPort
          tcpPort := contact.tcpPort
          version := contact.version
          udpKey := contact.udpKey
          ipVerified := c.ipVerified || contact.ipVerified
          receivedHelloPacket := c.receivedHelloPacket || contact.receivedHelloPacket }
      have hfill : SamePlaces bin' (modifyContact bin' existing.ref fill) :=
        modifyContact_samePlaces fun c => rfl
      obtain ⟨hfilled,-,-⟩ := hstays hmoved hmovedBin hfill
      obtain ⟨hgood',hbin',hrefs⟩ := hstays hmoved hmovedBin
        (hfill.trans (setAlive_samePlaces (consistent_refs hfilled) existing now))
      exact ⟨hgood',hbin',hrefs.trans (List.Perm.of_eq hmovedRefs)⟩
  · cases hchange : changeContactIPAddress bin g existing contact.ip with
    | none => exact hsame
    | some moved =>
      obtain ⟨hmoved,hmovedBin,hmovedRefs⟩ := changeContactIPAddress_cases hgood hbin he hchange
      exact ⟨hmoved,hmovedBin,List.Perm.of_eq hmovedRefs⟩

/-- `add` keeps the zone in order; what it frees nobody uses. -/
structure AddOk (localKadId : KadUInt128) (inside : KadUInt128 → Prop) (level : Nat)
    (rest cs : ContactList) (contact : Contact) (s : Shared) (r : Added) : Prop where
  ok : r.zone.Ok inside level
  effect : ∃ gone, Effect localKadId rest (if r.added then [contact.object] else []) cs
    r.zone.contacts s r.shared gone ∧ ∀ c∈gone, s.inUse c=false

section Add

variable {contact : Contact} {update : Bool}

theorem replaceOrDrop_ok (hgood : Consistent localKadId (bin++rest) s.tracking)
    (hbin : BinOk inside bin) (hnew : Newcomer localKadId (bin++rest) contact)
    (hinside : inside contact.distance) :
    AddOk localKadId inside level rest bin contact s (replaceOrDrop contact bin s update) := by
  unfold replaceOrDrop
  cases hreplace : replaceWeakest bin s contact with
  | none => exact ⟨hbin,[],Effect.of_objects hgood (List.Perm.refl _),by simp⟩
  | some r =>
    obtain ⟨gone,bin',s'⟩ := r
    obtain ⟨hmem,huse,rfl,rfl,hcheck,hspread⟩ := replaceWeakest_cases hreplace
    have hrefs := consistent_refs hgood
    have hleft := perm_remove hrefs hmem
    have hwhole : Consistent localKadId (gone::(removeContact bin gone++rest)) s.tracking :=
      hgood.perm (hleft.append_right rest)
    have hothers : Newcomer localKadId (removeContact bin gone++rest) contact := by
      have hsub : (removeContact bin gone++rest).Sublist (bin++rest) :=
        List.filter_sublist.append_right rest
      exact ⟨fun h => hnew.clientId ((hsub.map _).subset h),
        fun h => hnew.ref ((hsub.map _).subset h),hnew.distance⟩
    have hpushed := hwhole.drop.push hothers hcheck
    have hroom : (removeContact bin gone).length<kK := by
      have hsize := hleft.length_eq
      have hfull := hbin.size
      rw [List.length_cons] at hsize
      omega
    have hin := (hbin.sublist List.filter_sublist).push hroom hspread hinside
    have hsnoc : (contact::removeContact bin gone).Perm (removeContact bin gone++[contact]) :=
      (List.perm_append_singleton contact _).symm
    refine ⟨hin.congr (SamePlaces.of_perm hsnoc),[gone],
      ⟨hpushed.perm (hsnoc.append_right rest),rfl,rfl,List.perm_iff_count.mpr fun x => ?_⟩,
      by simpa using huse⟩
    have hcount := List.perm_iff_count.mp (hleft.map Contact.object) x
    simp only [contacts,if_true,List.map_append,List.map_cons,List.map_nil,List.count_append,
      List.count_cons,List.count_nil] at hcount ⊢
    omega

theorem split_ok (level : Nat) (hgood : Consistent localKadId (bin++rest) s.tracking)
    (hbin : BinOk inside bin) :
    ∃ zero one g, split level bin s=(zero, one, { s with tracking := g }) ∧
      BinOk (fun x => inside x ∧ getBitNumber x level=false) zero ∧
      BinOk (fun x => inside x ∧ getBitNumber x level=true) one ∧
      (zero++one).Perm bin ∧ Consistent localKadId (zero++one++rest) g := by
  obtain ⟨g,hdestroy,hcount⟩ := destroy_spec hgood.counted
  have hids : ((bin++[]).map Contact.clientId).Nodup := by
    have hall := hgood.distinct.ids
    rw [List.map_append] at hall
    simpa using hall.of_append_left
  obtain ⟨g',hrun,hcount'⟩ := @splitStep_foldl inside [] [] bin rest
    { s with tracking := g } level hcount hgood.limited hids (by simpa using hbin)
  have hperm := List.filter_append_perm (fun c => !getBitNumber c.distance level) bin
  simp only [Bool.not_not] at hperm
  rw [split_eq,hdestroy,hrun]
  refine ⟨_,_,g',rfl,?_,?_,hperm,?_⟩
  · have hsub := hbin.sublist
      (List.filter_sublist : (bin.filter fun c => !getBitNumber c.distance level).Sublist bin)
    exact ⟨hsub.size,hsub.spread,fun c hc =>
      ⟨hsub.placed c hc,by simpa using (List.mem_filter.mp hc).2⟩⟩
  · have hsub := hbin.sublist
      (List.filter_sublist : (bin.filter fun c => getBitNumber c.distance level).Sublist bin)
    exact ⟨hsub.size,hsub.spread,fun c hc =>
      ⟨hsub.placed c hc,by simpa using (List.mem_filter.mp hc).2⟩⟩
  · have hback := hperm.symm.append_right rest
    rw [← List.append_assoc] at hcount'
    exact ⟨hcount',hgood.limited.congr (SamePlaces.of_perm hback),
      hgood.distinct.congr (SamePlaces.of_perm hback)⟩

theorem known_ok (publicIP : UInt32) (now : Int) {existing : Contact}
    (hgood : Consistent localKadId (bin++rest) s.tracking) (hbin : BinOk inside bin)
    (he : existing∈bin) :
    AddOk localKadId inside level rest bin contact s
      (if update then
        let (bin, g, update) := updateExisting publicIP now bin s.tracking existing contact
        ⟨leaf bin,{ s with tracking := g },false,update⟩
      else ⟨leaf bin,s,false,update⟩) := by
  split_ifs with hupdate
  · obtain ⟨hgood',hbin',hrefs⟩ :=
      updateExisting_spec publicIP now contact hgood hbin he
    exact ⟨hbin',[],Effect.of_objects hgood' hrefs,by simp⟩
  · exact ⟨hbin,[],Effect.of_objects hgood (List.Perm.refl _),by simp⟩

theorem room_ok (hgood : Consistent localKadId (bin++rest) s.tracking)
    (hbin : BinOk inside bin) (hnew : Newcomer localKadId (bin++rest) contact)
    (hinside : inside contact.distance) :
    AddOk localKadId inside level rest bin contact s
      (match addContact bin s.tracking contact with
      | some (bin, g) => ⟨leaf bin,{ s with tracking := g },true,false⟩
      | none => ⟨leaf bin,s,false,false⟩) := by
  cases hadd : addContact bin s.tracking contact with
  | none => exact ⟨hbin,[],Effect.of_objects hgood (List.Perm.refl _),by simp⟩
  | some r =>
    obtain ⟨bin',g'⟩ := r
    obtain ⟨rfl,rfl,hroom,hcheck,hspread⟩ := addContact_cases hadd
    have hsnoc : (contact::bin).Perm (bin++[contact]) :=
      (List.perm_append_singleton contact bin).symm
    refine ⟨(hbin.push hroom hspread hinside).congr (SamePlaces.of_perm hsnoc),[],
      ⟨(hgood.push hnew hcheck).perm (hsnoc.append_right rest),rfl,by simp,?_⟩,by simp⟩
    simp [contacts]

theorem AddOk.right {r : Added}
    (h : AddOk localKadId (fun x => inside x ∧ getBitNumber x level=true) (level+1)
      (zero++rest) one contact { s with tracking := g } r)
    {z : Zone} (hz : z.Ok (fun x => inside x ∧ getBitNumber x level=false) (level+1))
    (hcontacts : z.contacts=zero) (hp : (zero++one).Perm bin) :
    AddOk localKadId inside level rest bin contact s { r with zone := node z r.zone } := by
  obtain ⟨hok,gone,heffect,hfree⟩ := h
  subst hcontacts
  exact ⟨⟨hz,hok⟩,gone,heffect.right.recount hp,hfree⟩

theorem AddOk.left {r : Added}
    (h : AddOk localKadId (fun x => inside x ∧ getBitNumber x level=false) (level+1)
      (one++rest) zero contact { s with tracking := g } r)
    {z : Zone} (hz : z.Ok (fun x => inside x ∧ getBitNumber x level=true) (level+1))
    (hcontacts : z.contacts=one) (hp : (zero++one).Perm bin) :
    AddOk localKadId inside level rest bin contact s { r with zone := node r.zone z } := by
  obtain ⟨hok,gone,heffect,hfree⟩ := h
  subst hcontacts
  exact ⟨⟨hok,hz⟩,gone,heffect.left.recount hp,hfree⟩

theorem apart_of_bit (h : Consistent localKadId (bin++rest) g) {b : Bool}
    (hbin : ∀ c∈bin,getBitNumber c.distance level = !b)
    (hdistance : contact.distance=localKadId ^^^ contact.clientId)
    (hbit : getBitNumber contact.distance level=b) :
    contact.clientId∉bin.map Contact.clientId := by
  intro hmem
  obtain ⟨c,hc,hid⟩ := List.mem_map.mp hmem
  have hc' := hbin c hc
  rw [h.distinct.distances c (List.mem_append_left rest hc),hid,← hdistance,hbit] at hc'
  cases b <;> simp at hc'

theorem newcomer_of_unknown (hunknown : getContact bin contact.clientId=none)
    (hid : contact.clientId∉rest.map Contact.clientId)
    (href : contact.ref∉(bin++rest).map Contact.ref)
    (hdistance : contact.distance=localKadId ^^^ contact.clientId) :
    Newcomer localKadId (bin++rest) contact := by
  refine ⟨?_,href,hdistance⟩
  rw [List.map_append,List.mem_append,not_or]
  exact ⟨getContact_none hunknown,hid⟩

theorem addToLeaf_ok (publicIP : UInt32) (now : Int) (depth : Nat) (zoneIndex : KadUInt128)
    (hgood : Consistent localKadId (bin++rest) s.tracking) (hbin : BinOk inside bin)
    (hid : contact.clientId∉rest.map Contact.clientId)
    (href : contact.ref∉(bin++rest).map Contact.ref)
    (hdistance : contact.distance=localKadId ^^^ contact.clientId)
    (hinside : inside contact.distance) :
    AddOk localKadId inside level rest bin contact s
      (addToLeaf publicIP now contact depth level zoneIndex bin s update) := by
  induction depth generalizing level zoneIndex bin s rest inside with
  | zero =>
    unfold addToLeaf
    cases hexisting : getContact bin contact.clientId with
    | some existing => exact known_ok publicIP now hgood hbin (getContact_some hexisting).1
    | none =>
      have hnew := newcomer_of_unknown hexisting hid href hdistance
      by_cases hroom : 0<getRemaining bin
      · rw [if_pos hroom]
        exact room_ok hgood hbin hnew hinside
      · rw [if_neg hroom]
        exact replaceOrDrop_ok hgood hbin hnew hinside
  | succ depth ih =>
    unfold addToLeaf
    cases hexisting : getContact bin contact.clientId with
    | some existing => exact known_ok publicIP now hgood hbin (getContact_some hexisting).1
    | none =>
      have hnew := newcomer_of_unknown hexisting hid href hdistance
      dsimp only
      by_cases hroom : 0<getRemaining bin
      · rw [if_pos hroom]
        exact room_ok hgood hbin hnew hinside
      rw [if_neg hroom]
      by_cases hsplit : canSplit level zoneIndex bin=true
      · rw [if_pos hsplit]
        obtain ⟨zero,one,g,hrun,hzero,hone,hperm,hgood'⟩ :=
          split_ok level hgood hbin
        rw [hrun]
        dsimp only
        have hzeroSide : Consistent localKadId (zero++(one++rest)) g := by
          rwa [List.append_assoc] at hgood'
        have hswap : (zero++(one++rest)).Perm (one++(zero++rest)) := by
          rw [← List.append_assoc,← List.append_assoc]
          exact List.perm_append_comm.append_right rest
        have honeSide := hzeroSide.perm hswap
        have hrefs : contact.ref∉(zero++(one++rest)).map Contact.ref := by
          rw [← List.append_assoc]
          exact fun hmem => href (((hperm.append_right rest).map Contact.ref).mem_iff.mp hmem)
        cases hbit : getBitNumber contact.distance level with
        | true =>
          have hapart := apart_of_bit hzeroSide (b := true) (fun c hc => (hzero.placed c hc).2)
            hdistance hbit
          refine AddOk.right (z := leaf zero) (ih _ honeSide hone ?_ ?_ ⟨hinside,hbit⟩) hzero rfl
            hperm
          · rw [List.map_append,List.mem_append,not_or]
            exact ⟨hapart,hid⟩
          · exact fun hmem => hrefs ((hswap.map Contact.ref).mem_iff.mpr hmem)
        | false =>
          have hapart := apart_of_bit honeSide (b := false) (fun c hc => (hone.placed c hc).2)
            hdistance hbit
          refine AddOk.left (z := leaf one) (ih _ hzeroSide hzero ?_ hrefs ⟨hinside,hbit⟩) hone rfl
            hperm
          rw [List.map_append,List.mem_append,not_or]
          exact ⟨hapart,hid⟩
      · rw [if_neg hsplit]
        exact replaceOrDrop_ok hgood hbin hnew hinside

theorem add_ok (publicIP : UInt32) (now : Int) (zoneIndex : KadUInt128) {z : Zone}
    (hgood : Consistent localKadId (z.contacts++rest) s.tracking) (hz : z.Ok inside level)
    (hid : contact.clientId∉rest.map Contact.clientId)
    (href : contact.ref∉(z.contacts++rest).map Contact.ref)
    (hdistance : contact.distance=localKadId ^^^ contact.clientId)
    (hinside : inside contact.distance) :
    AddOk localKadId inside level rest z.contacts contact s
      (z.add publicIP now contact level zoneIndex s update) := by
  induction z generalizing inside level zoneIndex rest with
  | leaf bin => exact addToLeaf_ok publicIP now _ zoneIndex hgood hz hid href hdistance hinside
  | node zero one ihZero ihOne =>
    have hzeroSide : Consistent localKadId (zero.contacts++(one.contacts++rest)) s.tracking := by
      rwa [contacts,List.append_assoc] at hgood
    have hswap : (zero.contacts++(one.contacts++rest)).Perm
        (one.contacts++(zero.contacts++rest)) := by
      rw [← List.append_assoc,← List.append_assoc]
      exact List.perm_append_comm.append_right rest
    have honeSide := hzeroSide.perm hswap
    rw [contacts,List.append_assoc] at href
    unfold add
    cases hbit : getBitNumber contact.distance level with
    | true =>
      have hapart := apart_of_bit hzeroSide (b := true) (fun c hc => (hz.1.placed c hc).2)
        hdistance hbit
      refine AddOk.right (z := zero) (ihOne _ honeSide hz.2 ?_ ?_ ⟨hinside,hbit⟩) hz.1 rfl
        (List.Perm.refl _)
      · rw [List.map_append,List.mem_append,not_or]
        exact ⟨hapart,hid⟩
      · exact fun hmem => href ((hswap.map Contact.ref).mem_iff.mpr hmem)
    | false =>
      have hapart := apart_of_bit honeSide (b := false) (fun c hc => (hz.2.placed c hc).2)
        hdistance hbit
      refine AddOk.left (z := one) (ihZero _ hzeroSide hz.1 ?_ href ⟨hinside,hbit⟩) hz.2 rfl
        (List.Perm.refl _)
      rw [List.map_append,List.mem_append,not_or]
      exact ⟨hapart,hid⟩

end Add

/-- The zone becomes one leaf when the tree is consolidated: its sides do, and hold few contacts,
not counting those whose /24 is crowded. -/
def folds : Zone → Bool
  | leaf _ => true
  | node zero one => zero.folds && one.folds &&
      decide ((fitted [] zero.contacts).length + (fitted [] one.contacts).length < kK / 2)

/-- The contacts, in the order of the tree, that come after two others of their /24 in a zone that
becomes one leaf. -/
def pressed : Zone → ContactList
  | leaf _ => []
  | node zero one =>
    if (node zero one).folds then crowdedOut [] (zero.contacts ++ one.contacts)
    else zero.pressed ++ one.pressed

theorem pressed_of_folds (hz : z.Ok inside level) (h : z.folds=true) :
    z.pressed=crowdedOut [] z.contacts := by
  cases z with
  | leaf bin =>
    have hbin : BinOk inside ([]++bin) := hz
    exact (fitted_self hbin).2.symm
  | node zero one => rw [pressed,if_pos h,contacts]

theorem merge_effect (h : Consistent localKadId (zero++one++rest) s.tracking)
    (hsize : zero.length+one.length≤kK) :
    ∃ s', reinsert [] (destroy one (destroy zero s)) (zero++one) =
        (fitted [] (zero++one), s') ∧
      Effect localKadId rest [] (zero++one) (fitted [] (zero++one)) s s'
        (crowdedOut [] (zero++one)) := by
  have hcounted : Counted (zero++(one++rest)) s.tracking := by
    rw [← List.append_assoc]
    exact h.counted
  obtain ⟨g,hzero,hcounted⟩ := destroy_spec hcounted
  obtain ⟨g',hone,hcounted⟩ := destroy_spec (s := { s with tracking := g }) hcounted
  have hids : (([]++(zero++one)).map Contact.clientId).Nodup := by
    have hall := h.distinct.ids
    rw [List.map_append] at hall
    exact hall.of_append_left
  obtain ⟨s',hrun,hcount,huses,hfreed⟩ := @reinsert_spec [] (zero++one) rest
    { s with tracking := g' } hcounted h.limited hids (by simpa using hsize)
  have hperm := fitted_perm [] (zero++one)
  have hback : SamePlaces (zero++one++rest)
      (fitted [] (zero++one)++crowdedOut [] (zero++one)++rest) :=
    SamePlaces.of_perm (hperm.symm.append_right rest)
  have hsub : (fitted [] (zero++one)++rest).Sublist
      (fitted [] (zero++one)++crowdedOut [] (zero++one)++rest) :=
    (List.sublist_append_left _ _).append_right rest
  rw [hzero,hone]
  refine ⟨s',hrun,⟨hcount,(h.limited.congr hback).sublist hsub,
    (h.distinct.congr hback).sublist hsub⟩,huses,hfreed,?_⟩
  rw [List.nil_append,← List.map_append]
  exact hperm.map Contact.object

/-- The contacts of a consolidated zone, and those it frees. -/
structure ConsolidateOk (localKadId : KadUInt128) (inside : KadUInt128 → Prop) (level : Nat)
    (rest : ContactList) (z : Zone) (s : Shared) (z' : Zone) (s' : Shared) : Prop where
  ok : z'.Ok inside level
  folded : z.folds=true → z'=leaf (fitted [] z.contacts)
  unfolded : z.folds=false → ∃ zero one, z'=node zero one
  effect : ∃ gone, gone.Perm z.pressed ∧ Effect localKadId rest [] z.contacts z'.contacts s s' gone

theorem consolidate_ok (hgood : Consistent localKadId (z.contacts++rest) s.tracking)
    (hz : z.Ok inside level) :
    ConsolidateOk localKadId inside level rest z s (z.consolidate s).1 (z.consolidate s).2 := by
  induction z generalizing inside level rest s with
  | leaf bin =>
    have hbin : BinOk inside ([]++bin) := hz
    refine ⟨hz,fun _ => ?_,fun h => absurd h (by simp [folds]),[],List.Perm.refl _,
      Effect.of_objects hgood (List.Perm.refl _)⟩
    rw [contacts,(fitted_self hbin).1]
    rfl
  | node zero one ihZero ihOne =>
    have hzeroSide : Consistent localKadId (zero.contacts++(one.contacts++rest)) s.tracking := by
      rwa [contacts,List.append_assoc] at hgood
    have hfirst := ihZero hzeroSide hz.1
    unfold consolidate
    generalize zero.consolidate s=r at hfirst ⊢
    obtain ⟨zero',s₁⟩ := r
    obtain ⟨hokZero,hfoldZero,hunfoldZero,goneZero,hgoneZero,heffectZero⟩ := hfirst
    have honeSide : Consistent localKadId (one.contacts++(zero'.contacts++rest)) s₁.tracking := by
      refine heffectZero.consistent.perm ?_
      rw [← List.append_assoc,← List.append_assoc]
      exact List.perm_append_comm.append_right rest
    have hsecond := ihOne honeSide hz.2
    dsimp only at hsecond ⊢
    generalize one.consolidate s₁=r at hsecond ⊢
    obtain ⟨one',s₂⟩ := r
    obtain ⟨hokOne,hfoldOne,hunfoldOne,goneOne,hgoneOne,heffectOne⟩ := hsecond
    have hboth : Effect localKadId rest [] (zero.contacts++one.contacts)
        (zero'.contacts++one'.contacts) s s₂ (goneZero++goneOne) :=
      heffectZero.left.trans heffectOne.right
    have hstays : (node zero one).folds=false →
        ConsolidateOk localKadId inside level rest (node zero one) s (node zero' one') s₂ := by
      intro hfold
      refine ⟨⟨hokZero,hokOne⟩,fun h => absurd h (by simp [hfold]),fun _ => ⟨_,_,rfl⟩,
        goneZero++goneOne,?_,hboth⟩
      rw [pressed,hfold,if_neg (by simp)]
      exact hgoneZero.append hgoneOne
    cases hfold : zero.folds && one.folds with
    | false =>
      have hnode : (node zero one).folds=false := by rw [folds,hfold,Bool.false_and]
      rcases (Bool.and_eq_false_iff.mp hfold) with h | h
      · obtain ⟨x,y,rfl⟩ := hunfoldZero h
        exact hstays hnode
      · obtain ⟨x,y,rfl⟩ := hunfoldOne h
        cases zero' <;> exact hstays hnode
    | true =>
      obtain ⟨hzeroFolds,honeFolds⟩ := Bool.and_eq_true_iff.mp hfold
      have hzeroLeaf := hfoldZero hzeroFolds
      have honeLeaf := hfoldOne honeFolds
      subst hzeroLeaf honeLeaf
      dsimp only
      split_ifs with hsize
      · have hnode : (node zero one).folds=true := by
          rw [folds,hfold,Bool.true_and]
          exact decide_eq_true hsize
        have hfew : (fitted [] zero.contacts).length+(fitted [] one.contacts).length≤kK := by
          omega
        simp only [contacts] at hboth
        obtain ⟨s₃,hmerge,hmerged⟩ := merge_effect hboth.consistent hfew
        have hall : fitted [] (fitted [] zero.contacts++fitted [] one.contacts) =
            fitted [] (zero.contacts++one.contacts) := by
          rw [fitted_append,fitted_fitted,fitted_fitted,fitted_append]
          rfl
        have hplaced : ∀ c∈fitted [] zero.contacts++fitted [] one.contacts,
            inside c.distance := by
          intro c hc
          rcases List.mem_append.mp hc with hc | hc
          · exact (hokZero.placed c hc).1
          · exact (hokOne.placed c hc).1
        rw [hmerge]
        refine ⟨binOk_fitted ⟨Nat.zero_le _,fun _ _ => Nat.zero_le _,by simp⟩
          (by simpa using hfew) hplaced,fun _ => by rw [hall,contacts],
          fun h => absurd h (by simp [hnode]),_,?_,hboth.trans hmerged⟩
        rw [pressed_of_folds hz.1 hzeroFolds] at hgoneZero
        rw [pressed_of_folds hz.2 honeFolds] at hgoneOne
        rw [pressed,hnode,if_pos rfl]
        refine List.perm_iff_count.mpr fun c => ?_
        have hzeroCount := List.perm_iff_count.mp hgoneZero c
        have honeCount := List.perm_iff_count.mp hgoneOne c
        have hzeroFit := List.perm_iff_count.mp (fitted_perm [] zero.contacts) c
        have honeFit := List.perm_iff_count.mp (fitted_perm [] one.contacts) c
        have hmergeFit := List.perm_iff_count.mp
          (fitted_perm [] (fitted [] zero.contacts++fitted [] one.contacts)) c
        have hallFit := List.perm_iff_count.mp
          (fitted_perm [] (zero.contacts++one.contacts)) c
        rw [hall] at hmergeFit
        simp only [List.nil_append,List.count_append] at *
        omega
      · exact hstays (by rw [folds,hfold,Bool.true_and]; exact decide_eq_false hsize)

section SmallTimer

variable (offline : Bool) (banned : UInt32 → Bool) (now : Int)

theorem visitContact_cases (c : Contact) (s : Shared) :
    (visitContact offline banned now c s=(none, (s.adjust c.ip false).delete c) ∧
      s.inUse c=false) ∨
    ∃ d, visitContact offline banned now c s=(some d, s) ∧ d.place=c.place := by
  unfold visitContact
  cases huse : s.inUse c with
  | true =>
    right
    simp only [if_true,Bool.not_true,Bool.and_false,Bool.false_eq_true,if_false]
    split_ifs
    · exact ⟨c,rfl,rfl⟩
    · exact ⟨c,rfl,rfl⟩
    · exact ⟨_,rfl,rfl⟩
    · exact ⟨c,rfl,rfl⟩
  | false =>
    simp only [Bool.false_eq_true,if_false,Bool.not_false,Bool.and_true]
    split_ifs
    · exact Or.inl ⟨rfl,trivial⟩
    · exact Or.inl ⟨rfl,trivial⟩
    · exact Or.inr ⟨c,rfl,rfl⟩
    · exact Or.inr ⟨_,rfl,rfl⟩
    · exact Or.inr ⟨c,rfl,rfl⟩

theorem sweep_visitContact (h : Consistent localKadId (es++rest) s.tracking) :
    let r := Framework.sweep (visitContact offline banned now) es s
    (∃ kept, kept.Sublist es ∧ SamePlaces kept r.1) ∧
      ∃ gone, Effect localKadId rest [] es r.1 s r.2 gone ∧ ∀ c∈gone,s.inUse c=false := by
  induction es generalizing rest s with
  | nil =>
    exact ⟨⟨[],List.Sublist.refl _,List.Perm.refl _⟩,[],
      Effect.of_objects h (List.Perm.refl _),by simp⟩
  | cons c es ih =>
    rw [Framework.sweep]
    rcases visitContact_cases offline banned now c s with ⟨hvisit,huse⟩ | ⟨d,hvisit,hplace⟩
    · rw [hvisit]
      obtain ⟨⟨kept,hsub,hsame⟩,gone,heffect,hfree⟩ :=
        ih (s := (s.adjust c.ip false).delete c) h.drop
      refine ⟨⟨kept,hsub.cons c,hsame⟩,c::gone,⟨heffect.consistent,heffect.uses,?_,?_⟩,
        List.forall_mem_cons.mpr ⟨huse,hfree⟩⟩
      · rw [heffect.freed,List.map_cons]
        simp [Shared.delete,Shared.adjust]
      · exact List.perm_middle.trans (heffect.objects.cons c.object)
    · rw [hvisit]
      have hmoved : Consistent localKadId (es++(d::rest)) s.tracking := by
        refine h.congr ((samePlaces_cons hplace).trans (SamePlaces.of_perm ?_))
        exact List.perm_middle.symm
      obtain ⟨⟨kept,hsub,hsame⟩,gone,heffect,hfree⟩ := ih hmoved
      have hobject : d.object=c.object := congrArg (fun p => (p.ref, p.clientId)) hplace
      refine ⟨⟨c::kept,hsub.cons_cons c,?_⟩,gone,
        ⟨heffect.consistent.perm ?_,heffect.uses,heffect.freed,?_⟩,hfree⟩
      · exact (samePlaces_cons hplace).trans ((List.Perm.refl [d.place]).append hsame)
      · exact List.perm_middle
      · simp only [Option.toList_some,List.map_cons,List.cons_append,hobject]
        exact heffect.objects.cons c.object

theorem askOldest_samePlaces (hrefs : (bin.map Contact.ref).Nodup) :
    SamePlaces bin (askOldest offline now bin) := by
  cases bin with
  | nil => exact List.Perm.refl _
  | cons oldest rest =>
    unfold askOldest
    dsimp only
    split_ifs
    · exact pushToBottom_samePlaces hrefs List.mem_cons_self rfl
    · exact pushToBottom_samePlaces hrefs List.mem_cons_self (Contact.markRecheck_place 0 oldest)
    · exact pushToBottom_samePlaces hrefs List.mem_cons_self (Contact.checkingType_place now oldest)

end SmallTimer

/-- Work on one bin keeps it in order; what it frees nobody uses. -/
structure WorkOk (localKadId : KadUInt128) (inside : KadUInt128 → Prop) (rest bin : ContactList)
    (s : Shared) (r : ContactList × Shared) : Prop where
  ok : BinOk inside r.1
  effect : ∃ gone, Effect localKadId rest [] bin r.1 s r.2 gone ∧ ∀ c∈gone, s.inUse c=false

theorem onSmallTimer_ok (offline : Bool) (banned : UInt32 → Bool) (now : Int)
    (hgood : Consistent localKadId (bin++rest) s.tracking) (hbin : BinOk inside bin) :
    WorkOk localKadId inside rest bin s (onSmallTimer offline banned now bin s) := by
  obtain ⟨⟨kept,hsub,hsame⟩,gone,heffect,hfree⟩ :=
    sweep_visitContact offline banned now hgood
  unfold onSmallTimer
  generalize Framework.sweep (visitContact offline banned now) bin s=r at hsame heffect ⊢
  obtain ⟨bin',s'⟩ := r
  have hask := askOldest_samePlaces offline now (consistent_refs heffect.consistent)
  have hasked : Effect localKadId rest [] bin' (askOldest offline now bin') s' s' [] :=
    Effect.of_objects (heffect.consistent.congr (hask.append (List.Perm.refl _)))
      (hask.map_perm fun p => (p.ref, p.clientId)).symm
  refine ⟨((hbin.sublist hsub).congr hsame).congr hask,gone,?_,hfree⟩
  have hboth := heffect.trans hasked
  rwa [List.append_nil] at hboth

theorem mapBin_ok {f : Contact → Contact} (hf : ∀ c,(f c).place=c.place)
    (hgood : Consistent localKadId (bin++rest) s.tracking) (hbin : BinOk inside bin) :
    WorkOk localKadId inside rest bin s (bin.map f, s) := by
  have hsame : SamePlaces bin (bin.map f) := SamePlaces.of_map fun c _ => hf c
  exact ⟨hbin.congr hsame,[],Effect.of_objects (hgood.congr (hsame.append (List.Perm.refl _)))
    (hsame.map_perm fun p => (p.ref, p.clientId)).symm,by simp⟩

/-- Work on a zone keeps it in order; what it frees nobody uses. -/
structure ZoneOk (localKadId : KadUInt128) (inside : KadUInt128 → Prop) (level : Nat)
    (rest cs : ContactList) (s : Shared) (r : Zone × Shared) : Prop where
  ok : r.1.Ok inside level
  effect : ∃ gone, Effect localKadId rest [] cs r.1.contacts s r.2 gone ∧
    ∀ c∈gone, s.inUse c=false

theorem atLeaf_ok {work : ContactList → Shared → ContactList × Shared}
    (hwork : ∀ {inside rest bin s}, Consistent localKadId (bin++rest) s.tracking →
      BinOk inside bin → WorkOk localKadId inside rest bin s (work bin s))
    (path : List Bool) (hgood : Consistent localKadId (z.contacts++rest) s.tracking)
    (hz : z.Ok inside level) :
    ZoneOk localKadId inside level rest z.contacts s (z.atLeaf work path s) := by
  have hsame : ZoneOk localKadId inside level rest z.contacts s (z, s) :=
    ⟨hz,[],Effect.of_objects hgood (List.Perm.refl _),by simp⟩
  induction z generalizing inside level rest path with
  | leaf bin =>
    cases path with
    | nil =>
      obtain ⟨hok,heffect⟩ := hwork hgood hz
      exact ⟨hok,heffect⟩
    | cons bit path => exact hsame
  | node zero one ihZero ihOne =>
    cases path with
    | nil => exact hsame
    | cons bit path =>
      have hzeroSide : Consistent localKadId (zero.contacts++(one.contacts++rest))
          s.tracking := by
        rwa [contacts,List.append_assoc] at hgood
      have honeSide : Consistent localKadId (one.contacts++(zero.contacts++rest))
          s.tracking := by
        refine hzeroSide.perm ?_
        rw [← List.append_assoc,← List.append_assoc]
        exact List.perm_append_comm.append_right rest
      unfold atLeaf
      cases bit with
      | true =>
        obtain ⟨hok,gone,heffect,hfree⟩ := ihOne path honeSide hz.2
          ⟨hz.2,[],Effect.of_objects honeSide (List.Perm.refl _),by simp⟩
        exact ⟨⟨hz.1,hok⟩,gone,heffect.right,hfree⟩
      | false =>
        obtain ⟨hok,gone,heffect,hfree⟩ := ihZero path hzeroSide hz.1
          ⟨hz.1,[],Effect.of_objects hzeroSide (List.Perm.refl _),by simp⟩
        exact ⟨⟨hok,hz.2⟩,gone,heffect.left,hfree⟩

theorem contacts_map (f : Contact → Contact) (z : Zone) : (z.map f).contacts=z.contacts.map f := by
  induction z with
  | leaf bin => rfl
  | node zero one ihZero ihOne => rw [Zone.map,contacts,contacts,List.map_append,ihZero,ihOne]

theorem map_ok {f : Contact → Contact} (hf : ∀ c,(f c).place=c.place)
    (hgood : Consistent localKadId (z.contacts++rest) s.tracking) (hz : z.Ok inside level) :
    ZoneOk localKadId inside level rest z.contacts s (z.map f, s) := by
  have hsame : SamePlaces z.contacts (z.map f).contacts := by
    rw [contacts_map]
    exact SamePlaces.of_map fun c _ => hf c
  refine ⟨?_,[],Effect.of_objects (hgood.congr (hsame.append (List.Perm.refl _)))
    (hsame.map_perm fun p => (p.ref, p.clientId)).symm,by simp⟩
  clear hgood hsame
  induction z generalizing inside level with
  | leaf bin => exact BinOk.congr hz (SamePlaces.of_map fun c _ => hf c)
  | node zero one ihZero ihOne => exact ⟨ihZero hz.1,ihOne hz.2⟩

theorem binAt_placed (hz : z.Ok inside level) {path : List Bool} (h : z.binAt path=some bin) :
    BinOk inside bin ∧ ∀ c∈bin,path =
      (List.range path.length).map fun i => getBitNumber c.distance (level+i) := by
  induction z generalizing inside level path with
  | leaf leafBin =>
    cases path with
    | nil =>
      cases h
      exact ⟨hz,by simp⟩
    | cons bit path => cases h
  | node zero one ihZero ihOne =>
    cases path with
    | nil => cases h
    | cons bit path =>
      have hside : BinOk (fun x => inside x ∧ getBitNumber x level=bit) bin ∧
          ∀ c∈bin,path =
            (List.range path.length).map fun i => getBitNumber c.distance (level+1+i) := by
        cases bit with
        | true => exact ihOne hz.2 h
        | false => exact ihZero hz.1 h
      refine ⟨⟨hside.1.size,hside.1.spread,fun c hc => (hside.1.placed c hc).1⟩,fun c hc => ?_⟩
      rw [List.length_cons,List.range_succ_eq_map,List.map_cons,List.map_map,Nat.add_zero,
        (hside.1.placed c hc).2]
      congr 1
      refine (hside.2 c hc).trans (List.map_congr_left fun i _ => ?_)
      rw [Function.comp_apply,Nat.add_right_comm,Nat.add_assoc]

end Zone

end EmuleQt.Kademlia
