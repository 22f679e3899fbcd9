import EmuleQt.Kademlia.RoutingBin
import Mathlib.Data.List.Nodup
import Mathlib.Data.List.Perm.Basic

namespace EmuleQt.Kademlia

variable {localKadId : KadUInt128} {cs ds : ContactList} {c d : Contact} {g : GlobalTracking}
  {ip ip' : UInt32} {increase : Bool}

/-- The counters say how many contacts have an address and how many lie in a /24. -/
structure Counted (cs : ContactList) (g : GlobalTracking) : Prop where
  perIP : ∀ ip, g.contactIPs ip = cs.countP fun c => decide (c.ip = ip)
  perSubnet : ∀ n, g.contactSubnets n = cs.countP fun c => decide (subnetOf c.ip = n)

/-- One contact an address, and ten a /24 outside the local network. -/
structure Limited (cs : ContactList) : Prop where
  ips : (cs.map Contact.ip).Nodup
  subnets : ∀ ip, isLan ip = false →
    cs.countP (fun c => decide (subnetOf c.ip = subnetOf ip)) ≤ kMaxContactsSubnet

/-- No two contacts of one ID, no object twice, and every distance is that to the local ID. -/
structure Distinct (localKadId : KadUInt128) (cs : ContactList) : Prop where
  ids : (cs.map Contact.clientId).Nodup
  refs : (cs.map Contact.ref).Nodup
  distances : ∀ c ∈ cs, c.distance = localKadId ^^^ c.clientId

/-- What holds of all the contacts of a table together. -/
structure Consistent (localKadId : KadUInt128) (cs : ContactList) (g : GlobalTracking) : Prop where
  counted : Counted cs g
  limited : Limited cs
  distinct : Distinct localKadId cs

theorem adjust_contactIPs : (adjustGlobalTracking g ip increase).contactIPs ip' =
    if ip'=ip then (if increase then g.contactIPs ip+1 else g.contactIPs ip-1)
    else g.contactIPs ip' :=
  Function.update_apply _ _ _ _

theorem adjust_contactSubnets {n : UInt32} :
    (adjustGlobalTracking g ip increase).contactSubnets n =
      if n=subnetOf ip then
        (if increase then g.contactSubnets (subnetOf ip)+1
          else g.contactSubnets (subnetOf ip)-1)
      else g.contactSubnets n :=
  Function.update_apply _ _ _ _

/-- The same contacts in the same places, in whatever order. -/
def SamePlaces (cs ds : ContactList) : Prop := (cs.map Contact.place).Perm (ds.map Contact.place)

namespace SamePlaces

theorem of_perm (h : cs.Perm ds) : SamePlaces cs ds := h.map _

theorem append {cs' ds' : ContactList} (h : SamePlaces cs ds) (h' : SamePlaces cs' ds') :
    SamePlaces (cs++cs') (ds++ds') := by
  unfold SamePlaces
  rw [List.map_append,List.map_append]
  exact List.Perm.append h h'

theorem of_map {f : Contact → Contact} (hf : ∀ c∈cs,(f c).place=c.place) :
    SamePlaces cs (cs.map f) := by
  have hsame : (cs.map f).map Contact.place=cs.map Contact.place := by
    rw [List.map_map]
    exact List.map_congr_left hf
  exact List.Perm.of_eq hsame.symm

theorem length_eq (h : SamePlaces cs ds) : cs.length=ds.length := by
  simpa using List.Perm.length_eq h

theorem countP_eq (h : SamePlaces cs ds) (q : Contact.Place → Bool) :
    cs.countP (fun c => q c.place)=ds.countP (fun c => q c.place) := by
  have hcount := List.Perm.countP_eq q h
  rwa [List.countP_map,List.countP_map] at hcount

theorem map_perm {β : Type*} (h : SamePlaces cs ds) (q : Contact.Place → β) :
    (cs.map fun c => q c.place).Perm (ds.map fun c => q c.place) := by
  have hmap := List.Perm.map q h
  rwa [List.map_map,List.map_map] at hmap

theorem forall_iff (h : SamePlaces cs ds) (q : Contact.Place → Prop) :
    (∀ c∈cs,q c.place) ↔ ∀ c∈ds,q c.place := by
  have hmem : (∀ p∈cs.map Contact.place,q p) ↔ ∀ p∈ds.map Contact.place,q p :=
    ⟨fun hall p hp => hall p ((List.Perm.mem_iff h).mpr hp),
      fun hall p hp => hall p ((List.Perm.mem_iff h).mp hp)⟩
  simpa using hmem

end SamePlaces

namespace Counted

theorem congr (h : Counted cs g) (hp : SamePlaces cs ds) : Counted ds g :=
  ⟨fun ip => (h.perIP ip).trans (hp.countP_eq fun p => decide (p.ip=ip)),
    fun n => (h.perSubnet n).trans (hp.countP_eq fun p => decide (subnetOf p.ip=n))⟩

theorem push (h : Counted cs g) (c : Contact) :
    Counted (c::cs) (adjustGlobalTracking g c.ip true) := by
  refine ⟨fun ip => ?_,fun n => ?_⟩
  · rw [adjust_contactIPs,List.countP_cons,← h.perIP ip]
    by_cases hip : ip=c.ip
    · simp [hip]
    · simp [hip,Ne.symm hip]
  · rw [adjust_contactSubnets,List.countP_cons,← h.perSubnet n]
    by_cases hn : n=subnetOf c.ip
    · simp [hn]
    · simp [hn,Ne.symm hn]

theorem drop (h : Counted (c::cs) g) : Counted cs (adjustGlobalTracking g c.ip false) := by
  refine ⟨fun ip => ?_,fun n => ?_⟩
  · have hip := h.perIP ip
    rw [List.countP_cons] at hip
    rw [adjust_contactIPs]
    by_cases heq : ip=c.ip
    · subst heq
      simp only [decide_true,if_true,Bool.false_eq_true,if_false] at hip ⊢
      omega
    · rw [if_neg heq,hip,if_neg (by simpa using Ne.symm heq),Nat.add_zero]
  · have hn := h.perSubnet n
    rw [List.countP_cons] at hn
    rw [adjust_contactSubnets]
    by_cases heq : n=subnetOf c.ip
    · subst heq
      simp only [decide_true,if_true,Bool.false_eq_true,if_false] at hn ⊢
      omega
    · rw [if_neg heq,hn,if_neg (by simpa using Ne.symm heq),Nat.add_zero]

end Counted

namespace Limited

theorem congr (h : Limited cs) (hp : SamePlaces cs ds) : Limited ds :=
  ⟨(hp.map_perm Contact.Place.ip).nodup_iff.mp h.ips,fun ip hlan =>
    (hp.countP_eq fun p => decide (subnetOf p.ip=subnetOf ip)) ▸ h.subnets ip hlan⟩

theorem sublist (h : Limited ds) (hs : cs.Sublist ds) : Limited cs :=
  ⟨h.ips.sublist (hs.map _),fun ip hlan => Nat.le_trans hs.countP_le (h.subnets ip hlan)⟩

end Limited

namespace Distinct

theorem congr (h : Distinct localKadId cs) (hp : SamePlaces cs ds) : Distinct localKadId ds :=
  ⟨(hp.map_perm Contact.Place.clientId).nodup_iff.mp h.ids,
    (hp.map_perm Contact.Place.ref).nodup_iff.mp h.refs,
    (hp.forall_iff fun p => p.distance=localKadId ^^^ p.clientId).mp h.distances⟩

theorem sublist (h : Distinct localKadId ds) (hs : cs.Sublist ds) : Distinct localKadId cs :=
  ⟨h.ids.sublist (hs.map _),h.refs.sublist (hs.map _),fun c hc => h.distances c (hs.subset hc)⟩

end Distinct

/-- A contact that is new to a table: its object, its ID, and where it belongs. -/
structure Newcomer (localKadId : KadUInt128) (cs : ContactList) (c : Contact) : Prop where
  clientId : c.clientId ∉ cs.map Contact.clientId
  ref : c.ref ∉ cs.map Contact.ref
  distance : c.distance = localKadId ^^^ c.clientId

theorem limited_push (hcount : Counted cs g) (h : Limited cs)
    (hcheck : checkGlobalIPLimits g c.ip=true) : Limited (c::cs) := by
  rw [checkGlobalIPLimits,Bool.and_eq_true,Bool.or_eq_true,decide_eq_true_eq,
    decide_eq_true_eq] at hcheck
  refine ⟨?_,fun ip hlan => ?_⟩
  · rw [List.map_cons,List.nodup_cons]
    refine ⟨fun hmem => ?_,h.ips⟩
    obtain ⟨d,hd,hip⟩ := List.mem_map.mp hmem
    have hpos : 0<cs.countP fun d => decide (d.ip=c.ip) :=
      List.countP_pos_iff.mpr ⟨d,hd,by simpa using hip⟩
    rw [← hcount.perIP] at hpos
    have hone : kMaxContactsIP=1 := rfl
    omega
  · rw [List.countP_cons]
    split_ifs with hsame
    · rw [decide_eq_true_eq] at hsame
      have hfew := hcheck.2.resolve_right (by rw [isLan_congr hsame,hlan]; simp)
      rw [hcount.perSubnet,hsame] at hfew
      omega
    · exact h.subnets ip hlan

theorem checkGlobalIPLimits_of_limited (hcount : Counted cs g) (h : Limited (c::cs)) :
    checkGlobalIPLimits g c.ip=true := by
  rw [checkGlobalIPLimits,Bool.and_eq_true,Bool.or_eq_true,decide_eq_true_eq,
    decide_eq_true_eq,hcount.perIP,hcount.perSubnet]
  have hfirst := (List.nodup_cons.mp h.ips).1
  refine ⟨?_,?_⟩
  · have hnone : (cs.countP fun d => decide (d.ip=c.ip))=0 := by
      rw [List.countP_eq_zero]
      intro d hd hip
      exact hfirst (List.mem_map.mpr ⟨d,hd,by simpa using hip⟩)
    rw [hnone]
    exact Nat.zero_lt_one
  · cases hlan : isLan c.ip with
    | true => exact Or.inr rfl
    | false =>
      have hsubnet := h.subnets c.ip hlan
      rw [List.countP_cons_of_pos (by simp)] at hsubnet
      exact Or.inl hsubnet

namespace Consistent

theorem congr (h : Consistent localKadId cs g) (hp : SamePlaces cs ds) :
    Consistent localKadId ds g :=
  ⟨h.counted.congr hp,h.limited.congr hp,h.distinct.congr hp⟩

theorem perm (h : Consistent localKadId cs g) (hp : cs.Perm ds) : Consistent localKadId ds g :=
  h.congr (SamePlaces.of_perm hp)

theorem drop (h : Consistent localKadId (c::cs) g) :
    Consistent localKadId cs (adjustGlobalTracking g c.ip false) :=
  ⟨h.counted.drop,h.limited.sublist (List.sublist_cons_self c cs),
    h.distinct.sublist (List.sublist_cons_self c cs)⟩

theorem push (h : Consistent localKadId cs g) (hc : Newcomer localKadId cs c)
    (hcheck : checkGlobalIPLimits g c.ip=true) :
    Consistent localKadId (c::cs) (adjustGlobalTracking g c.ip true) := by
  refine ⟨h.counted.push c,limited_push h.counted h.limited hcheck,?_,?_,?_⟩
  · exact List.nodup_cons.mpr ⟨hc.clientId,h.distinct.ids⟩
  · exact List.nodup_cons.mpr ⟨hc.ref,h.distinct.refs⟩
  · exact List.forall_mem_cons.mpr ⟨hc.distance,h.distinct.distances⟩

theorem newcomer (h : Consistent localKadId (c::cs) g) : Newcomer localKadId cs c :=
  ⟨(List.nodup_cons.mp h.distinct.ids).1,(List.nodup_cons.mp h.distinct.refs).1,
    h.distinct.distances c List.mem_cons_self⟩

end Consistent

variable {localKadId : KadUInt128} {inside : KadUInt128 → Prop} {bin bin' rest : ContactList}
  {c d : Contact} {g g' : GlobalTracking} {s s' : Shared} {ip : UInt32}

/-- A bin within its limits, whose contacts lie where they belong. -/
structure BinOk (inside : KadUInt128 → Prop) (bin : ContactList) : Prop where
  size : bin.length≤kK
  spread : ∀ ip, isLan ip=false →
    bin.countP (fun c => decide (subnetOf c.ip=subnetOf ip))≤2
  placed : ∀ c∈bin, inside c.distance

namespace BinOk

theorem congr (h : BinOk inside bin) (hp : SamePlaces bin bin') : BinOk inside bin' :=
  ⟨hp.length_eq ▸ h.size,fun ip hlan =>
    (hp.countP_eq fun p => decide (subnetOf p.ip=subnetOf ip)) ▸ h.spread ip hlan,
    (hp.forall_iff fun p => inside p.distance).mp h.placed⟩

theorem sublist (h : BinOk inside bin) (hs : bin'.Sublist bin) : BinOk inside bin' :=
  ⟨Nat.le_trans hs.length_le h.size,fun ip hlan => Nat.le_trans hs.countP_le (h.spread ip hlan),
    fun c hc => h.placed c (hs.subset hc)⟩

end BinOk

namespace RoutingBin

theorem sameSubnets_eq (bin : ContactList) (ip : UInt32) :
    sameSubnets bin ip=bin.countP fun c => decide (subnetOf c.ip=subnetOf ip) := by
  refine List.countP_congr fun c _ => ?_
  rw [sameSubnet_iff,decide_eq_true_eq]
  exact eq_comm

theorem crowded_eq_false (bin : ContactList) (ip : UInt32) : crowded bin ip=false ↔
    (isLan ip=false → bin.countP (fun c => decide (subnetOf c.ip=subnetOf ip))<2) := by
  rw [crowded,sameSubnets_eq]
  cases isLan ip <;> simp

theorem crowded_mono (hs : bin.Sublist bin') (h : crowded bin' ip=false) :
    crowded bin ip=false :=
  (crowded_eq_false bin ip).mpr fun hlan =>
    Nat.lt_of_le_of_lt hs.countP_le ((crowded_eq_false bin' ip).mp h hlan)

end RoutingBin

open RoutingBin

theorem BinOk.not_crowded (h : BinOk inside (c::bin)) : crowded bin c.ip=false := by
  rw [crowded_eq_false]
  intro hlan
  have hall := h.spread c.ip hlan
  rw [List.countP_cons_of_pos (by simp)] at hall
  omega

theorem BinOk.push (h : BinOk inside bin) (hroom : bin.length<kK)
    (hspread : crowded bin c.ip=false) (hplaced : inside c.distance) :
    BinOk inside (c::bin) := by
  refine ⟨hroom,fun ip hlan => ?_,List.forall_mem_cons.mpr ⟨hplaced,h.placed⟩⟩
  rw [List.countP_cons]
  split_ifs with hsame
  · rw [decide_eq_true_eq] at hsame
    have hfew := (crowded_eq_false bin c.ip).mp hspread (by rw [isLan_congr hsame,hlan])
    rw [hsame] at hfew
    omega
  · exact h.spread ip hlan

namespace RoutingBin

theorem getContact_some {id : KadUInt128} (h : getContact bin id=some c) :
    c∈bin ∧ c.clientId=id :=
  ⟨List.mem_of_find?_eq_some h,by simpa [eq_comm] using List.find?_some h⟩

theorem getContact_none {id : KadUInt128} (h : getContact bin id=none) :
    id∉bin.map Contact.clientId := by
  intro hmem
  obtain ⟨c,hc,rfl⟩ := List.mem_map.mp hmem
  have hfind := List.find?_eq_none.mp h c hc
  simp at hfind

theorem exists_position (hrefs : (bin.map Contact.ref).Nodup) (hc : c∈bin) :
    ∃ xs ys, bin=xs++c::ys ∧ removeContact bin c=xs++ys ∧
      ∀ f,modifyContact bin c.ref f=xs++f c::ys := by
  obtain ⟨xs,ys,rfl⟩ := List.append_of_mem hc
  rw [List.map_append,List.map_cons,List.nodup_append] at hrefs
  obtain ⟨-,hafter,hapart⟩ := hrefs
  have hxs : ∀ x∈xs,x.ref≠c.ref := fun x hx =>
    hapart x.ref (List.mem_map_of_mem hx) c.ref List.mem_cons_self
  have hys : ∀ y∈ys,y.ref≠c.ref := fun y hy heq =>
    (List.nodup_cons.mp hafter).1 (heq ▸ List.mem_map_of_mem hy)
  refine ⟨xs,ys,rfl,?_,fun f => ?_⟩
  · rw [removeContact,List.filter_append,List.filter_cons_of_neg (by simp),
      List.filter_eq_self.mpr (by simpa using hxs),List.filter_eq_self.mpr (by simpa using hys)]
  · have hsame : ∀ zs : ContactList, (∀ z∈zs,z.ref≠c.ref) →
        zs.map (fun z => if z.ref=c.ref then f z else z)=zs := fun zs hzs => by
      rw [List.map_congr_left fun z hz => if_neg (hzs z hz),List.map_id']
    rw [modifyContact,List.map_append,List.map_cons,if_pos rfl,hsame xs hxs,hsame ys hys]

theorem perm_remove (hrefs : (bin.map Contact.ref).Nodup) (hc : c∈bin) :
    bin.Perm (c::removeContact bin c) := by
  obtain ⟨xs,ys,hbin,hremove,-⟩ := exists_position hrefs hc
  rw [hremove,hbin]
  exact List.perm_middle

theorem perm_modify (hrefs : (bin.map Contact.ref).Nodup) (hc : c∈bin) (f : Contact → Contact) :
    (modifyContact bin c.ref f).Perm (f c::removeContact bin c) := by
  obtain ⟨xs,ys,-,hremove,hmodify⟩ := exists_position hrefs hc
  rw [hremove,hmodify]
  exact List.perm_middle

theorem modifyContact_samePlaces {ref : Nat} {f : Contact → Contact}
    (hf : ∀ c,(f c).place=c.place) : SamePlaces bin (modifyContact bin ref f) := by
  refine SamePlaces.of_map fun c _ => ?_
  split_ifs
  · exact hf c
  · rfl

theorem samePlaces_cons (h : d.place=c.place) : SamePlaces (c::bin) (d::bin) := by
  unfold SamePlaces
  rw [List.map_cons,List.map_cons,h]

theorem pushToBottom_samePlaces (hrefs : (bin.map Contact.ref).Nodup) (hc : c∈bin)
    (hd : d.place=c.place) : SamePlaces bin (pushToBottom bin d) := by
  have href : d.ref=c.ref := congrArg Contact.Place.ref hd
  have hremove : removeContact bin d=removeContact bin c := by
    rw [removeContact,removeContact,href]
  rw [pushToBottom,hremove]
  have hfront := SamePlaces.of_perm (perm_remove hrefs hc)
  have hback := SamePlaces.of_perm (List.perm_append_singleton d (removeContact bin c)).symm
  exact hfront.trans ((samePlaces_cons hd).trans hback)

theorem setAlive_samePlaces (hrefs : (bin.map Contact.ref).Nodup) (contact : Contact) (now : Int) :
    SamePlaces bin (setAlive bin contact now) := by
  unfold setAlive
  cases hfound : getContact bin contact.clientId with
  | none => exact List.Perm.refl _
  | some found =>
    exact pushToBottom_samePlaces hrefs (getContact_some hfound).1
      (Contact.updateType_place now found)

theorem addContact_cases (h : addContact bin g c=some (bin', g')) :
    bin'=bin++[c] ∧ g'=adjustGlobalTracking g c.ip true ∧ bin.length<kK ∧
      checkGlobalIPLimits g c.ip=true ∧ crowded bin c.ip=false := by
  unfold addContact at h
  split_ifs at h with hid hcheck hcrowd hroom
  · cases h
    exact ⟨rfl,rfl,hroom,by simpa using hcheck,by simpa using hcrowd⟩

theorem addContact_eq (hcount : Counted (bin++rest) g) (hlimited : Limited (c::(bin++rest)))
    (hid : c.clientId∉bin.map Contact.clientId) (hroom : bin.length<kK) :
    addContact bin g c=if crowded bin c.ip then none
      else some (bin++[c], adjustGlobalTracking g c.ip true) := by
  have hnew : bin.any (fun d => decide (c.clientId=d.clientId))=false := by
    rw [List.any_eq_false]
    intro d hd hsame
    exact hid (List.mem_map.mpr ⟨d,hd,(of_decide_eq_true hsame).symm⟩)
  rw [addContact,hnew,checkGlobalIPLimits_of_limited hcount hlimited,if_pos hroom]
  simp

theorem weakest_mem {victim : Contact} (h : weakest s bin=some victim) :
    victim∈bin ∧ s.inUse victim=false := by
  have hall : ∀ v,weakest s bin=some v → v∈bin ∧ s.inUse v=false := by
    refine List.foldlRecOn (motive := fun victim : Option Contact =>
      ∀ v,victim=some v → v∈bin ∧ s.inUse v=false) bin _
      (fun v hv => nomatch hv) fun victim hvictim c hc v hv => ?_
    cases huse : s.inUse c with
    | true =>
      rw [huse,if_pos rfl] at hv
      exact hvictim v hv
    | false =>
      rw [huse,if_neg (by simp)] at hv
      cases victim with
      | none =>
        cases hv
        exact ⟨hc,huse⟩
      | some w =>
        dsimp only at hv
        split_ifs at hv
        · cases hv
          exact ⟨hc,huse⟩
        · exact hvictim v hv
  exact hall victim h

theorem contactIPs_without (old ip : UInt32) :
    (adjustGlobalTracking g old false).contactIPs ip =
      g.contactIPs ip-if ip=old then 1 else 0 := by
  rw [adjust_contactIPs]
  by_cases h : ip=old
  · rw [if_pos h,if_pos h,h]
    rfl
  · rw [if_neg h,if_neg h]
    rfl

theorem contactSubnets_without (old ip : UInt32) :
    (adjustGlobalTracking g old false).contactSubnets (subnetOf ip) =
      g.contactSubnets (subnetOf ip)-if sameSubnet ip old then 1 else 0 := by
  rw [adjust_contactSubnets]
  by_cases h : subnetOf ip=subnetOf old
  · rw [if_pos h,if_pos ((sameSubnet_iff ip old).mpr h),h]
    rfl
  · rw [if_neg h,if_neg (fun hsame => h ((sameSubnet_iff ip old).mp hsame))]
    rfl

theorem replaceWeakest_cases {gone : Contact}
    (h : replaceWeakest bin s c=some (gone, bin', s')) :
    gone∈bin ∧ s.inUse gone=false ∧ bin'=removeContact bin gone++[c] ∧
      s'=(s.adjust gone.ip false).adjust c.ip true ∧
      checkGlobalIPLimits (s.adjust gone.ip false).tracking c.ip=true ∧
      crowded (removeContact bin gone) c.ip=false := by
  unfold replaceWeakest at h
  split_ifs at h
  cases hvictim : weakest s bin with
  | none =>
    rw [hvictim] at h
    cases h
  | some victim =>
    rw [hvictim] at h
    dsimp only at h
    rw [← contactIPs_without,← contactSubnets_without] at h
    split_ifs at h with hstrong hips hsubnets hcrowd
    cases h
    obtain ⟨hmem,huse⟩ := weakest_mem hvictim
    refine ⟨hmem,huse,rfl,rfl,?_,by simpa using hcrowd⟩
    rw [checkGlobalIPLimits,Bool.and_eq_true,Bool.or_eq_true,decide_eq_true_eq,
      decide_eq_true_eq]
    refine ⟨Nat.lt_of_not_le hips,?_⟩
    cases hlan : isLan c.ip with
    | true => exact Or.inr rfl
    | false => exact Or.inl (Nat.lt_of_not_le fun hmany => hsubnets ⟨hmany,hlan⟩)

theorem modifyContact_map {β : Type*} {ref : Nat} {f : Contact → Contact} {q : Contact → β}
    (hf : ∀ c,q (f c)=q c) : (modifyContact bin ref f).map q=bin.map q := by
  rw [modifyContact,List.map_map]
  refine List.map_congr_left fun c _ => ?_
  rw [Function.comp_apply]
  split_ifs
  · exact hf c
  · rfl

theorem crowded_without (hbin : BinOk inside bin) (hrefs : (bin.map Contact.ref).Nodup)
    (hc : c∈bin) (h : subnetOf ip≠subnetOf c.ip → crowded bin ip=false) :
    crowded (removeContact bin c) ip=false := by
  rw [crowded_eq_false]
  intro hlan
  by_cases hsubnet : subnetOf ip=subnetOf c.ip
  · have hall := hbin.spread ip hlan
    rw [(perm_remove hrefs hc).countP_eq,List.countP_cons_of_pos (by simpa using hsubnet.symm)]
      at hall
    omega
  · exact Nat.lt_of_le_of_lt List.filter_sublist.countP_le
      ((crowded_eq_false bin ip).mp (h hsubnet) hlan)

theorem checkGlobalIPLimits_without (hcount : Counted bin g) (hlimited : Limited bin)
    (hc : c∈bin) (hip : ip≠c.ip) (hfree : g.contactIPs ip<kMaxContactsIP)
    (h : subnetOf ip≠subnetOf c.ip → isLan ip=false →
      g.contactSubnets (subnetOf ip)<kMaxContactsSubnet) :
    checkGlobalIPLimits (adjustGlobalTracking g c.ip false) ip=true := by
  rw [checkGlobalIPLimits,Bool.and_eq_true,Bool.or_eq_true,decide_eq_true_eq,
    decide_eq_true_eq,contactIPs_without,contactSubnets_without,if_neg hip]
  refine ⟨hfree,?_⟩
  cases hlan : isLan ip with
  | true => exact Or.inr rfl
  | false =>
    left
    by_cases hsubnet : subnetOf ip=subnetOf c.ip
    · have hlimit := hlimited.subnets ip hlan
      have hpos : 0<bin.countP fun d => decide (subnetOf d.ip=subnetOf ip) :=
        List.countP_pos_iff.mpr ⟨c,hc,by simpa using hsubnet.symm⟩
      rw [← hcount.perSubnet] at hlimit hpos
      rw [if_pos ((sameSubnet_iff ip c.ip).mpr hsubnet)]
      omega
    · rw [if_neg fun hsame => hsubnet ((sameSubnet_iff ip c.ip).mp hsame)]
      exact h hsubnet hlan

/-- The limits a move is checked against are those of the table without the contact. -/
theorem changeContactIPAddress_cases (hgood : Consistent localKadId (bin++rest) g)
    (hbin : BinOk inside bin) (hc : c∈bin)
    (h : changeContactIPAddress bin g c ip=some (bin', g')) :
    Consistent localKadId (bin'++rest) g' ∧ BinOk inside bin' ∧
      bin'.map Contact.object=bin.map Contact.object := by
  unfold changeContactIPAddress at h
  split_ifs at h with hsame hips hsubnets
  · cases h
    exact ⟨hgood,hbin,rfl⟩
  · cases h
    have hrefs : (bin.map Contact.ref).Nodup := by
      have hall := hgood.distinct.refs
      rw [List.map_append] at hall
      exact hall.of_append_left
    have hleft := perm_remove hrefs hc
    have hright := perm_modify hrefs hc (·.setAddress ip)
    have hwhole : Consistent localKadId (c::(removeContact bin c++rest)) g :=
      hgood.perm (hleft.append_right rest)
    have hapart : subnetOf ip≠subnetOf c.ip → sameSubnet ip c.ip=false := fun hne =>
      Bool.eq_false_iff.mpr fun heq => hne ((sameSubnet_iff ip c.ip).mp heq)
    have hspread : crowded (removeContact bin c) ip=false := by
      refine crowded_without hbin hrefs hc fun hne => ?_
      rw [hapart hne] at hsubnets
      simp only [Bool.not_false,Bool.true_and,Bool.or_eq_true,not_or] at hsubnets
      simpa using hsubnets.2
    have hcheck : checkGlobalIPLimits (adjustGlobalTracking g c.ip false) ip=true := by
      refine checkGlobalIPLimits_without hgood.counted hgood.limited
        (List.mem_append_left rest hc) (Ne.symm hsame) (Nat.lt_of_not_le hips) fun hne hlan => ?_
      rw [hapart hne,hlan] at hsubnets
      simp only [Bool.not_false,Bool.true_and,Bool.and_true,Bool.or_eq_true,decide_eq_true_eq,
        not_or] at hsubnets
      exact Nat.lt_of_not_le hsubnets.1
    have hnew : Newcomer localKadId (removeContact bin c++rest) (c.setAddress ip) :=
      ⟨by simpa using hwhole.newcomer.clientId,by simpa using hwhole.newcomer.ref,
        by simpa using hwhole.newcomer.distance⟩
    have hpushed := hwhole.drop.push hnew (by rwa [Contact.setAddress_ip])
    rw [Contact.setAddress_ip] at hpushed
    have hothers := hbin.sublist (List.filter_sublist : (removeContact bin c).Sublist bin)
    have hsize := hleft.length_eq
    rw [List.length_cons] at hsize
    have hroom : (removeContact bin c).length<kK := by
      have hfull := hbin.size
      omega
    have hmoved := hothers.push (c := c.setAddress ip) hroom (by rwa [Contact.setAddress_ip])
      (by rw [Contact.setAddress_distance]; exact hbin.placed c hc)
    exact ⟨hpushed.perm (hright.append_right rest).symm,
      hmoved.congr (SamePlaces.of_perm hright.symm),
      modifyContact_map fun d => by
        rw [Contact.object,Contact.setAddress_ref,Contact.setAddress_clientId,Contact.object]⟩

end RoutingBin

end EmuleQt.Kademlia
