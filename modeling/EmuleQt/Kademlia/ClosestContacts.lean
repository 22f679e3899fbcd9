import EmuleQt.Framework.Nearest
import EmuleQt.Kademlia.SearchPins
import Mathlib.Data.Nat.Bitwise

namespace EmuleQt.Kademlia

open Framework

namespace KadMap

variable {β : Type} {k : KadUInt128} {v : β} {m fetched : KadMap β}

theorem set_sorted (h : m.Pairwise fun a b => a.1<b.1) :
    (set k v m).Pairwise fun a b => a.1<b.1 := by
  induction m with
  | nil => simp [set]
  | cons x m ih =>
    obtain ⟨hx,hm⟩ := List.pairwise_cons.mp h
    rw [set]
    split_ifs with heq hlt
    · exact List.pairwise_cons.mpr ⟨fun e he => heq ▸ hx e he,hm⟩
    · refine List.pairwise_cons.mpr ⟨fun e he => ?_,h⟩
      rcases List.mem_cons.mp he with rfl | he
      · exact hlt
      · exact Std.lt_trans hlt (hx e he)
    · refine List.pairwise_cons.mpr ⟨fun e he => ?_,ih hm⟩
      rcases mem_set he with rfl | he
      · have hle : x.1≤k := Std.not_lt.mp hlt
        exact Std.lt_of_le_of_ne hle (Ne.symm heq)
      · exact hx e he

theorem setAll_sorted (h : m.Pairwise fun a b => a.1<b.1) :
    (setAll m fetched).Pairwise fun a b => a.1<b.1 := by
  induction fetched generalizing m with
  | nil => exact h
  | cons e fetched ih => exact ih (set_sorted h)

theorem setAll_perm (h : ((m++fetched).map Prod.fst).Nodup) :
    (setAll m fetched).Perm (m++fetched) := by
  induction fetched generalizing m with
  | nil => simp [setAll]
  | cons e fetched ih =>
    have hfront : ((e::(m++fetched)).map Prod.fst).Nodup :=
      (List.perm_middle.map Prod.fst).nodup_iff.mp h
    obtain ⟨hnew,-⟩ := List.nodup_cons.mp hfront
    rw [List.map_append,List.mem_append,not_or] at hnew
    have hset : (set e.1 e.2 m++fetched).Perm (e::(m++fetched)) :=
      (set_perm hnew.1).append_right fetched
    have hrest := ih ((hset.map Prod.fst).nodup_iff.mpr hfront)
    exact (hrest.trans hset).trans List.perm_middle.symm

end KadMap

/-- The contacts that are handed out: verified, and fresh enough. -/
def Contact.eligible (maxType : Nat) (c : Contact) : Bool :=
  decide (c.type ≤ maxType) && c.ipVerified

/-- A contact under its distance to the target. -/
def Contact.keyed (target : KadUInt128) (c : Contact) : KadUInt128 × Nat :=
  (c.clientId ^^^ target, c.ref)

/-- What there is to hand out of some contacts. -/
def offers (maxType : Nat) (target : KadUInt128) (cs : ContactList) : ContactMap :=
  (cs.filter (Contact.eligible maxType)).map (Contact.keyed target)

namespace Zone

/-- Every contact lies on the side its distance says. -/
def OnSide (level : Nat) : Zone → Prop
  | leaf _ => True
  | node zero one =>
    ((∀ c∈zero.contacts, getBitNumber c.distance level=false) ∧
      ∀ c∈one.contacts, getBitNumber c.distance level=true) ∧
      zero.OnSide (level+1) ∧ one.OnSide (level+1)

/-- The placement invariant: no ID and no object twice, every distance is that to the local ID, and
every contact lies on its side. -/
structure Placed (localKadId : KadUInt128) (z : Zone) : Prop where
  distinct : Distinct localKadId z.contacts
  onSide : z.OnSide 0

end Zone

/-- What the tree hands out, and the use counts after it. -/
structure HandsOutClosest (cs : ContactList) (target : KadUInt128) (maxType maxRequired : Nat)
    (setInUse : Bool) (s : Shared) (r : ContactMap × Shared) : Prop where
  sorted : r.1.Pairwise fun a b => a.1<b.1
  returned : ∀ e∈r.1, ∃ c∈cs, c.eligible maxType=true ∧ e=c.keyed target
  size : r.1.length=min maxRequired (cs.countP (Contact.eligible maxType))
  closest : ∀ c∈cs, c.eligible maxType=true → c.keyed target∉r.1 →
    ∀ e∈r.1, e.1<c.clientId ^^^ target
  uses : ∀ ref, r.2.uses ref =
    s.uses ref+if setInUse=true ∧ ref∈r.1.map Prod.snd then 1 else 0
  tracking : r.2.tracking=s.tracking
  freed : r.2.freed=s.freed

variable {localKadId target distance x y : KadUInt128} {cs ds bin : ContactList}
  {xs m m' : ContactMap} {s : Shared} {c d : Contact} {z : Zone} {level maxType maxRequired : Nat}
  {setInUse emptyFirst : Bool}

theorem lt_of_getBitNumber (level : Nat)
    (hsame : ∀ i<level,getBitNumber x i=getBitNumber y i)
    (hx : getBitNumber x level=false) (hy : getBitNumber y level=true) : x<y := by
  have hlevel : level<128 := by
    by_contra hge
    simp [getBitNumber,BitVec.getMsbD_eq_getLsbD,hge] at hy
  simp only [getBitNumber,BitVec.getMsbD_eq_getLsbD] at hsame hx hy
  refine Nat.lt_of_testBit (127-level) ?_ ?_ ?_
  · simpa [hlevel,BitVec.testBit_toNat] using hx
  · simpa [hlevel,BitVec.testBit_toNat] using hy
  · intro j hj
    by_cases hsize : j<128
    · have hbit := hsame (127-j) (by omega)
      have hback : 128-1-(127-j)=j := by omega
      rw [hback,decide_eq_true (by omega),Bool.true_and,Bool.true_and] at hbit
      exact hbit
    · rw [BitVec.testBit_toNat,BitVec.testBit_toNat,BitVec.getLsbD_of_ge x j (by omega),
        BitVec.getLsbD_of_ge y j (by omega)]

theorem offers_append : offers maxType target (cs++ds) =
    offers maxType target cs++offers maxType target ds := by
  rw [offers,List.filter_append,List.map_append]
  rfl

theorem offers_perm (h : cs.Perm ds) :
    (offers maxType target cs).Perm (offers maxType target ds) :=
  (h.filter _).map _

theorem mem_offers {e : KadUInt128 × Nat} : e∈offers maxType target cs ↔
    ∃ c∈cs, c.eligible maxType=true ∧ e=c.keyed target := by
  simp only [offers,List.mem_map,List.mem_filter,and_assoc,eq_comm]

theorem offers_keys (h : (cs.map Contact.clientId).Nodup) :
    ((offers maxType target cs).map Prod.fst).Nodup := by
  have hids := h.sublist ((List.filter_sublist (p := Contact.eligible maxType)).map _)
  have hkeys := hids.map (f := fun id => id ^^^ target) fun a b heq =>
    Lent.xor_right_injective heq
  rw [List.map_map] at hkeys
  rw [offers,List.map_map]
  exact hkeys

theorem offers_refs (h : (cs.map Contact.ref).Nodup) :
    ((offers maxType target cs).map Prod.snd).Nodup := by
  rw [offers,List.map_map]
  exact h.sublist ((List.filter_sublist (p := Contact.eligible maxType)).map _)

theorem offer_foldl_fst (m : ContactMap) (s : Shared) :
    (cs.foldl (offerContact maxType target setInUse) (m, s)).1 =
      KadMap.setAll m (offers maxType target cs) := by
  induction cs generalizing m s with
  | nil => rfl
  | cons c cs ih =>
    have heligible : c.eligible maxType=true ↔ c.type ≤ maxType ∧ c.ipVerified=true := by
      simp [Contact.eligible]
    rw [List.foldl_cons,offerContact,offers,List.filter_cons]
    by_cases hoffer : c.type ≤ maxType ∧ c.ipVerified=true
    · rw [if_pos hoffer,if_pos (heligible.mpr hoffer)]
      exact ih (KadMap.set (c.clientId ^^^ target) c.ref m) (if setInUse then s.incUse c.ref else s)
    · rw [if_neg hoffer,if_neg (fun h => hoffer (heligible.mp h))]
      exact ih m s

theorem getClosestTo_bin (h : Nearest maxRequired xs m) (hempty : emptyFirst=true → m=[])
    (hkeys : ((xs++offers maxType target bin).map Prod.fst).Nodup) :
    Nearest maxRequired (xs++offers maxType target bin)
      (RoutingBin.getClosestTo maxType target maxRequired setInUse bin emptyFirst m s).1 := by
  have hstart : (if emptyFirst=true then [] else m)=m := by
    split_ifs with hcase
    · exact (hempty hcase).symm
    · rfl
  have hrefill := h.refill (KadMap.setAll_sorted h.sorted)
    (KadMap.setAll_perm (h.append_keys hkeys))
  unfold RoutingBin.getClosestTo
  rw [hstart]
  split_ifs with hcase
  · rcases hcase with rfl | rfl
    · rw [show offers maxType target []=[] from rfl,List.append_nil]
      exact h
    · have hnone : m=[] := List.eq_nil_of_length_eq_zero (by rw [h.size,Nat.zero_min])
      rw [hnone]
      rwa [List.take_zero] at hrefill
  · rw [trimFurthest,offer_foldl_fst]
    exact hrefill

/-- What lies under one zone agrees on the bits above it. -/
structure Under (localKadId : KadUInt128) (level : Nat) (cs : ContactList) : Prop where
  distances : ∀ c ∈ cs, c.distance = localKadId ^^^ c.clientId
  agree : ∀ c ∈ cs, ∀ d ∈ cs, ∀ i < level,
    getBitNumber c.distance i = getBitNumber d.distance i

namespace Under

theorem deeper (h : Under localKadId level cs) (hs : ds ⊆ cs) {bit : Bool}
    (hbit : ∀ c∈ds,getBitNumber c.distance level=bit) :
    Under localKadId (level+1) ds := by
  refine ⟨fun c hc => h.distances c (hs hc),fun c hc d hd i hi => ?_⟩
  rcases Nat.lt_succ_iff_lt_or_eq.mp hi with hi | rfl
  · exact h.agree c (hs hc) d (hs hd) i hi
  · rw [hbit c hc,hbit d hd]

theorem key_eq (h : Under localKadId level cs) (hc : c∈cs) (target : KadUInt128) :
    c.clientId ^^^ target=c.distance ^^^ (localKadId ^^^ target) := by
  rw [h.distances c hc,BitVec.xor_comm localKadId c.clientId,BitVec.xor_assoc,
    ← BitVec.xor_assoc localKadId localKadId,BitVec.xor_self,BitVec.zero_xor]

theorem nearer_lt (h : Under localKadId level cs) (hc : c∈cs) (hd : d∈cs)
    (hnear : getBitNumber c.distance level=getBitNumber (localKadId ^^^ target) level)
    (hfar : getBitNumber d.distance level≠getBitNumber (localKadId ^^^ target) level) :
    c.clientId ^^^ target<d.clientId ^^^ target := by
  have hxor : ∀ (a b : KadUInt128) (i : Nat),
      getBitNumber (a ^^^ b) i=(getBitNumber a i ^^ getBitNumber b i) := by
    intro a b i
    simp [getBitNumber]
  rw [h.key_eq hc,h.key_eq hd]
  refine lt_of_getBitNumber level (fun i hi => ?_) ?_ ?_
  · rw [hxor c.distance,hxor d.distance,h.agree c hc d hd i hi]
  · rw [hxor,hnear,Bool.xor_self]
  · rw [hxor]
    exact Bool.xor_iff_ne.mpr hfar

theorem offers_lt {near far : ContactList} (h : Under localKadId level cs) (hnearSub : near ⊆ cs)
    (hfarSub : far ⊆ cs)
    (hnear : ∀ c∈near,getBitNumber c.distance level =
      getBitNumber (localKadId ^^^ target) level)
    (hfar : ∀ c∈far,getBitNumber c.distance level ≠
      getBitNumber (localKadId ^^^ target) level) :
    ∀ e∈offers maxType target near, ∀ f∈offers maxType target far, e.1<f.1 := by
  intro e he f hf
  obtain ⟨c,hc,-,rfl⟩ := mem_offers.mp he
  obtain ⟨d,hd,-,rfl⟩ := mem_offers.mp hf
  exact h.nearer_lt (hnearSub hc) (hfarSub hd) (hnear c hc) (hfar d hd)

end Under

/-- The contacts of a zone that is asked next: new ones, and further away than those before. -/
structure Pending (localKadId target : KadUInt128) (maxType level : Nat) (xs : ContactMap)
    (cs : ContactList) : Prop where
  keys : ((xs ++ offers maxType target cs).map Prod.fst).Nodup
  under : Under localKadId level cs
  further : ∀ e ∈ xs, ∀ f ∈ offers maxType target cs, e.1 < f.1

namespace Pending

variable {near far : ContactList} {bit : Bool}

theorem nearSide (h : Pending localKadId target maxType level xs cs) (hp : (near++far).Perm cs)
    (hnear : ∀ c∈near,getBitNumber c.distance level=bit) :
    Pending localKadId target maxType (level+1) xs near := by
  have hsub : near ⊆ cs := fun c hc => hp.subset (List.mem_append_left far hc)
  have hoffers : (offers maxType target (near++far)).Perm (offers maxType target cs) :=
    offers_perm hp
  rw [offers_append] at hoffers
  have hkeys := ((hoffers.append_left xs).map Prod.fst).nodup_iff.mpr h.keys
  refine ⟨hkeys.sublist (((List.sublist_append_left _ _).append_left xs).map _),
    h.under.deeper hsub hnear,fun e he f hf => ?_⟩
  exact h.further e he f (hoffers.subset (List.mem_append_left _ hf))

theorem farSide (h : Pending localKadId target maxType level xs cs) (hp : (near++far).Perm cs)
    (hnear : ∀ c∈near,getBitNumber c.distance level =
      getBitNumber (localKadId ^^^ target) level)
    (hfar : ∀ c∈far,getBitNumber c.distance level =
      !getBitNumber (localKadId ^^^ target) level) :
    Pending localKadId target maxType (level+1) (xs++offers maxType target near) far := by
  have hnearSub : near ⊆ cs := fun c hc => hp.subset (List.mem_append_left far hc)
  have hfarSub : far ⊆ cs := fun c hc => hp.subset (List.mem_append_right near hc)
  have hoffers : (offers maxType target (near++far)).Perm (offers maxType target cs) :=
    offers_perm hp
  rw [offers_append] at hoffers
  have hkeys := ((hoffers.append_left xs).map Prod.fst).nodup_iff.mpr h.keys
  refine ⟨by rwa [List.append_assoc],h.under.deeper hfarSub hfar,fun e he f hf => ?_⟩
  rcases List.mem_append.mp he with he | he
  · exact h.further e he f (hoffers.subset (List.mem_append_right _ hf))
  · refine h.under.offers_lt hnearSub hfarSub hnear (fun c hc => ?_) e he f hf
    rw [hfar c hc]
    exact Bool.not_ne_self _

theorem ask_sides (h : Pending localKadId target maxType level xs cs) (hp : (near++far).Perm cs)
    (hnear : ∀ c∈near,getBitNumber c.distance level =
      getBitNumber (localKadId ^^^ target) level)
    (hfar : ∀ c∈far,getBitNumber c.distance level =
      !getBitNumber (localKadId ^^^ target) level)
    {first second : ContactMap × Shared}
    (hfirst : Pending localKadId target maxType (level+1) xs near →
      Nearest maxRequired (xs++offers maxType target near) first.1)
    (hsecond : Nearest maxRequired (xs++offers maxType target near) first.1 →
      Pending localKadId target maxType (level+1) (xs++offers maxType target near) far →
      Nearest maxRequired (xs++offers maxType target near++offers maxType target far)
        second.1) :
    Nearest maxRequired (xs++offers maxType target cs)
      (if first.1.length < maxRequired then second else first).1 := by
  have hpendingFar := h.farSide hp hnear hfar
  have hasked := hfirst (h.nearSide hp hnear)
  have hoffers : (offers maxType target (near++far)).Perm (offers maxType target cs) :=
    offers_perm hp
  rw [offers_append] at hoffers
  have hall : Nearest maxRequired (xs++offers maxType target near++offers maxType target far)
      (if first.1.length < maxRequired then second else first).1 := by
    split_ifs with hroom
    · exact hsecond hasked hpendingFar
    · exact hasked.skip (by omega) hpendingFar.further
  rw [List.append_assoc] at hall
  exact hall.perm (hoffers.append_left xs)

end Pending

theorem getClosestTo_zone (h : Nearest maxRequired xs m) (hempty : emptyFirst=true → m=[])
    (hon : z.OnSide level) (hpending : Pending localKadId target maxType level xs z.contacts) :
    Nearest maxRequired (xs++offers maxType target z.contacts)
      (z.getClosestTo maxType target maxRequired setInUse (localKadId ^^^ target) level emptyFirst
        m s).1 := by
  induction z generalizing xs m s level emptyFirst with
  | leaf bin => exact getClosestTo_bin h hempty hpending.keys
  | node zero one ihZero ihOne =>
    obtain ⟨⟨hzero,hone⟩,honZero,honOne⟩ := hon
    rw [Zone.getClosestTo]
    cases hbit : getBitNumber (localKadId ^^^ target) level with
    | true =>
      rw [if_pos rfl]
      exact hpending.ask_sides List.perm_append_comm
        (fun c hc => (hone c hc).trans hbit.symm)
        (fun c hc => by rw [hzero c hc,hbit,Bool.not_true])
        (fun hnext => ihOne h hempty honOne hnext)
        (fun hfirst hnext => ihZero hfirst (by simp) honZero hnext)
    | false =>
      exact hpending.ask_sides (List.Perm.refl _)
        (fun c hc => (hzero c hc).trans hbit.symm)
        (fun c hc => by rw [hone c hc,hbit,Bool.not_false])
        (fun hnext => ihZero h hempty honZero hnext)
        (fun hfirst hnext => ihOne hfirst (by simp) honOne hnext)

theorem offer_foldl_untouched (cs : ContactList) (acc : ContactMap × Shared) :
    (cs.foldl (offerContact maxType target false) acc).2=acc.2 := by
  induction cs generalizing acc with
  | nil => rfl
  | cons c cs ih =>
    rw [List.foldl_cons,ih,offerContact]
    split_ifs with hoffer hfalse
    · cases hfalse
    · rfl
    · rfl

theorem getClosestTo_untouched (m : ContactMap) (s : Shared) :
    (z.getClosestTo maxType target maxRequired false distance level emptyFirst m s).2=s := by
  induction z generalizing m s level emptyFirst with
  | leaf bin =>
    rw [Zone.getClosestTo,RoutingBin.getClosestTo]
    by_cases hnone : bin=[] ∨ maxRequired=0
    · rw [if_pos hnone]
    · rw [if_neg hnone,trimFurthest]
      exact offer_foldl_untouched bin _
  | node zero one ihZero ihOne =>
    rw [Zone.getClosestTo]
    dsimp only
    split_ifs
    · rw [ihZero,ihOne]
    · exact ihOne m s
    · rw [ihOne,ihZero]
    · exact ihZero m s

theorem countP_eligible (cs : ContactList) :
    (offers maxType target cs).length=cs.countP (Contact.eligible maxType) := by
  rw [offers,List.length_map,List.countP_eq_length_filter]

theorem refs_nodup (hplaced : z.Placed localKadId)
    (h : Nearest maxRequired (offers maxType target z.contacts) m) :
    (m.map Prod.snd).Nodup := by
  obtain ⟨far,hfar,-⟩ := h.rest
  have hrefs := (hfar.map Prod.snd).nodup_iff.mpr (offers_refs hplaced.distinct.refs)
  exact hrefs.sublist ((List.sublist_append_left m far).map _)

theorem getClosestTo_shared (hplaced : z.Placed localKadId) (s : Shared) {r : ContactMap × Shared}
    (hr : r=z.getClosestTo maxType target maxRequired setInUse distance level emptyFirst [] s)
    (hrefs : (r.1.map Prod.snd).Nodup) :
    (∀ ref,r.2.uses ref =
        s.uses ref+if setInUse=true ∧ ref∈r.1.map Prod.snd then 1 else 0) ∧
      r.2.tracking=s.tracking ∧ r.2.freed=s.freed := by
  cases setInUse with
  | false =>
    have hsame : r.2=s := by rw [hr,getClosestTo_untouched]
    simp [hsame]
  | true =>
    have hids : ((z.contacts++[]).map Contact.clientId).Nodup := by
      rw [List.append_nil]
      exact hplaced.distinct.ids
    have hlent := (Lent.nothing target s).getClosestTo_zone maxType maxRequired distance level
      emptyFirst (fun _ => rfl) hids
    rw [← hr] at hlent
    refine ⟨fun ref => ?_,hlent.tracking,hlent.freed⟩
    have huses := hlent.uses ref
    rw [hrefs.count] at huses
    simpa using huses

theorem getClosestTo_emptied (m : ContactMap) (s : Shared) :
    z.getClosestTo maxType target maxRequired setInUse distance level true m s =
      z.getClosestTo maxType target maxRequired setInUse distance level true [] s := by
  induction z generalizing level with
  | leaf bin => rfl
  | node zero one ihZero ihOne =>
    rw [Zone.getClosestTo,Zone.getClosestTo,ihZero,ihOne]

/-- The tree hands out the nearest of its eligible contacts, as many as are asked for, under their
distances to the target, and pins exactly these. -/
theorem Zone.getClosestTo_handsOutClosest (hplaced : z.Placed localKadId)
    (target : KadUInt128) (maxType maxRequired : Nat) (emptyFirst setInUse : Bool)
    (result : ContactMap) (hempty : emptyFirst = true ∨ result = []) (s : Shared) :
    HandsOutClosest z.contacts target maxType maxRequired setInUse s
      (z.getClosestTo maxType target maxRequired setInUse (localKadId ^^^ target) 0 emptyFirst result
        s) := by
  have hstart : z.getClosestTo maxType target maxRequired setInUse (localKadId ^^^ target) 0
      emptyFirst result s=z.getClosestTo maxType target maxRequired setInUse
        (localKadId ^^^ target) 0 emptyFirst [] s := by
    rcases hempty with rfl | rfl
    · exact getClosestTo_emptied result s
    · rfl
  have hpending : Pending localKadId target maxType 0 [] z.contacts :=
    ⟨offers_keys hplaced.distinct.ids,⟨hplaced.distinct.distances,by simp⟩,by simp⟩
  have hnearest : Nearest maxRequired ([]++offers maxType target z.contacts)
      (z.getClosestTo maxType target maxRequired setInUse (localKadId ^^^ target) 0 emptyFirst []
        s).1 :=
    getClosestTo_zone (Nearest.nil maxRequired) (fun _ => rfl) hplaced.onSide hpending
  rw [List.nil_append] at hnearest
  rw [hstart]
  obtain ⟨huses,htracking,hfreed⟩ :=
    getClosestTo_shared hplaced s rfl (refs_nodup hplaced hnearest)
  refine ⟨hnearest.sorted,fun e he => mem_offers.mp (hnearest.subset he),?_,?_,huses,htracking,
    hfreed⟩
  · rw [hnearest.size,countP_eligible]
  · intro c hc heligible hnot e he
    exact hnearest.lt_of_not_mem he (mem_offers.mpr ⟨c,hc,heligible,rfl⟩) hnot

/-- Three nodes on two sides, seen from the local ID 0: one is not verified. -/
def threeNodes : Zone :=
  let verified (ref : Nat) (id : KadUInt128) : Contact :=
    { Contact.create ref 0 id 0x01020304 4672 4662 8 ⟨0,0⟩ true 0 with type := 1 }
  .node (.leaf [verified 1 5,{ verified 2 7 with ipVerified := false }])
    (.leaf [verified 3 (1 <<< 127)])

/-- The nearest verified node to a target on the other side is the one there. -/
theorem Zone.getClosestTo_handsOutClosest_threeNodes :
    HandsOutClosest threeNodes.contacts (1 <<< 127 ||| 4) 3 1 true Shared.empty
      (threeNodes.getClosestTo 3 (1 <<< 127 ||| 4) 1 true (0 ^^^ (1 <<< 127 ||| 4)) 0 true []
        Shared.empty) := by
  have hplaced : threeNodes.Placed 0 :=
    ⟨⟨by decide,by decide,by decide⟩,⟨⟨by decide,by decide⟩,trivial,trivial⟩⟩
  exact Zone.getClosestTo_handsOutClosest hplaced _ _ _ _ _ _ (Or.inl rfl) _

end EmuleQt.Kademlia
