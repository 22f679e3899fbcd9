import EmuleQt.Kademlia.SearchPins
import Mathlib.Algebra.Order.BigOperators.Group.List
import Mathlib.Algebra.Order.Group.Nat

namespace EmuleQt.Kademlia

open Framework

namespace Search

variable {cs cs' results : ContactList} {search : Search} {c : Contact} {ref : Nat}

theorem receive_possible {fromDistance : KadUInt128} {r : Received} {e : KadUInt128 × Nat}
    (h : e∈(search.receive fromDistance r c).possible) :
    e∈r.possible ∨ e=(c.distance, c.ref) := by
  unfold receive at h
  split_ifs at h
  · exact Or.inl h
  · exact Or.inl h
  · exact (KadMap.mem_set h).symm
  · exact Or.inl h
  · exact (KadMap.mem_set h).symm

theorem receive_foldl_possible {fromDistance : KadUInt128} {r : Received}
    {e : KadUInt128 × Nat}
    (h : e∈(results.foldl (search.receive fromDistance) r).possible) :
    e∈r.possible ∨ e.2∈results.map Contact.ref := by
  induction results generalizing r with
  | nil => exact Or.inl h
  | cons c results ih =>
    rcases ih h with h | h
    · rcases receive_possible h with h | rfl
      · exact Or.inl h
      · exact Or.inr List.mem_cons_self
    · exact Or.inr (List.mem_cons_of_mem _ h)

theorem autoQuery_ok (h : SearchOk cs search) (fromDistance : KadUInt128) :
    let x := search.autoQuery fromDistance
    SearchOk cs x ∧ x.target=search.target ∧ x.inUse=search.inUse ∧
      x.deleteList=search.deleteList := by
  obtain ⟨hpoints,hinUse,hdelete,htarget⟩ := autoQuery_spec search
    (search.possible.takeWhile fun e => decide (e.1<fromDistance))
  change (search.autoQuery fromDistance).inUse=_ at hinUse
  change (search.autoQuery fromDistance).deleteList=_ at hdelete
  change (search.autoQuery fromDistance).target=_ at htarget
  refine ⟨⟨?_,fun e he => ?_⟩,htarget,hinUse,hdelete⟩
  · rw [htarget,hinUse]
    exact h.pinned
  · rw [hinUse,hdelete]
    rcases hpoints e he with he | he
    · exact h.held e he
    · exact h.held e (Or.inl (List.takeWhile_subset _ he))

theorem processResponse_spec (h : SearchOk cs search) (fromIP : UInt32)
    (sender : Option KadUInt128) (refused : Bool) (results : ContactList) :
    let x := search.processResponse fromIP sender refused results
    SearchOk cs x ∧ x.target=search.target ∧ x.inUse=search.inUse ∧
      x.deleteList=search.deleteList++results := by
  have hown : ∀ e,search.PointsTo e → e.2∈search.inUse.map Prod.snd ∨
      e.2∈(search.deleteList++results).map Contact.ref := by
    intro e he
    refine (h.held e he).imp_right fun hd => ?_
    rw [List.map_append]
    exact List.mem_append_left _ hd
  unfold processResponse
  by_cases hrefused : refused=true
  · rw [if_pos hrefused]
    exact ⟨⟨h.pinned,hown⟩,rfl,rfl,rfl⟩
  rw [if_neg hrefused]
  by_cases hfirewall : search.type = .nodeFwCheckUDP
  · rw [if_pos hfirewall]
    exact ⟨⟨h.pinned,hown⟩,rfl,rfl,rfl⟩
  rw [if_neg hfirewall]
  by_cases hnode : search.type = .node
  · rw [if_pos hnode]
    refine ⟨⟨h.pinned,fun e he => hown e ?_⟩,rfl,rfl,rfl⟩
    rcases he with he | he
    · cases he
    · exact Or.inr he
  rw [if_neg hnode]
  cases sender with
  | none => exact ⟨⟨h.pinned,hown⟩,rfl,rfl,rfl⟩
  | some fromDistance =>
    dsimp only
    generalize hreceived : results.foldl (receive _ fromDistance) _ = r
    have hpossible : ∀ e∈r.possible,
        e∈search.possible ∨ e.2∈results.map Contact.ref := by
      intro e he
      rw [← hreceived] at he
      exact receive_foldl_possible he
    have hheld : ∀ e,Search.PointsTo { search with
        deleteList := search.deleteList++results
        possible := r.possible
        responded := KadMap.set fromDistance r.closer search.responded } e →
        e.2∈search.inUse.map Prod.snd ∨
          e.2∈(search.deleteList++results).map Contact.ref := by
      intro e he
      rcases he with he | he
      · rcases hpossible e he with he | he
        · exact hown e (Or.inl he)
        · rw [List.map_append]
          exact Or.inr (List.mem_append_right _ he)
      · exact hown e (Or.inr he)
    split_ifs
    · exact ⟨⟨h.pinned,hheld⟩,rfl,rfl,rfl⟩
    · have hanswered : SearchOk cs { search with
          deleteList := search.deleteList++results
          possible := r.possible
          responded := KadMap.set fromDistance r.closer search.responded } := ⟨h.pinned,hheld⟩
      exact autoQuery_ok hanswered fromDistance

theorem deleteOwn_foldl (own : ContactList) (s : Shared)
    (hfree : ∀ c∈own,s.uses c.ref=0) :
    own.foldl (fun s c => if s.inUse c then s else s.delete c) s =
      { s with freed := s.freed++own.map fun c => (c, 0) } := by
  induction own generalizing s with
  | nil => simp
  | cons c own ih =>
    obtain ⟨hfirst,hrest⟩ := List.forall_mem_cons.mp hfree
    rw [List.foldl_cons,if_neg (by simp [Shared.inUse,hfirst]),ih (s.delete c) hrest]
    simp [Shared.delete,hfirst]

theorem SearchOk.of_objects (h : SearchOk cs search)
    (hstay : ∀ c∈cs,c.ref∈search.inUse.map Prod.snd → c.object∈cs'.map Contact.object) :
    SearchOk cs' search := by
  refine ⟨⟨fun e he => ?_,h.pinned.keys⟩,h.held⟩
  obtain ⟨c,hc,rfl⟩ := h.pinned.entries e he
  obtain ⟨c',hc',hobject⟩ := List.mem_map.mp (hstay c hc (List.mem_map_of_mem he))
  injection hobject with href hid
  exact ⟨c',hc',by rw [href,hid]⟩

theorem pinned_refs_nodup {target : KadUInt128} {inUse : ContactMap}
    (h : Pinned cs target inUse) (hrefs : (cs.map Contact.ref).Nodup) :
    (inUse.map Prod.snd).Nodup := by
  refine List.Nodup.map_on (fun e he e' he' hsame => ?_) (List.Nodup.of_map _ h.keys)
  obtain ⟨c,hc,rfl⟩ := h.entries e he
  obtain ⟨d,hd,rfl⟩ := h.entries e' he'
  rw [List.inj_on_of_nodup_map hrefs hc hd hsame]

end Search

namespace KadState

open Search

variable {k : KadState} {target : KadUInt128} {ref : Nat} {search x : Search}

/-- How often the searches hold an object. -/
def pins (k : KadState) (ref : Nat) : Nat :=
  (k.searches.map fun x => (x.inUse.map Prod.snd).count ref).sum

theorem sum_count_eq_countP {xs : List Search} (ref : Nat)
    (honce : ∀ x∈xs,(x.inUse.map Prod.snd).Nodup) :
    (xs.map fun x => (x.inUse.map Prod.snd).count ref).sum =
      xs.countP fun x => decide (ref∈x.inUse.map Prod.snd) := by
  induction xs with
  | nil => rfl
  | cons x xs ih =>
    obtain ⟨hfirst,hrest⟩ := List.forall_mem_cons.mp honce
    rw [List.map_cons,List.sum_cons,ih hrest,hfirst.count,List.countP_cons,Nat.add_comm]
    simp only [decide_eq_true_eq]

/-- How often the searches own an object. -/
def owned (k : KadState) (ref : Nat) : Nat :=
  (k.searches.map fun x => (x.deleteList.map Contact.ref).count ref).sum

def inTree (k : KadState) (ref : Nat) : Nat := (k.table.zone.contacts.map Contact.ref).count ref

def freed (k : KadState) (ref : Nat) : Nat := (k.table.shared.freed.map (·.1.ref)).count ref

/-- Every use count is what the searches hold, and every object is in one place. -/
structure KadOk (k : KadState) : Prop where
  sound : RoutingTable.Sound k.table
  pinned : ∀ ref, k.table.shared.uses ref=k.pins ref
  objects : ∀ ref, k.owned ref+k.inTree ref+k.freed ref ≤
    if ref<k.table.nextRef then 1 else 0
  searches : ∀ x∈k.searches, SearchOk k.table.zone.contacts x
  unused : ∀ f∈k.table.shared.freed, f.2=0

theorem KadOk.ids (h : KadOk k) : (k.table.zone.contacts.map Contact.clientId).Nodup :=
  h.sound.consistent.distinct.ids

theorem KadOk.mem_tree (h : KadOk k) (hx : x∈k.searches)
    (href : ref∈x.inUse.map Prod.snd) : ref∈k.table.zone.contacts.map Contact.ref := by
  obtain ⟨e,he,rfl⟩ := List.mem_map.mp href
  obtain ⟨c,hc,rfl⟩ := (h.searches x hx).pinned.entries e he
  exact List.mem_map_of_mem hc

theorem KadOk.uses_pos (h : KadOk k) (hx : x∈k.searches)
    (href : ref∈x.inUse.map Prod.snd) : 0<k.table.shared.uses ref := by
  rw [h.pinned,pins]
  have hcount := List.count_pos_iff.mpr href
  exact Nat.lt_of_lt_of_le hcount (List.le_sum_of_mem (List.mem_map_of_mem hx))

theorem KadOk.uses_eq_zero (h : KadOk k) (href : ref∉k.table.zone.contacts.map Contact.ref) :
    k.table.shared.uses ref=0 := by
  rw [h.pinned,pins]
  refine List.sum_eq_zero fun n hn => ?_
  obtain ⟨x,hx,rfl⟩ := List.mem_map.mp hn
  exact List.count_eq_zero.mpr fun hmem => href (h.mem_tree hx hmem)

theorem kadOk_create (localKadId : KadUInt128) : KadOk (create localKadId) :=
  ⟨RoutingTable.sound_create localKadId,fun _ => rfl,fun _ => by
    simp [owned,inTree,freed,create,RoutingTable.create,Zone.contacts,Shared.empty],
    by simp [create],by simp [create,RoutingTable.create,Shared.empty]⟩

theorem table_ok (h : KadOk k) {t : RoutingTable} {come : List (Nat × KadUInt128)}
    {gone : ContactList} (hstep : RoutingTable.StepOk k.table t come gone)
    (hfree : ∀ c∈gone,k.table.shared.uses c.ref=0) : KadOk { k with table := t } := by
  have hfreed : t.shared.freed=k.table.shared.freed++gone.map fun c => (c, 0) := by
    rw [hstep.effect.freed]
    exact congrArg _ (List.map_congr_left fun c hc => by rw [hfree c hc])
  refine ⟨h.sound.of_step hstep,fun ref => ?_,fun ref => ?_,fun x hx => ?_,fun f hf => ?_⟩
  · rw [hstep.effect.uses]
    exact h.pinned ref
  · have hold := h.objects ref
    have hrefs := hstep.effect.refs.count_eq ref
    have hgone : freed { k with table := t } ref =
        k.freed ref+(gone.map Contact.ref).count ref := by
      rw [freed,freed,hfreed,List.map_append,List.count_append,List.map_map]
      rfl
    rw [hgone]
    rw [List.count_append,List.count_append] at hrefs
    unfold owned inTree at hold ⊢
    dsimp only
    rcases hstep.come with ⟨rfl,hnext⟩ | ⟨id,rfl,hnext⟩
    · rw [List.map_nil,List.count_nil] at hrefs
      rw [hnext]
      omega
    · rw [List.map_cons,List.map_nil,List.count_singleton] at hrefs
      simp only [beq_iff_eq] at hrefs
      rw [hnext]
      split_ifs at hold hrefs ⊢ <;> omega
  · refine (h.searches x hx).of_objects fun c hc hpinned => ?_
    have hmem := hstep.effect.objects.mem_iff.mpr
      (List.mem_append_right come (List.mem_map_of_mem hc))
    rcases List.mem_append.mp hmem with hstays | hgone
    · exact hstays
    · obtain ⟨d,hd,hobject⟩ := List.mem_map.mp hgone
      injection hobject with href
      have hpos := h.uses_pos hx hpinned
      have hzero := hfree d hd
      rw [href] at hzero
      omega
  · rw [hfreed] at hf
    rcases List.mem_append.mp hf with hf | hf
    · exact h.unused f hf
    · obtain ⟨c,-,rfl⟩ := List.mem_map.mp hf
      rfl

theorem uses_nextRef (h : KadOk k) : k.table.shared.uses k.table.nextRef=0 :=
  h.uses_eq_zero fun hmem => Nat.lt_irrefl _ (h.sound.fresh _ hmem)

theorem spared_ok (h : KadOk k) {t : RoutingTable} (hstep : ∃ come gone,
    RoutingTable.StepOk k.table t come gone ∧ RoutingTable.Spared k.table gone) :
    KadOk { k with table := t } := by
  obtain ⟨come,gone,hok,hspared⟩ := hstep
  refine table_ok h hok fun c hc => ?_
  rcases hspared c hc with hunused | hnew
  · simpa [Shared.inUse] using hunused
  · rw [hnew]
    exact uses_nextRef h

theorem put_ok (h : KadOk k) {n : Nat} (hn : k.table.nextRef≤n) {r : Search × Shared}
    (hsearch : SearchOk k.table.zone.contacts r.1)
    (huses : ∀ ref,r.2.uses ref +
        (k.find? r.1.target).elim 0 (fun x => (x.inUse.map Prod.snd).count ref) =
      k.pins ref+(r.1.inUse.map Prod.snd).count ref)
    (howned : ∀ ref,(r.1.deleteList.map Contact.ref).count ref ≤
      (k.find? r.1.target).elim 0 (fun x => (x.deleteList.map Contact.ref).count ref) +
        if k.table.nextRef≤ref ∧ ref<n then 1 else 0)
    (htracking : r.2.tracking=k.table.shared.tracking)
    (hfreed : r.2.freed=k.table.shared.freed) :
    KadOk (put { k with table := { k.table with nextRef := n } } r) := by
  refine ⟨⟨?_,h.sound.ok,fun ref href => Nat.lt_of_lt_of_le (h.sound.fresh ref href) hn⟩,
    fun ref => ?_,fun ref => ?_,fun x hx => ?_,fun f hf => ?_⟩
  · have hconsistent := h.sound.consistent
    rw [← htracking] at hconsistent
    exact hconsistent
  · have hsum := @upsert_sum _ _ _ Search.target r.1.target (fun _ => r.1)
      k.searches fun x => (x.inUse.map Prod.snd).count ref
    have hpins := huses ref
    unfold pins find? at hpins
    unfold pins put
    dsimp only
    omega
  · have hsum := @upsert_sum _ _ _ Search.target r.1.target (fun _ => r.1)
      k.searches fun x => (x.deleteList.map Contact.ref).count ref
    have hold := h.objects ref
    have hown := howned ref
    unfold find? at hown
    unfold owned inTree freed at hold
    unfold owned inTree freed put
    dsimp only
    rw [hfreed]
    split_ifs at hold hown ⊢ <;> omega
  · rcases mem_upsert hx with rfl | hx
    · exact hsearch
    · exact h.searches x hx
  · have hf' : f∈k.table.shared.freed := hfreed ▸ hf
    exact h.unused f hf'

theorem find?_spec (hfind : k.find? target=some search) :
    search∈k.searches ∧ search.target=target := lookupKey_mem hfind

theorem count_le_pins (hfind : k.find? target=some search) (ref : Nat) :
    (search.inUse.map Prod.snd).count ref≤k.pins ref := by
  have hle := @lookupKey_le _ _ _ Search.target target k.searches
    fun x => (x.inUse.map Prod.snd).count ref
  unfold find? at hfind
  rwa [hfind] at hle

theorem served_ok (h : KadOk k) (hfind : k.find? target=some search) {r : Search × Shared}
    (hserved : Served k.table.zone.contacts
      (fun ref => k.pins ref-(search.inUse.map Prod.snd).count ref) search k.table.shared r) :
    KadOk (k.put r) := by
  have htarget : k.find? r.1.target=some search := by
    rw [hserved.target,(find?_spec hfind).2,hfind]
  refine put_ok h (Nat.le_refl _) hserved.ok (fun ref => ?_) (fun ref => ?_) hserved.tracking
    hserved.freed
  · have hle := count_le_pins hfind ref
    rw [htarget,Option.elim_some,hserved.uses]
    omega
  · rw [htarget,Option.elim_some,hserved.deleteList]
    exact Nat.le_add_right _ _

theorem listed_refs (target : KadUInt128) (now : Int) (n : Nat) (results : List Announced) :
    (listed target now n results).map Contact.ref=List.range' n results.length := by
  induction results generalizing n with
  | nil => rfl
  | cons a results ih =>
    rw [listed,List.map_cons,ih,List.length_cons,List.range'_succ]
    rfl

theorem listed_count (target : KadUInt128) (now : Int) (n : Nat) (results : List Announced)
    (ref : Nat) : ((listed target now n results).map Contact.ref).count ref =
      if n≤ref ∧ ref<n+results.length then 1 else 0 := by
  rw [listed_refs,List.Nodup.count (List.nodup_range' ..)]
  simp [List.mem_range'_1]

theorem search_ok (h : KadOk k) (hfind : k.find? target=some search) :
    SearchOk k.table.zone.contacts search := h.searches search (find?_spec hfind).1

theorem startSearch_ok (h : KadOk k) (hfind : k.find? target=none) (type : SearchType) :
    KadOk (k.put ((Search.create type target).start k.table.localKadId k.table.zone
      k.table.shared)) := by
  have hserved := @start_served k.table.localKadId target k.table.shared k.table.zone
    k.pins h.ids type h.pinned
  have htarget : k.find? ((Search.create type target).start k.table.localKadId k.table.zone
      k.table.shared).1.target=none := by rw [hserved.target]; exact hfind
  refine put_ok h (Nat.le_refl _) hserved.ok (fun ref => ?_) (fun ref => ?_) hserved.tracking
    hserved.freed
  · rw [htarget,Option.elim_none,hserved.uses,Nat.add_zero]
  · rw [htarget,hserved.deleteList]
    exact Nat.zero_le _

theorem go_ok (h : KadOk k) (hfind : k.find? target=some search) (maxToSend : Nat) :
    KadOk (k.put (search.go k.table.localKadId k.table.zone k.table.shared maxToSend)) := by
  refine served_ok h hfind (go_served h.ids (search_ok h hfind) (fun ref => ?_) _ _)
  have hle := count_le_pins hfind ref
  rw [h.pinned]
  omega

theorem prepareToStop_ok (h : KadOk k) (hfind : k.find? target=some search) :
    KadOk (k.put ({ search with stopping := true }, k.table.shared)) := by
  have hok := search_ok h hfind
  refine served_ok h hfind ⟨⟨hok.pinned,hok.held⟩,fun ref => ?_,rfl,rfl,rfl,rfl⟩
  have hle := count_le_pins hfind ref
  have huses := h.pinned ref
  dsimp only
  omega

theorem processResponse_ok (h : KadOk k) (hfind : k.find? target=some search) (fromIP : UInt32)
    (sender : Option KadUInt128) (refused : Bool) (results : List Announced) (now : Int) :
    KadOk (put { k with
        table := { k.table with nextRef := k.table.nextRef+results.length } }
      (search.processResponse fromIP sender refused (listed target now k.table.nextRef results),
        k.table.shared)) := by
  obtain ⟨hok,htarget,hinUse,hdelete⟩ := processResponse_spec (search_ok h hfind) fromIP
    sender refused (listed target now k.table.nextRef results)
  have hfind' : k.find? (search.processResponse fromIP sender refused
      (listed target now k.table.nextRef results)).target=some search := by
    rw [htarget,(find?_spec hfind).2,hfind]
  refine put_ok h (Nat.le_add_right _ _) hok (fun ref => ?_) (fun ref => ?_) rfl rfl
  · rw [hfind',hinUse,h.pinned,Option.elim_some]
  · rw [hfind',hdelete,List.map_append,List.count_append,listed_count,Option.elim_some]

theorem owned_free (h : KadOk k) (hfind : k.find? target=some search) {c : Contact}
    (hc : c∈search.deleteList) : k.table.shared.uses c.ref=0 := by
  have hle := @lookupKey_le _ _ _ Search.target target k.searches
    fun x => (x.deleteList.map Contact.ref).count c.ref
  have hobjects := h.objects c.ref
  unfold find? at hfind
  rw [hfind,Option.elim_some] at hle
  have hcount : 0<(search.deleteList.map Contact.ref).count c.ref :=
    List.count_pos_iff.mpr (List.mem_map_of_mem hc)
  refine h.uses_eq_zero fun hmem => ?_
  have htree := List.count_pos_iff.mpr hmem
  unfold owned inTree at hobjects
  split_ifs at hobjects <;> omega

theorem deleteSearch_ok (h : KadOk k) (hfind : k.find? target=some search) :
    KadOk { table := { k.table with shared := search.destroy k.table.shared }
            searches := k.searches.eraseP fun x => decide (x.target=target) } := by
  obtain ⟨huses,htracking,hfreed⟩ := Lent.decUse_foldl search.inUse k.table.shared
  have hdestroy := deleteOwn_foldl search.deleteList
    (search.inUse.foldl (fun s e => s.decUse e.2) k.table.shared) fun c hc => by
      rw [huses,owned_free h hfind hc,Nat.zero_sub]
  have hshared : search.destroy k.table.shared=_ := hdestroy
  rw [hshared]
  rw [hfreed]
  have hfound : k.searches.find? (fun x => decide (x.target=target))=some search := hfind
  refine ⟨⟨?_,h.sound.ok,h.sound.fresh⟩,fun ref => ?_,fun ref => ?_,
    fun x hx => h.searches x (List.mem_of_mem_eraseP hx),fun f hf => ?_⟩
  · have hconsistent := h.sound.consistent
    rw [← htracking] at hconsistent
    exact hconsistent
  · have hsum := @eraseP_sum _ k.searches (fun x => decide (x.target=target))
      fun x => (x.inUse.map Prod.snd).count ref
    rw [hfound,Option.elim_some] at hsum
    have hpins := h.pinned ref
    unfold pins at hpins ⊢
    dsimp only
    rw [huses]
    omega
  · have hsum := @eraseP_sum _ k.searches (fun x => decide (x.target=target))
      fun x => (x.deleteList.map Contact.ref).count ref
    rw [hfound,Option.elim_some] at hsum
    have hold := h.objects ref
    unfold owned inTree freed at hold ⊢
    dsimp only
    rw [List.map_append,List.count_append,List.map_map]
    change _ + _ + (_ + (search.deleteList.map Contact.ref).count ref)≤_
    omega
  · rcases List.mem_append.mp hf with hf | hf
    · exact h.unused f hf
    · obtain ⟨c,-,rfl⟩ := List.mem_map.mp hf
      rfl

/-- A consolidation puts nobody out whom a search holds. -/
def PutsOutUnused (k : KadState) : Op → Prop
  | .table .consolidate => ∀ c∈k.table.zone.pressed, k.table.shared.uses c.ref=0
  | _ => True

theorem step_ok (h : KadOk k) {op : Op} (hop : PutsOutUnused k op) : KadOk (k.step op) := by
  cases op with
  | table op =>
    by_cases hconsolidate : op = .consolidate
    · subst hconsolidate
      obtain ⟨gone,hgone,hstep⟩ := RoutingTable.consolidate_ok h.sound
      exact table_ok h hstep fun c hc => hop c (hgone.mem_iff.mp hc)
    · exact spared_ok h (RoutingTable.step_ok h.sound hconsolidate)
  | startSearch type target =>
    unfold step
    dsimp only
    cases hfind : k.find? target with
    | some _ => exact h
    | none => exact startSearch_ok h hfind type
  | go target maxToSend =>
    unfold step
    dsimp only
    cases hfind : k.find? target with
    | some search => exact go_ok h hfind maxToSend
    | none => exact h
  | prepareToStop target =>
    unfold step
    dsimp only
    cases hfind : k.find? target with
    | some search => exact prepareToStop_ok h hfind
    | none => exact h
  | processResponse target fromIP sender refused results now =>
    unfold step
    dsimp only
    cases hfind : k.find? target with
    | some search => exact processResponse_ok h hfind fromIP sender refused results now
    | none => exact h
  | deleteSearch target =>
    unfold step
    dsimp only
    cases hfind : k.find? target with
    | some search => exact deleteSearch_ok h hfind
    | none => exact h

/-- A contact of the tree is used once by each search that pinned it, nothing is freed in use, and
no search points to what is freed. -/
structure Safe (k : KadState) : Prop where
  uses : ∀ ref, k.table.shared.uses ref =
    k.searches.countP fun x => decide (ref ∈ x.inUse.map Prod.snd)
  once : ∀ x ∈ k.searches, (x.inUse.map Prod.snd).Nodup
  inTree : ∀ x ∈ k.searches, ∀ ref ∈ x.inUse.map Prod.snd,
    ref ∈ k.table.zone.contacts.map Contact.ref
  unused : ∀ f ∈ k.table.shared.freed, f.2 = 0
  live : ∀ x ∈ k.searches, ∀ e, x.PointsTo e ∨ e ∈ x.inUse →
    e.2 ∉ k.table.shared.freed.map (·.1.ref)

theorem KadOk.safe (h : KadOk k) : Safe k := by
  have honce : ∀ x∈k.searches,(x.inUse.map Prod.snd).Nodup := fun x hx =>
    pinned_refs_nodup (h.searches x hx).pinned h.sound.consistent.distinct.refs
  refine ⟨fun ref => ?_,honce,fun x hx ref href => h.mem_tree hx href,h.unused,
    fun x hx e he hmem => ?_⟩
  · rw [h.pinned]
    exact sum_count_eq_countP ref honce
  · have hobjects := h.objects e.2
    have hfreed : 0<k.freed e.2 := List.count_pos_iff.mpr hmem
    have hheld : e.2∈x.inUse.map Prod.snd ∨ e.2∈x.deleteList.map Contact.ref :=
      he.elim ((h.searches x hx).held e) fun he => Or.inl (List.mem_map_of_mem he)
    rcases hheld with hpinned | howned
    · have htree : 0<k.inTree e.2 := List.count_pos_iff.mpr (h.mem_tree hx hpinned)
      split_ifs at hobjects <;> omega
    · have hcount := List.count_pos_iff.mpr howned
      have hle : _ ≤ k.owned e.2 := List.le_sum_of_mem (List.mem_map_of_mem
        (f := fun x => (x.deleteList.map Contact.ref).count e.2) hx)
      split_ifs at hobjects <;> omega

/-- While no consolidation puts out whom a search holds, every run is safe. -/
theorem searches_correct (localKadId : KadUInt128) (ops : List Op)
    (h : Along step PutsOutUnused (create localKadId) ops) :
    Safe (run step (create localKadId) ops) := by
  have hstep : ∀ k op,KadOk k → PutsOutUnused k op → KadOk (step k op) :=
    fun _ _ h hop => step_ok h hop
  exact (run_invariant hstep (kadOk_create localKadId) h).safe

def addVerified (id : Nat) (ip : UInt32) : Op :=
  .table (.addUnfiltered ⟨BitVec.ofNat 128 id,ip,4672,4662,8,⟨0,0⟩,true⟩
    ⟨true,fun _ => false,0x01010101,1000⟩ false false)

theorem searches_correct_search : Safe (run step (create 0)
    [addVerified 1 0x50000001, .startSearch .file 5, .table .consolidate, .deleteSearch 5]) :=
  searches_correct 0 _ ⟨trivial,trivial,fun _ hc => absurd hc (List.not_mem_nil),trivial,
    trivial⟩

/-- Two contacts of a /24 on the one side of the root and a third on the other; the rest of the
contacts that made the root split are banned, and a search pins the three. -/
def crowdedRun : List Op :=
  [addVerified 1 0x50000001,addVerified 2 0x50000002] ++
    (List.range 4).map (fun i => addVerified (3+i) (0x51000001+UInt32.ofNat (i*65536))) ++
    (List.range 4).map (fun i =>
      addVerified (2^127+i) (0x61000001+UInt32.ofNat (i*65536))) ++
    [addVerified (2^127+100) 0x50000003,
      .table (.onSmallTimer [false] false (fun ip => decide (0x51000000 ≤ ip)) 2000),
      .table (.onSmallTimer [true] false (fun ip => decide (0x51000000 ≤ ip)) 2000),
      .startSearch .file 5,.table .consolidate]

theorem not_searches_safe : ¬ ∀ localKadId ops, Safe (run step (create localKadId) ops) := by
  intro h
  have hused : (run step (create 0) crowdedRun).table.shared.freed.map Prod.snd =
      [0,0,0,0,0,0,0,0,1] := by decide +kernel
  have hlast : 1∈(run step (create 0) crowdedRun).table.shared.freed.map Prod.snd := by
    rw [hused]
    decide
  obtain ⟨f,hf,hone⟩ := List.mem_map.mp hlast
  have hzero := (h 0 crowdedRun).unused f hf
  omega

end KadState

end EmuleQt.Kademlia
