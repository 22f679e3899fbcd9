import EmuleQt.Kademlia.AICHReports

namespace EmuleQt.Kademlia

open Crypto Framework Math Net Protocol Utils

/-- The records are right about what their publishers reported last. -/
structure Told (last : Address → Option AICHHash) (a : AICHHashes) (ips : List PublishingIP) :
    Prop where
  reports : ∀ p ∈ ips, Reports a p.aichHashIdx (last p.ip)
  distinct : (ips.map PublishingIP.ip).Nodup
  hostOrder : ∀ p ∈ ips, Address.fromHostOrder p.ip.toUint32 = p.ip

/-- And the hashes count them, who are a hundred at most. -/
structure Records (last : Address → Option AICHHash) (a : AICHHashes) (ips : List PublishingIP) :
    Prop extends Told last a ips where
  cap : ips.length ≤ kMaxPublishers
  refs : Refs a (ips.map PublishingIP.aichHashIdx)

section Records

variable {last : Address → Option AICHHash} {a b : AICHHashes} {ips kept : List PublishingIP}

theorem Told.perm (h : Told last a ips) (hperm : ips.Perm kept) : Told last a kept :=
  ⟨fun p hp => h.reports p (hperm.mem_iff.mpr hp),(hperm.map _).nodup_iff.mp h.distinct,
    fun p hp => h.hostOrder p (hperm.mem_iff.mpr hp)⟩

theorem Told.sublist (h : Told last a ips) (hsub : kept.Sublist ips) (hext : Extends a b) :
    Told last b kept :=
  ⟨fun p hp => (h.reports p (hsub.subset hp)).extends hext,h.distinct.sublist (hsub.map _),
    fun p hp => h.hostOrder p (hsub.subset hp)⟩

theorem Told.snoc {p : PublishingIP} {reported : Option AICHHash} (h : Told last a ips)
    (hext : Extends a b) (hreported : Reports b p.aichHashIdx reported)
    (hnew : p.ip∉ips.map PublishingIP.ip)
    (horder : Address.fromHostOrder p.ip.toUint32=p.ip) :
    Told (Function.update last p.ip reported) b (ips++[p]) := by
  refine ⟨fun q hq => ?_,?_,fun q hq => ?_⟩
  · rcases List.mem_append.mp hq with hq | hq
    · have hne : q.ip≠p.ip := fun heq => hnew (heq ▸ List.mem_map_of_mem hq)
      rw [Function.update_of_ne hne]
      exact (h.reports q hq).extends hext
    · rw [List.mem_singleton.mp hq,Function.update_self]
      exact hreported
  · rw [List.map_append,List.map_singleton]
    exact (List.perm_append_singleton p.ip _).nodup_iff.mpr (List.nodup_cons.mpr ⟨hnew,h.distinct⟩)
  · rcases List.mem_append.mp hq with hq | hq
    · exact h.hostOrder q hq
    · rw [List.mem_singleton.mp hq]
      exact horder

theorem find?_perm_eraseP {α : Type} {p : α → Bool} {xs : List α} {x : α}
    (h : xs.find? p=some x) : xs.Perm (x::xs.eraseP p) := by
  induction xs with
  | nil => simp at h
  | cons y xs ih =>
    rw [List.find?_cons] at h
    cases hy : p y with
    | true =>
      rw [hy] at h
      rw [List.eraseP_cons_of_pos hy,Option.some.inj h]
    | false =>
      rw [hy] at h
      rw [List.eraseP_cons_of_neg (by simp [hy])]
      exact ((ih h).cons y).trans (List.Perm.swap x y _)

theorem Records.refresh (h : Records last a ips) {address : Address} {cur : PublishingIP}
    (hcur : ips.find? (fun p => decide (p.ip=address))=some cur) (reported : Option AICHHash)
    (hroom : ∀ hash,reported=some hash →
      hash.bytes∈a.aichHashes ∨ a.aichHashes.length<0xFFFF) (now : Nat) :
    let r := a.report cur.aichHashIdx ((reported.map (·.bytes)).getD [])
    Records (Function.update last address reported) r.2
      (ips.eraseP (fun p => decide (p.ip=address)) ++
        [{ cur with lastPublish := now, aichHashIdx := r.1 }]) := by
  have hip : cur.ip=address := by simpa using List.find?_some hcur
  have hperm := find?_perm_eraseP hcur
  have htold := h.toTold.perm hperm
  have hrefs := h.refs.perm (hperm.map _)
  have hcap := hperm.length_eq ▸ h.cap
  generalize ips.eraseP (fun p => decide (p.ip=address))=rest at htold hrefs hcap ⊢
  have hmax : kMaxPublishers=100 := rfl
  have hdistinct := htold.distinct
  rw [List.length_cons] at hcap
  rw [List.map_cons,List.nodup_cons] at hdistinct
  obtain ⟨hrefs',hreports,hext⟩ := hrefs.report reported hroom (by rw [List.length_map]; omega)
  generalize a.report cur.aichHashIdx ((reported.map (·.bytes)).getD [])=r at hrefs' hreports hext
  subst hip
  have hothers := htold.sublist (List.sublist_cons_self cur rest) (List.prefix_refl _)
  refine ⟨hothers.snoc (p := { cur with lastPublish := now, aichHashIdx := r.1 }) hext hreports
    hdistinct.1 (htold.hostOrder cur List.mem_cons_self),?_,?_⟩
  · rw [List.length_append,List.length_singleton]
    exact hcap
  · rw [List.map_append,List.map_singleton]
    exact hrefs'.perm (List.perm_append_singleton _ _).symm

theorem Records.record (h : Records last a ips) {address : Address}
    (hnew : address∉ips.map PublishingIP.ip)
    (horder : Address.fromHostOrder address.toUint32=address) (reported : Option AICHHash)
    (hroom : ∀ hash,reported=some hash →
      hash.bytes∈a.aichHashes ∨ a.aichHashes.length<0xFFFF) (now : Nat) {e : KeyEntry}
    (haddress : e.address=address) (hhashes : e.toAICHHashes=a) (g : Tracking) :
    let r := (e.recordPublisher ips ((reported.map (·.bytes)).getD []) now g).1
    ∃ kept, r.publishingIPs=some kept ∧
      Records (Function.update last address reported) r.toAICHHashes kept := by
  have hmax : kMaxPublishers=100 := rfl
  have hcap := h.cap
  obtain ⟨hrefs,hreports,hext⟩ := h.refs.join reported hroom (by rw [List.length_map]; omega)
  unfold KeyEntry.recordPublisher
  rw [hhashes,haddress]
  dsimp only at hrefs hreports hext ⊢
  generalize (if (reported.map (·.bytes)).getD []=[] then (kNoAICHHash, a)
    else a.addRemoveAICHHash ((reported.map (·.bytes)).getD []) true)=r at hrefs hreports hext ⊢
  have htold := h.toTold.snoc (p := ⟨now,address,r.1⟩) hext hreports hnew horder
  have hall : Refs r.2 ((ips++[(⟨now,address,r.1⟩ : PublishingIP)]).map
      PublishingIP.aichHashIdx) := by
    rw [List.map_append,List.map_singleton]
    exact hrefs.perm (List.perm_append_singleton _ _).symm
  have hlength : (ips++[(⟨now,address,r.1⟩ : PublishingIP)]).length=ips.length+1 := by
    rw [List.length_append,List.length_singleton]
  generalize ips++[(⟨now,address,r.1⟩ : PublishingIP)]=ips' at htold hall hlength ⊢
  cases ips' with
  | nil => exact ⟨[],rfl,htold,by simp,hall⟩
  | cons oldest rest =>
    rw [List.length_cons] at hlength
    dsimp only
    split_ifs with hfull
    · rw [List.map_cons] at hall
      obtain ⟨hreleased,hsame⟩ := hall.release
      exact ⟨rest,rfl,htold.sublist (List.sublist_cons_self oldest rest) (Extends.of_eq hsame),
        by omega,hreleased⟩
    · rw [List.length_cons] at hfull
      exact ⟨oldest::rest,rfl,htold,by rw [List.length_cons]; omega,hall⟩

theorem sweep_refs (now : Nat) {others : List UInt16} {s : AICHHashes × Tracking}
    (h : Refs s.1 (ips.map PublishingIP.aichHashIdx++others)) :
    let r := sweep (KeyEntry.visitPublisher now) ips s
    Refs r.2.1 (r.1.map PublishingIP.aichHashIdx++others) ∧
      r.2.1.aichHashes=s.1.aichHashes := by
  induction ips generalizing others s with
  | nil => exact ⟨h,rfl⟩
  | cons p ips ih =>
    rw [sweep]
    dsimp only
    unfold KeyEntry.visitPublisher
    by_cases hexpired : p.expired now=true
    · rw [if_pos hexpired]
      obtain ⟨hreleased,hsame⟩ := h.release
      obtain ⟨hrest,hrest'⟩ := ih
        (s := (s.1.release p.aichHashIdx, adjustGlobalPublishTracking s.2 p.ip false)) hreleased
      exact ⟨hrest,hrest'.trans hsame⟩
    · rw [if_neg hexpired]
      obtain ⟨hrest,hrest'⟩ := ih (h.perm List.perm_middle.symm)
      refine ⟨?_,hrest'⟩
      exact hrest.perm List.perm_middle

theorem Records.cleanUp (h : Records last a ips) (now : Nat) (g : Tracking) :
    Records last (sweep (KeyEntry.visitPublisher now) ips (a, g)).2.1
      (sweep (KeyEntry.visitPublisher now) ips (a, g)).1 := by
  have hsub : (sweep (KeyEntry.visitPublisher now) ips (a, g)).1.Sublist ips := by
    refine sweep_sublist fun p _ s => ?_
    unfold KeyEntry.visitPublisher
    split_ifs
    · exact Or.inl rfl
    · exact Or.inr rfl
  have hrefs : Refs a (ips.map PublishingIP.aichHashIdx++[]) := by
    rw [List.append_nil]
    exact h.refs
  obtain ⟨hswept,hsame⟩ := sweep_refs (s := (a, g)) now hrefs
  rw [List.append_nil] at hswept
  exact ⟨h.toTold.sublist hsub (Extends.of_eq hsame),hsub.length_le.trans h.cap,hswept⟩

theorem records_nil (last : Address → Option AICHHash) : Records last ⟨[],[]⟩ [] :=
  ⟨⟨by simp,by simp,by simp⟩,by simp,by simp,by simp,by simp,by simp,by simp,by simp⟩

end Records

/-- An entry with all it keeps about its publishers. -/
def Tracked (last : Address → Option AICHHash) (e : KeyEntry) : Prop :=
  ∃ ips, e.publishingIPs = some ips ∧ Records last e.toAICHHashes ips ∧
    e.fileNames.length ≤ KADEMLIAMAXFILENAMESPERKEY

section Merge

variable {last : Address → Option AICHHash} (lower : QString → QString) (now : Nat)

/-- A publish keeps what is known of the publishers and adds its own report. -/
theorem mergeIPsAndFilenames_tracked {e : KeyEntry} {old : Option KeyEntry} {ip : UInt32}
    {reported : Option AICHHash} (haddress : e.address=Address.fromHostOrder ip)
    (hips : e.publishingIPs=none) (hhashes : e.toAICHHashes=freshHashes reported)
    (hnames : OneName e.fileNames) (hold : ∀ o,old=some o → Tracked last o)
    (hroom : ∀ o,old=some o → ∀ hash,reported=some hash →
      hash.bytes∈o.aichHashes ∨ o.aichHashes.length<0xFFFF) (g : Tracking) :
    Tracked (Function.update last (Address.fromHostOrder ip) reported)
      (e.mergeIPsAndFilenames lower now old g).1 := by
  have hfew : e.fileNames.length≤KADEMLIAMAXFILENAMESPERKEY := by
    rcases hnames with h | ⟨name,-,h⟩ <;> rw [h] <;> simp [KADEMLIAMAXFILENAMESPERKEY]
  have hreported : e.aichHashes.headD []=(reported.map (·.bytes)).getD [] := by
    rw [hhashes]
    cases reported <;> rfl
  have horder : Address.fromHostOrder (Address.fromHostOrder ip).toUint32 =
      Address.fromHostOrder ip := by rw [Address.toUint32_fromHostOrder]
  unfold KeyEntry.mergeIPsAndFilenames
  rw [hips,if_neg (by decide),hreported]
  cases old with
  | none =>
    obtain ⟨kept,hkept,hrecords⟩ := (records_nil last).record (by simp) horder reported
      (fun _ _ => Or.inr (by decide)) now
      (e := { e with aichHashes := [], aichHashPopularity := [] }) haddress rfl g
    refine ⟨kept,hkept,hrecords,?_⟩
    exact hfew
  | some o =>
    obtain ⟨ips,hips',hrecords,hcap⟩ := hold o rfl
    have hroom' := hroom o rfl
    dsimp only [Option.bind_some]
    rw [hips']
    dsimp only
    cases hfind : ips.find? fun p => decide (p.ip=e.address) with
    | some cur =>
      rw [haddress] at hfind
      have hrefreshed := hrecords.refresh hfind reported hroom' now
      refine ⟨_,rfl,?_,mergeFileNames_length lower _ _ hcap⟩
      unfold KeyEntry.refreshPublisher
      rw [← haddress] at hrefreshed ⊢
      exact hrefreshed
    | none =>
      have hnew : Address.fromHostOrder ip∉ips.map PublishingIP.ip := by
        rw [List.find?_eq_none] at hfind
        intro hmem
        obtain ⟨p,hp,hip⟩ := List.mem_map.mp hmem
        exact hfind p hp (by rw [haddress]; exact decide_eq_true hip)
      obtain ⟨kept,hkept,hrecords'⟩ := hrecords.record hnew horder reported hroom' now
        (e := { e with
          toAICHHashes := o.toAICHHashes
          fileNames := mergeFileNames lower false e.fileNames o.fileNames }) haddress rfl g
      refine ⟨kept,hkept,hrecords',?_⟩
      rw [recordPublisher_toEntry]
      exact mergeFileNames_length lower _ _ hcap

end Merge

section Reload

variable {a : AICHHashes} {idxs : List UInt16} {ips : List PublishingIP}

theorem writtenHashes_sublist {hashes : List (List UInt8)} (newIndex : List UInt16)
    (hsize : ∀ hash∈hashes,hash.length=kAICHHashSize) :
    (writtenHashes hashes newIndex).Sublist hashes := by
  induction hashes generalizing newIndex with
  | nil => simp [writtenHashes]
  | cons hash hashes ih =>
    obtain ⟨hhash,hrest⟩ := List.forall_mem_cons.mp hsize
    cases newIndex with
    | nil => simp [writtenHashes]
    | cons idx newIndex =>
      have hresize : resizeHash hash=hash := by
        rw [resizeHash,List.take_left' hhash]
      rw [writtenHashes,hresize]
      split_ifs
      · exact (ih newIndex hrest).cons_cons hash
      · exact (ih newIndex hrest).cons hash

theorem renumber_length (next : Nat) (flags : List Bool) :
    (renumber next flags).length=flags.length := by
  induction flags generalizing next with
  | nil => rfl
  | cons popular flags ih =>
    rw [renumber]
    split_ifs <;> rw [List.length_cons,List.length_cons,ih]

/-- The new index of a publisher's hash. -/
def newIndexOf (a : AICHHashes) (idx : UInt16) : UInt16 :=
  (renumber 0 (popularFlags a.aichHashes a.aichHashPopularity))[idx.toNat]?.getD kNoAICHHash

/-- The hashes the file holds. -/
def savedHashes (a : AICHHashes) : List (List UInt8) :=
  writtenHashes a.aichHashes (renumber 0 (popularFlags a.aichHashes a.aichHashPopularity))

theorem flags_count_le (h : Refs a idxs) :
    (popularFlags a.aichHashes a.aichHashPopularity).count true≤0xFFFF := by
  have hlength := @List.count_le_length _ _ true (popularFlags a.aichHashes a.aichHashPopularity)
  rw [popularFlags_length] at hlength
  exact hlength.trans h.room

theorem newIndexOf_cases (h : Refs a idxs) {idx : UInt16} (hmem : idx∈idxs) :
    (idx=kNoAICHHash ∧ newIndexOf a idx=kNoAICHHash) ∨
      (idx≠kNoAICHHash ∧ newIndexOf a idx≠kNoAICHHash ∧
        (savedHashes a)[(newIndexOf a idx).toNat]? = a.aichHashes[idx.toNat]? ∧
        (newIndexOf a idx).toNat<(savedHashes a).length) := by
  have hcount := flags_count_le h
  have hlengths := popularFlags_length a.aichHashes a.aichHashPopularity
  unfold newIndexOf savedHashes
  by_cases hnone : idx=kNoAICHHash
  · refine Or.inl ⟨hnone,?_⟩
    have hout : (renumber 0 (popularFlags a.aichHashes a.aichHashPopularity)).length ≤ idx.toNat := by
      have hvalue : kNoAICHHash.toNat=0xFFFF := rfl
      rw [renumber_length,hlengths,hnone,hvalue]
      exact h.room
    rw [List.getElem?_eq_none hout]
    rfl
  · have hidx := (h.valid idx hmem).resolve_left hnone
    have hpointing : 0<pointing idxs idx.toNat := List.countP_pos_iff.mpr ⟨idx,hmem,by simp⟩
    obtain ⟨n,hn,hvalue⟩ := Option.map_eq_some_iff.mp (h.counts idx.toNat hidx)
    have hpos : n>0 := UInt8.lt_iff_toNat_lt.mpr (hvalue ▸ hpointing)
    have hflag := popularFlags_get hidx hn
    rw [decide_eq_true hpos] at hflag
    have hget := List.getElem?_eq_getElem hidx
    have hroom : 0+(popularFlags a.aichHashes a.aichHashPopularity).count true≤0xFFFF := by
      omega
    obtain ⟨j,hnew,hj,hsaved⟩ := writtenHashes_get hlengths.symm hroom hflag hget
    have hresize : resizeHash a.aichHashes[idx.toNat]=a.aichHashes[idx.toNat] := by
      rw [resizeHash,List.take_left' (h.size _ (List.getElem_mem hidx))]
    rw [Nat.zero_add] at hnew
    have hj' : (UInt16.ofNat j).toNat=j := UInt16.toNat_ofNat_of_lt' (by
      have hsize : UInt16.size=65536 := rfl
      omega)
    rw [hresize] at hsaved
    rw [hnew,Option.getD_some,hj',hget,hsaved]
    exact Or.inr ⟨hnone,ofNat_ne_none (by omega),rfl,(List.getElem?_eq_some_iff.mp hsaved).1⟩

theorem refs_saved (h : Refs a idxs) :
    Refs ⟨savedHashes a,(savedHashes a).map fun _ => 0⟩ [] := by
  have hsub : (savedHashes a).Sublist a.aichHashes := writtenHashes_sublist _ h.size
  refine ⟨h.nodup.sublist hsub,fun hash hmem => h.size hash (hsub.subset hmem),
    hsub.length_le.trans h.room,List.length_map _,by simp,fun i hi => ?_⟩
  rw [List.getElem?_map,List.getElem?_eq_getElem hi]
  rfl

theorem countIndex_refs (h : Refs a idxs) {idx : UInt16}
    (hvalid : idx=kNoAICHHash ∨ idx.toNat<a.aichHashes.length) (hfew : idxs.length<255) :
    (countIndex a idx).1=idx ∧ (countIndex a idx).2.aichHashes=a.aichHashes ∧
      Refs (countIndex a idx).2 (idx::idxs) := by
  unfold countIndex
  split_ifs with hnone hout
  · exact ⟨rfl,rfl,hnone ▸ h.cons_none⟩
  · have hidx := hvalid.resolve_left hnone
    omega
  · refine ⟨rfl,rfl,h.modify (List.forall_mem_cons.mpr ⟨hvalid,h.valid⟩) (fun n hn => ?_)
      (fun j hj => ?_)⟩
    · have hle := @pointing_le idxs idx.toNat
      rw [toNat_add_one (by omega),pointing_cons,if_pos rfl,hn]
    · rw [pointing_cons,if_neg (Ne.symm hj),Nat.add_zero]

theorem restorePublishers_refs (newIndex : List UInt16)
    (hvalid : ∀ p∈ips,newIndex[p.aichHashIdx.toNat]?.getD kNoAICHHash=kNoAICHHash ∨
      (newIndex[p.aichHashIdx.toNat]?.getD kNoAICHHash).toNat<a.aichHashes.length)
    (h : Refs a idxs) (hfew : ips.length+idxs.length≤255) :
    (restorePublishers newIndex ips a).1=ips.map (fun p =>
        ⟨p.lastPublish%2^32,Address.fromHostOrder p.ip.toUint32,
          newIndex[p.aichHashIdx.toNat]?.getD kNoAICHHash⟩) ∧
      (restorePublishers newIndex ips a).2.aichHashes=a.aichHashes ∧
      Refs (restorePublishers newIndex ips a).2
        ((restorePublishers newIndex ips a).1.map PublishingIP.aichHashIdx++idxs) := by
  induction ips generalizing a idxs with
  | nil => exact ⟨rfl,rfl,h⟩
  | cons p ips ih =>
    rw [List.length_cons] at hfew
    obtain ⟨hp,hrest⟩ := List.forall_mem_cons.mp hvalid
    obtain ⟨hidx,hsame,hcounted⟩ := countIndex_refs h hp (by omega)
    obtain ⟨hips,hhashes,hrefs⟩ := ih (by rw [hsame]; exact hrest) hcounted
      (by rw [List.length_cons]; omega)
    rw [restorePublishers]
    dsimp only
    refine ⟨by rw [hips,hidx,List.map_cons],hhashes.trans hsame,?_⟩
    rw [List.map_cons,hidx]
    exact hrefs.perm List.perm_middle

theorem restoreFileNames_length (names : List FileNameEntry) {kept : List FileNameEntry}
    (h : kept.length≤KADEMLIAMAXFILENAMESPERKEY) :
    (restoreFileNames names kept).length≤KADEMLIAMAXFILENAMESPERKEY := by
  induction names generalizing kept with
  | nil => exact h
  | cons n names ih => exact ih (addFileNameCapped_length h)

/-- The entry as the file brings it back. -/
theorem Tracked.reload {last : Address → Option AICHHash} {e : KeyEntry} (h : Tracked last e)
    (hnames : ∀ n∈e.fileNames,(QString.toUtf8 n.fileName).length<2^16)
    (rest : List UInt8) :
    ∃ aich names ips, readPublishTrackingData true (writePublishTrackingData e++rest) =
        .ok ((aich, names, ips), rest) ∧
      Tracked last { e with
        toAICHHashes := aich, fileNames := names, publishingIPs := some ips } := by
  obtain ⟨ips,hips,hrecords,hcap⟩ := h
  have hmaxNames : KADEMLIAMAXFILENAMESPERKEY=32 := rfl
  have hmax : kMaxPublishers=100 := rfl
  have hfew := hrecords.cap
  have hfits : Fits e := by
    refine ⟨flags_count_le hrecords.refs,hnames,by omega,?_⟩
    rw [hips,Option.getD_some]
    omega
  let newIndex := renumber 0 (popularFlags e.aichHashes e.aichHashPopularity)
  let blank : AICHHashes :=
    ⟨savedHashes e.toAICHHashes,(savedHashes e.toAICHHashes).map fun _ => 0⟩
  have hread : readPublishTrackingData true (writePublishTrackingData e++rest) =
      .ok (((restorePublishers newIndex ips blank).2, restoreFileNames e.fileNames [],
        (restorePublishers newIndex ips blank).1), rest) := by
    have hwritten := readPublishTrackingData_write hfits rest
    rw [hips,Option.getD_some] at hwritten
    exact hwritten
  have hindex : ∀ p∈ips,(newIndexOf e.toAICHHashes p.aichHashIdx=kNoAICHHash ∨
      (newIndexOf e.toAICHHashes p.aichHashIdx).toNat<(savedHashes e.toAICHHashes).length) := by
    intro p hp
    rcases newIndexOf_cases hrecords.refs (List.mem_map_of_mem hp) with ⟨-,hnone⟩ | ⟨-,-,-,hlt⟩
    · exact Or.inl hnone
    · exact Or.inr hlt
  obtain ⟨hrestored,hhashes,hrefs⟩ := restorePublishers_refs (a := blank) newIndex hindex
    (refs_saved hrecords.refs) (by rw [List.length_nil]; omega)
  rw [List.append_nil] at hrefs
  refine ⟨_,_,_,hread,_,rfl,⟨⟨?_,?_,?_⟩,?_,hrefs⟩,
    restoreFileNames_length e.fileNames (Nat.zero_le _)⟩
  all_goals rw [hrestored]
  · intro q hq
    obtain ⟨p,hp,rfl⟩ := List.mem_map.mp hq
    have hreports := hrecords.reports p hp
    dsimp only
    rw [hrecords.hostOrder p hp]
    rcases newIndexOf_cases hrecords.refs (List.mem_map_of_mem hp) with
      ⟨hnone,hnone'⟩ | ⟨hne,hne',hsaved,-⟩
    · cases hlast : last p.ip with
      | none => exact hnone'
      | some hash =>
        rw [hlast] at hreports
        exact absurd hnone hreports.1
    · cases hlast : last p.ip with
      | none =>
        rw [hlast] at hreports
        exact absurd hreports hne
      | some hash =>
        rw [hlast] at hreports
        refine ⟨hne',?_⟩
        rw [hhashes]
        exact hsaved.trans hreports.2
  · rw [List.map_map]
    have hsame : ips.map (PublishingIP.ip ∘ fun p => (⟨p.lastPublish%2^32,
        Address.fromHostOrder p.ip.toUint32,newIndexOf e.toAICHHashes p.aichHashIdx⟩ :
          PublishingIP))=ips.map PublishingIP.ip :=
      List.map_congr_left fun p hp => hrecords.hostOrder p hp
    exact hsame ▸ hrecords.distinct
  · intro q hq
    obtain ⟨p,hp,rfl⟩ := List.mem_map.mp hq
    rw [Address.toUint32_fromHostOrder]
  · rw [List.length_map]
    exact hfew

end Reload

/-- A stored keyword entry, if there is one, and the publishers counted for it. -/
structure StoredEntry where
  entry : Option KeyEntry
  globalPublishIPs : Tracking

/-- What can happen to one: a publish that is merged into it, an expiry, and a way through the
file, in which other data follow. -/
inductive EntryOp
  | publish (now : Nat) (keyID sourceID : UInt128) (ip : UInt32) (tags : List Tag)
  | cleanUp (now : Nat)
  | saveLoad (rest : List UInt8)

namespace StoredEntry

def create : StoredEntry := ⟨none, fun _ => 0⟩

def step (lower : QString → QString) (s : StoredEntry) : EntryOp → StoredEntry
  | .publish now keyID sourceID ip tags =>
    let fresh := Indexed.stampKeyEntry now false (publishedKey lower keyID sourceID ip tags)
    let (entry, left, g) := fresh.mergeIPsAndFilenames lower now s.entry s.globalPublishIPs
    ⟨some entry, (left.map fun old => old.destroy g).getD g⟩
  | .cleanUp now =>
    match s.entry with
    | none => s
    | some e =>
      let (entry, g) := e.cleanUpTrackedPublishers now s.globalPublishIPs
      ⟨some entry, g⟩
  | .saveLoad rest =>
    match s.entry with
    | none => s
    | some e =>
      let g := e.destroy s.globalPublishIPs
      match readPublishTrackingData true (writePublishTrackingData e ++ rest) with
      | .error _ => ⟨none, g⟩
      | .ok ((aich, names, ips), _) =>
        let entry := { e with
          toAICHHashes := aich, fileNames := names, publishingIPs := some ips }
        ⟨some entry, entry.track g⟩

/-- What a publish tells of its publisher. -/
def hear (last : Address → Option AICHHash) : EntryOp → Address → Option AICHHash
  | .publish _ _ _ ip tags => Function.update last (Address.fromHostOrder ip) (reportedHash tags)
  | .cleanUp _ => last
  | .saveLoad _ => last

def lastReport (ops : List EntryOp) : Address → Option AICHHash := run hear (fun _ => none) ops

/-- A publish finds its hash in the table or one of the 65535 slots free, and no name is saved
that is longer than its length field can tell. -/
def Keeps (s : StoredEntry) : EntryOp → Prop
  | .publish _ _ _ _ tags => ∀ e, s.entry = some e → ∀ hash, reportedHash tags = some hash →
    hash.bytes ∈ e.aichHashes ∨ e.aichHashes.length < 0xFFFF
  | .cleanUp _ => True
  | .saveLoad _ => ∀ e, s.entry = some e →
    ∀ n ∈ e.fileNames, (QString.toUtf8 n.fileName).length < 2 ^ 16

/-- A keyword publish of one file with its own AICH hash. -/
def floodTags (i : Nat) : List Tag :=
  [.ofId FT_FILENAME (.string [0x61]),.ofId FT_FILESIZE (.uint32 1),
    .ofId TAG_KADAICHHASHPUB (.bsob (leBytes kAICHHashSize i))]

/-- One publisher reports hash after hash. -/
def flood (n : Nat) : List EntryOp :=
  (List.range (n + 1)).map fun i => .publish 0 (.zero 16) (.zero 16) 1 (floodTags i)

variable (lower : QString → QString)

theorem step_publish (s : StoredEntry) (now : Nat) (keyID sourceID : UInt128) (ip : UInt32)
    (tags : List Tag) : (step lower s (.publish now keyID sourceID ip tags)).entry =
      some ((Indexed.stampKeyEntry now false
        (publishedKey lower keyID sourceID ip tags)).mergeIPsAndFilenames lower now s.entry
          s.globalPublishIPs).1 := rfl

theorem step_tracked {s : StoredEntry} {last : Address → Option AICHHash}
    (h : ∀ e,s.entry=some e → Tracked last e) {op : EntryOp} (hok : Keeps s op) :
    ∀ e,(step lower s op).entry=some e → Tracked (hear last op) e := by
  intro e he
  cases op with
  | publish now keyID sourceID ip tags =>
    obtain ⟨hname,haddress,hips⟩ := publishedKey_fresh lower keyID sourceID ip tags
    have hhashes := publishedKey_hashes lower keyID sourceID ip tags
    have hmerged := mergeIPsAndFilenames_tracked lower now
      (e := Indexed.stampKeyEntry now false (publishedKey lower keyID sourceID ip tags))
      haddress hips hhashes hname h hok s.globalPublishIPs
    rw [step_publish] at he
    exact Option.some.inj he ▸ hmerged
  | cleanUp now =>
    cases hentry : s.entry with
    | none => simp [step,hentry] at he
    | some e' =>
      obtain ⟨ips,hips,hrecords,hcap⟩ := h e' hentry
      simp only [step,hentry,KeyEntry.cleanUpTrackedPublishers,hips,Option.some.injEq] at he
      subst he
      exact ⟨_,rfl,hrecords.cleanUp now s.globalPublishIPs,hcap⟩
  | saveLoad rest =>
    cases hentry : s.entry with
    | none => simp [step,hentry] at he
    | some e' =>
      obtain ⟨aich,names,ips,hread,htracked⟩ := (h e' hentry).reload (hok e' hentry) rest
      simp only [step,hentry,hread,Option.some.injEq] at he
      exact he ▸ htracked

theorem run_tracked {ops : List EntryOp} (hok : Along (step lower) Keeps create ops) :
    ∀ e,(run (step lower) create ops).entry=some e → Tracked (lastReport ops) e := by
  have hstart : ∀ e,create.entry=some e → Tracked (fun _ => none) e := by
    intro e he
    cases he
  exact @run_simulation _ _ _ (step lower) hear Keeps
    (fun s last => ∀ e,s.entry=some e → Tracked last e)
    (fun s last op h hkeeps => step_tracked lower h hkeeps) _ _ _ hstart hok

/-- Each publisher's index stands for what it reported last, each hash is as popular as the
publishers that point at it are many, and what is popular somebody reports. -/
theorem aichReports_correct {ops : List EntryOp} (hok : Along (step lower) Keeps create ops) :
    ∀ e, (run (step lower) create ops).entry = some e →
      ∃ ips, e.publishingIPs = some ips ∧
        (∀ p ∈ ips, Reports e.toAICHHashes p.aichHashIdx (lastReport ops p.ip)) ∧
        e.aichHashes.Nodup ∧ e.aichHashPopularity.length = e.aichHashes.length ∧
        ∀ i n, e.aichHashPopularity[i]? = some n →
          n.toNat = min 255 (pointing (ips.map PublishingIP.aichHashIdx) i) ∧
          (n > 0 → ∃ p ∈ ips, ∃ hash, lastReport ops p.ip = some hash ∧
            e.aichHashes[i]? = some hash.bytes) := by
  intro e he
  obtain ⟨ips,hips,hrecords,-⟩ := run_tracked lower hok e he
  have hrefs := hrecords.refs
  refine ⟨ips,hips,hrecords.reports,hrefs.nodup,hrefs.lengths,fun i n hn => ?_⟩
  have hi : i<e.aichHashes.length := by
    rw [← hrefs.lengths]
    exact (List.getElem?_eq_some_iff.mp hn).1
  have hcount : n.toNat=pointing (ips.map PublishingIP.aichHashIdx) i := by
    have hvalue := hrefs.counts i hi
    rw [hn] at hvalue
    exact Option.some.inj hvalue
  have hfew := @pointing_le (ips.map PublishingIP.aichHashIdx) i
  have hmax : kMaxPublishers=100 := rfl
  have hcap := hrecords.cap
  rw [List.length_map] at hfew
  refine ⟨by omega,fun hpos => ?_⟩
  have hpointing : 0<pointing (ips.map PublishingIP.aichHashIdx) i :=
    hcount ▸ UInt8.lt_iff_toNat_lt.mp hpos
  obtain ⟨idx,hidx,hat⟩ := List.countP_pos_iff.mp hpointing
  obtain ⟨p,hp,rfl⟩ := List.mem_map.mp hidx
  have hat' : p.aichHashIdx.toNat=i := by simpa using hat
  have hreports := hrecords.reports p hp
  refine ⟨p,hp,?_⟩
  cases hlast : lastReport ops p.ip with
  | none =>
    rw [hlast] at hreports
    exact absurd (hreports ▸ hat') (none_toNat_ne hrefs hi)
  | some hash =>
    rw [hlast] at hreports
    exact ⟨hash,rfl,hat' ▸ hreports.2⟩

theorem aichReports_correct_published :
    ∃ e ips, (run (step id) create (flood 0)).entry = some e ∧ e.publishingIPs = some ips ∧
      (∀ p ∈ ips, Reports e.toAICHHashes p.aichHashIdx (lastReport (flood 0) p.ip)) ∧
      e.aichHashes.Nodup ∧ e.aichHashPopularity.length = e.aichHashes.length ∧
      ∀ i n, e.aichHashPopularity[i]? = some n →
        n.toNat = min 255 (pointing (ips.map PublishingIP.aichHashIdx) i) ∧
        (n > 0 → ∃ p ∈ ips, ∃ hash, lastReport (flood 0) p.ip = some hash ∧
          e.aichHashes[i]? = some hash.bytes) := by
  obtain ⟨e,he⟩ : ∃ e, (run (step id) create (flood 0)).entry=some e := ⟨_,rfl⟩
  have hok : Along (step id) Keeps create (flood 0) := ⟨fun _ h => (nomatch h),trivial⟩
  obtain ⟨ips,hips,hrest⟩ := aichReports_correct id hok e he
  exact ⟨e,ips,he,hips,hrest⟩

section Flood

theorem reportedHash_flood (i : Nat) :
    reportedHash (floodTags i)=some ⟨leBytes kAICHHashSize i,leBytes_length _ i⟩ := by
  simp [reportedHash,floodTags,fileNameTag?,aichTag?,Tag.ofId,Entry.tagLookupKey,FT_FILENAME,
    FT_FILESIZE,TAG_KADAICHHASHPUB]

theorem addRemoveAICHHash_new {a : AICHHashes} {hash : List UInt8} (h : hash∉a.aichHashes) :
    (a.addRemoveAICHHash hash true).1=UInt16.ofNat a.aichHashes.length ∧
      (a.addRemoveAICHHash hash true).2.aichHashes=a.aichHashes++[hash] := by
  unfold AICHHashes.addRemoveAICHHash
  rw [List.idxOf?_eq_none_iff.mpr h]
  exact ⟨rfl,rfl⟩

theorem leBytes_inj {i j : Nat} (hi : i<2^16) (hj : j<2^16)
    (h : leBytes kAICHHashSize i=leBytes kAICHHashSize j) : i=j := by
  have hsize : (2 : Nat)^16≤256^kAICHHashSize := by decide
  rw [← leValue_leBytes (hi.trans_le hsize),h,leValue_leBytes (hj.trans_le hsize)]

/-- The publisher and the table after `n + 1` hashes. -/
def Flooded (n : Nat) (e : KeyEntry) : Prop :=
  e.publishingIPs = some [⟨0, .ipv4 1, UInt16.ofNat n⟩] ∧
    e.aichHashes = (List.range (n + 1)).map (leBytes kAICHHashSize)

theorem report_flooded {n : Nat} (h : n<0xFFFF) {a : AICHHashes}
    (hhashes : a.aichHashes=(List.range (n+1)).map (leBytes kAICHHashSize)) :
    let r := a.report (UInt16.ofNat n) (leBytes kAICHHashSize (n+1))
    r.1=UInt16.ofNat (n+1) ∧
      r.2.aichHashes=(List.range (n+1+1)).map (leBytes kAICHHashSize) := by
  have hvalue : (UInt16.ofNat n).toNat=n := UInt16.toNat_ofNat_of_lt' (by
    have hsize : UInt16.size=65536 := rfl
    omega)
  have hget : a.aichHashes[n]? = some (leBytes kAICHHashSize n) := by
    rw [hhashes,List.getElem?_map,List.getElem?_range (Nat.lt_succ_self n)]
    rfl
  have hfresh : leBytes kAICHHashSize (n+1) ∉
      (a.addRemoveAICHHash (leBytes kAICHHashSize n) false).2.aichHashes := by
    rw [addRemoveAICHHash_false,hhashes]
    intro hmem
    obtain ⟨i,hi,heq⟩ := List.mem_map.mp hmem
    rw [List.mem_range] at hi
    have hsame := leBytes_inj (by omega) (by omega) heq
    omega
  obtain ⟨hidx,hadded⟩ := addRemoveAICHHash_new hfresh
  have hne : leBytes kAICHHashSize n≠leBytes kAICHHashSize (n+1) := by
    intro heq
    have hsame := leBytes_inj (by omega) (by omega) heq
    omega
  have hnonempty : leBytes kAICHHashSize (n+1)≠[] := by
    intro hnil
    have hlength := leBytes_length kAICHHashSize (n+1)
    rw [hnil] at hlength
    cases hlength
  unfold AICHHashes.report
  rw [if_pos hnonempty,if_neg (ofNat_ne_none h),hvalue,hget]
  dsimp only
  rw [if_pos hne,hidx,hadded,addRemoveAICHHash_false,hhashes,List.length_map,
    List.length_range,List.range_succ (n := n+1),List.map_append]
  exact ⟨rfl,rfl⟩

theorem publishedKey_flood (i : Nat) :
    (publishedKey id (.zero 16) (.zero 16) 1 (floodTags i)).address = .ipv4 1 ∧
      (publishedKey id (.zero 16) (.zero 16) 1 (floodTags i)).publishingIPs=none ∧
      (publishedKey id (.zero 16) (.zero 16) 1 (floodTags i)).toAICHHashes =
        ⟨[leBytes kAICHHashSize i],[1]⟩ := by
  obtain ⟨-,haddress,hips⟩ := publishedKey_fresh id (.zero 16) (.zero 16) 1 (floodTags i)
  refine ⟨haddress,hips,?_⟩
  rw [publishedKey_hashes,reportedHash_flood]
  rfl

theorem flooded_step {n : Nat} (h : n<0xFFFF) {s : StoredEntry} {e : KeyEntry}
    (hentry : s.entry=some e) (he : Flooded n e) :
    ∃ e', (step id s (.publish 0 (.zero 16) (.zero 16) 1 (floodTags (n+1)))).entry=some e' ∧
      Flooded (n+1) e' := by
  obtain ⟨haddress,hips,hhashes⟩ := publishedKey_flood (n+1)
  obtain ⟨hips',hhashes'⟩ := he
  obtain ⟨hidx,hreport⟩ := report_flooded h hhashes'
  have hfind : [(⟨0,.ipv4 1,UInt16.ofNat n⟩ : PublishingIP)].find?
      (fun p => decide (p.ip = .ipv4 1))=some ⟨0,.ipv4 1,UInt16.ofNat n⟩ := by simp
  refine ⟨_,step_publish id s _ _ _ _ _,?_⟩
  unfold Indexed.stampKeyEntry
  rw [if_neg (by decide),hentry]
  generalize publishedKey id (.zero 16) (.zero 16) 1 (floodTags (n+1))=fresh at *
  unfold KeyEntry.mergeIPsAndFilenames
  rw [hips,if_neg (by decide)]
  dsimp only [Option.bind_some]
  rw [hips',haddress]
  dsimp only
  rw [hfind]
  unfold KeyEntry.refreshPublisher
  rw [hhashes]
  dsimp only [Option.map_some,Option.getD_some,List.headD_cons]
  exact ⟨by rw [hidx]; rfl,hreport⟩

theorem flooded_run {n : Nat} (h : n≤0xFFFF) :
    ∃ e, (run (step id) create (flood n)).entry=some e ∧ Flooded n e := by
  induction n with
  | zero =>
    obtain ⟨haddress,hips,hhashes⟩ := publishedKey_flood 0
    have hfirst : flood 0=[.publish 0 (.zero 16) (.zero 16) 1 (floodTags 0)] := rfl
    rw [hfirst,run_cons,run_nil]
    refine ⟨_,step_publish id create _ _ _ _ _,?_⟩
    unfold Indexed.stampKeyEntry
    rw [if_neg (by decide)]
    unfold KeyEntry.mergeIPsAndFilenames
    rw [hips,hhashes,if_neg (by decide)]
    rw [haddress]
    exact ⟨rfl,rfl⟩
  | succ n ih =>
    obtain ⟨e,hentry,he⟩ := ih (by omega)
    have hrange : flood (n+1) =
        flood n++[.publish 0 (.zero 16) (.zero 16) 1 (floodTags (n+1))] := by
      rw [flood,List.range_succ,List.map_append]
      rfl
    rw [hrange,run_append]
    exact flooded_step (by omega) hentry he

theorem lastReport_flood (n : Nat) :
    lastReport (flood n) (.ipv4 1)=some ⟨leBytes kAICHHashSize n,leBytes_length _ n⟩ := by
  rw [lastReport,flood,List.range_succ,List.map_append,run_append,List.map_singleton,run_cons,
    run_nil,hear,reportedHash_flood]
  exact Function.update_self _ _ _

/-- The hash that gets slot 65535 is reported under the mark of those who report none. -/
theorem aichReports_marked : ∃ ops e ips p,
    (run (step id) create ops).entry = some e ∧ e.publishingIPs = some ips ∧ p ∈ ips ∧
      lastReport ops p.ip ≠ none ∧ p.aichHashIdx = kNoAICHHash ∧
      ¬ Reports e.toAICHHashes p.aichHashIdx (lastReport ops p.ip) := by
  obtain ⟨e,hentry,hips,-⟩ := flooded_run (Nat.le_refl 0xFFFF)
  have hlast := lastReport_flood 0xFFFF
  refine ⟨flood 0xFFFF,e,_,_,hentry,hips,List.mem_singleton_self _,?_,rfl,?_⟩
  · rw [hlast]
    exact Option.some_ne_none _
  · rw [hlast]
    exact fun hreports => hreports.1 rfl

end Flood

end StoredEntry

end EmuleQt.Kademlia
