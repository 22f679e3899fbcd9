import EmuleQt.Transfer.UploadQueue

namespace EmuleQt.Transfer

open Client Framework Net

variable {C : Type*} [DecidableEq C] {userAddress : C → Address} {env : QueueSurroundings C}
  {client c : C}

/-- The clients on either list. -/
def UploadQueue.members (s : UploadQueue C) : Finset C :=
  (s.waitingList ++ s.uploadingList).toFinset

/-- The slots are 1 to n in list order. -/
def UploadQueue.Numbered (s : UploadQueue C) : Prop :=
  s.uploadingList.map s.slotNumber = (List.range' 1 s.uploadingList.length).map UInt32.ofNat

/-- An IPv6 address is one client's, and a /64 three clients' at most. -/
structure AddressRules (userAddress : C → Address) (clients : Finset C) : Prop where
  own : ∀ c∈clients, ∀ d∈clients, (userAddress c).isIPv6=true →
    userAddress c=userAddress d → c=d
  subnet : ∀ key, (clients.filter fun c =>
    (userAddress c).isIPv6=true ∧ (userAddress c).peerKey=key).card≤3

/-- Clients lose their places and nothing else happens, but that a slot goes live. -/
structure Shrinks (s t : UploadQueue C) : Prop where
  waiting : t.waitingList.Sublist s.waitingList
  uploading : t.uploadingList.Sublist s.uploadingList
  numbered : s.Numbered → t.Numbered
  state : ∀ c ∈ t.uploadingList, c ∉ s.waitingList →
    t.uploadState c = s.uploadState c ∨ t.uploadState c = .Uploading

/-- What holds of the lists whoever asks. -/
structure Sound (userAddress : C → Address) (s : UploadQueue C) : Prop where
  waiting_nodup : s.waitingList.Nodup
  uploading_nodup : s.uploadingList.Nodup
  numbered : s.Numbered
  rules : AddressRules userAddress s.members
  same_ip : ∀ a, s.waitingList.countP (fun c => decide (userAddress c = a)) ≤ 3

/-- A client on the uploading list is not waiting, and its slot is live or being dialled. -/
def Served (s : UploadQueue C) (c : C) : Prop :=
  c ∈ s.uploadingList → c ∉ s.waitingList ∧
    (s.uploadState c = .Connecting ∨ s.uploadState c = .Uploading)

section Addresses

variable {clients more : Finset C}

omit [DecidableEq C] in
theorem AddressRules.mono (h : AddressRules userAddress more) (hsub : clients ⊆ more) :
    AddressRules userAddress clients where
  own c hc d hd := h.own c (hsub hc) d (hsub hd)
  subnet key := (Finset.card_le_card (Finset.filter_subset_filter _ hsub)).trans (h.subnet key)

theorem AddressRules.insert_of_not_isIPv6 (h : AddressRules userAddress clients)
    (hc : (userAddress c).isIPv6=false) : AddressRules userAddress (insert c clients) where
  own d hd e he h6 heq := by
    have hdc : d≠c := fun hdc => by simp [hdc,hc] at h6
    have hec : e≠c := fun hec => by simp [heq,hec,hc] at h6
    exact h.own d (Finset.mem_of_mem_insert_of_ne hd hdc) e
      (Finset.mem_of_mem_insert_of_ne he hec) h6 heq
  subnet key := by
    rw [Finset.filter_insert,if_neg (by simp [hc])]
    exact h.subnet key

theorem AddressRules.insert_of_counted (h : AddressRules userAddress clients)
    (hown : ∀ d∈clients,d≠c → userAddress d≠userAddress c)
    (hsubnet : (clients.filter fun d => d≠c ∧ (userAddress d).isIPv6=true ∧
      (userAddress d).peerKey=(userAddress c).peerKey).card<3) :
    AddressRules userAddress (insert c clients) where
  own d hd e he h6 heq := by
    by_cases hdc : d=c
    · by_cases hec : e=c
      · rw [hdc,hec]
      · exact absurd (heq.symm.trans (congrArg userAddress hdc))
          (hown e (Finset.mem_of_mem_insert_of_ne he hec) hec)
    · have hdm := Finset.mem_of_mem_insert_of_ne hd hdc
      by_cases hec : e=c
      · exact absurd (heq.trans (congrArg userAddress hec)) (hown d hdm hdc)
      · exact h.own d hdm e (Finset.mem_of_mem_insert_of_ne he hec) h6 heq
  subnet key := by
    rw [Finset.filter_insert]
    split_ifs with hc
    · -- Those of its /64 are the newcomer and the others the gate has counted.
      have hsub : insert c (clients.filter fun d =>
            (userAddress d).isIPv6=true ∧ (userAddress d).peerKey=key) ⊆
          insert c (clients.filter fun d => d≠c ∧ (userAddress d).isIPv6=true ∧
            (userAddress d).peerKey=(userAddress c).peerKey) := by
        intro d hd
        by_cases hdc : d=c
        · rw [hdc]
          exact Finset.mem_insert_self c _
        · obtain ⟨hdm,hd6,hkey⟩ :=
            Finset.mem_filter.mp (Finset.mem_of_mem_insert_of_ne hd hdc)
          exact Finset.mem_insert_of_mem (Finset.mem_filter.mpr
            ⟨hdm,hdc,hd6,hkey.trans hc.2.symm⟩)
      have hcard := Finset.card_le_card hsub
      have hone := Finset.card_insert_le c (clients.filter fun d => d≠c ∧
        (userAddress d).isIPv6=true ∧ (userAddress d).peerKey=(userAddress c).peerKey)
      omega
    · exact h.subnet key

end Addresses

section Numbers

variable {n : Nat} {l : List C} {slots : C → UInt32}

theorem numberFrom_of_not_mem (hc : c∉l) : UploadQueue.numberFrom n l slots c=slots c := by
  induction l generalizing n slots with
  | nil => rfl
  | cons d l ih =>
    rw [List.mem_cons,not_or] at hc
    rw [UploadQueue.numberFrom,ih hc.2,Function.update_of_ne hc.1]

theorem map_numberFrom (hl : l.Nodup) :
    l.map (UploadQueue.numberFrom n l slots)=(List.range' n l.length).map UInt32.ofNat := by
  induction l generalizing n slots with
  | nil => rfl
  | cons d l ih =>
    obtain ⟨hd,hl⟩ := List.nodup_cons.mp hl
    rw [List.length_cons,List.range'_succ,List.map_cons,List.map_cons]
    congr 1
    · rw [UploadQueue.numberFrom,numberFrom_of_not_mem hd,Function.update_self]
    · exact ih hl

theorem numbered_openSlot {s : UploadQueue C} (h : s.Numbered) (hc : client∉s.uploadingList) :
    (s.openSlot env client).Numbered := by
  have hkept : s.uploadingList.map (Function.update s.slotNumber client
      (UInt32.ofNat (s.uploadingList.length+1)))=s.uploadingList.map s.slotNumber :=
    List.map_congr_left fun d hd =>
      Function.update_of_ne (fun hdc : d=client => hc (hdc ▸ hd)) _ _
  unfold UploadQueue.Numbered at *
  simp only [UploadQueue.openSlot,List.map_append,List.map_cons,List.map_nil,
    Function.update_self,hkept,h,List.length_append,List.length_cons,List.length_nil]
  rw [List.range'_1_concat,List.map_append,Nat.add_comm 1]
  rfl

end Numbers

section Shrinking

variable {s t u : UploadQueue C}

omit [DecidableEq C] in
theorem Shrinks.refl (s : UploadQueue C) : Shrinks s s :=
  ⟨.refl _,.refl _,id,fun _ _ _ => .inl rfl⟩

omit [DecidableEq C] in
theorem Shrinks.trans (hst : Shrinks s t) (htu : Shrinks t u) : Shrinks s u where
  waiting := htu.waiting.trans hst.waiting
  uploading := htu.uploading.trans hst.uploading
  numbered h := htu.numbered (hst.numbered h)
  state c hc hw := by
    rcases htu.state c hc fun h => hw (hst.waiting.subset h) with hsame | hlive
    · rw [hsame]
      exact hst.state c (htu.uploading.subset hc) hw
    · exact .inr hlive

theorem shrinks_setAddNextConnect (v : Bool) : Shrinks s (s.setAddNextConnect client v) :=
  ⟨.refl _,.refl _,id,fun _ _ _ => .inl rfl⟩

theorem shrinks_setCollectionUploadSlot (v : Bool) :
    Shrinks s (s.setCollectionUploadSlot client v) :=
  ⟨.refl _,.refl _,id,fun _ _ _ => .inl rfl⟩

theorem shrinks_setUploadState {state : UploadState} (hc : client∉s.uploadingList) :
    Shrinks s (s.setUploadState client state) :=
  ⟨.refl _,.refl _,id,fun d hd _ =>
    .inl (Function.update_of_ne (fun hdc : d=client => hc (hdc ▸ hd)) _ _)⟩

theorem shrinks_removeFromWaitingQueue (s : UploadQueue C) (client : C) :
    Shrinks s (s.removeFromWaitingQueue client) := by
  unfold UploadQueue.removeFromWaitingQueue
  split_ifs with hc
  · exact ⟨List.erase_sublist,.refl _,id,fun d _ hw =>
      .inl (Function.update_of_ne (fun hdc : d=client => hw (hdc ▸ hc)) _ _)⟩
  · exact .refl s

theorem shrinks_removeFromUploadQueue (hu : s.uploadingList.Nodup) (client : C) :
    Shrinks s (s.removeFromUploadQueue client) := by
  unfold UploadQueue.removeFromUploadQueue
  split_ifs with hc
  · refine ⟨.refl _,List.erase_sublist,fun _ => map_numberFrom (hu.erase client),?_⟩
    intro d hd _
    exact .inl (Function.update_of_ne (hu.mem_erase_iff.mp hd).1 _ _)
  · exact .refl s

theorem shrinks_disconnected (hu : s.uploadingList.Nodup) (client : C) :
    Shrinks s (s.disconnected client) := by
  unfold UploadQueue.disconnected
  split_ifs with hstate
  · by_cases hc : client∈s.uploadingList
    · -- It is taken off the list: the state it had there is nobody's any more.
      have hsame : (s.setUploadState client .None).removeFromUploadQueue client =
          s.removeFromUploadQueue client := by
        simp [UploadQueue.removeFromUploadQueue,UploadQueue.setUploadState,
          UploadQueue.setAddNextConnect,UploadQueue.setCollectionUploadSlot,hc]
      rw [hsame]
      exact shrinks_removeFromUploadQueue hu client
    · exact (shrinks_setUploadState hc).trans
        (shrinks_removeFromUploadQueue (s := s.setUploadState client .None) hu client)
  · exact .refl s

theorem shrinks_onHandshakeCompleted (s : UploadQueue C) (client : C) :
    Shrinks s (s.onHandshakeCompleted client) := by
  unfold UploadQueue.onHandshakeCompleted
  split_ifs with h
  · refine ⟨.refl _,.refl _,id,fun d _ _ => ?_⟩
    by_cases hd : d=client
    · exact .inr (by simp [UploadQueue.setUploadState,hd])
    · exact .inl (Function.update_of_ne hd _ _)
  · exact .refl s

theorem shrinks_evict (hu : s.uploadingList.Nodup) (cur : C) : Shrinks s (s.evict env cur) := by
  have hwaiting := shrinks_removeFromWaitingQueue s cur
  unfold UploadQueue.evict
  split_ifs
  · exact hwaiting.trans (shrinks_disconnected (hwaiting.uploading.nodup hu) cur)
  · exact hwaiting

theorem foldl_purge_uploadState (l : List C) (s : UploadQueue C) (hc : c∉l) :
    (l.foldl UploadQueue.purge s).uploadState c=s.uploadState c := by
  induction l generalizing s with
  | nil => rfl
  | cons d l ih =>
    rw [List.mem_cons,not_or] at hc
    rw [List.foldl_cons,ih _ hc.2]
    exact Function.update_of_ne hc.1 _ _

theorem foldl_purge_lists (l : List C) (s : UploadQueue C) :
    (l.foldl UploadQueue.purge s).uploadingList=s.uploadingList ∧
      (l.foldl UploadQueue.purge s).slotNumber=s.slotNumber := by
  induction l generalizing s with
  | nil => exact ⟨rfl,rfl⟩
  | cons d l ih => exact ih (s.purge d)

/-- The best of a list are on it. -/
def BestsOf (b : UploadQueue.Bests C) (l : List C) : Prop :=
  ∀ d, b.newClient=some d ∨ b.bestV4=some d ∨ b.bestV6=some d → d∈l

variable {b : UploadQueue.Bests C}

omit [DecidableEq C] in
theorem bestsOf_considerFamily {l : List C} (h : BestsOf b l) (hc : c∈l) :
    BestsOf (UploadQueue.considerFamily env b c) l := by
  intro d hd
  unfold UploadQueue.considerFamily at hd
  split_ifs at hd
  · rcases hd with hd | hd | hd
    · exact h d (.inl hd)
    · exact h d (.inr (.inl hd))
    · exact Option.some.inj hd ▸ hc
  · exact h d hd
  · rcases hd with hd | hd | hd
    · exact h d (.inl hd)
    · exact Option.some.inj hd ▸ hc
    · exact h d (.inr (.inr hd))
  · exact h d hd
  · exact h d hd

omit [DecidableEq C] in
theorem bestsOf_considerAll {l : List C} {addNextConnect : C → Bool} (h : BestsOf b l)
    (hc : c∈l) :
    BestsOf (UploadQueue.considerAll env addNextConnect b c) l := by
  intro d hd
  unfold UploadQueue.considerAll at hd
  split_ifs at hd
  · rcases hd with hd | hd
    · exact Option.some.inj hd ▸ hc
    · exact h d (.inr hd)
  · exact h d hd
  · exact h d hd
  · exact h d hd

omit [DecidableEq C] in
theorem bestsOf_foldl {l : List C} {addNextConnect : C → Bool} (h : BestsOf b l) (more : List C)
    (hmore : ∀ d∈more,d∈l) :
    BestsOf (more.foldl (UploadQueue.consider env addNextConnect) b) l := by
  induction more generalizing b with
  | nil => exact h
  | cons d more ih =>
    refine ih ?_ fun e he => hmore e (List.mem_cons_of_mem d he)
    unfold UploadQueue.consider
    split_ifs
    · exact h
    · have hd := hmore d List.mem_cons_self
      exact bestsOf_considerAll (bestsOf_considerFamily h hd) hd

theorem shrinks_purgeWaitingList (s : UploadQueue C) : Shrinks s (s.purgeWaitingList env) := by
  have hlists := foldl_purge_lists (s.waitingList.filter (UploadQueue.isPurged env)) s
  refine ⟨List.filter_sublist,?_,fun h => ?_,fun d _ hw => .inl ?_⟩
  · rw [UploadQueue.purgeWaitingList,hlists.1]
  · simpa only [UploadQueue.Numbered,UploadQueue.purgeWaitingList,hlists.1,hlists.2] using h
  · exact foldl_purge_uploadState _ s fun hd => hw (List.mem_of_mem_filter hd)

theorem shrinks_deferLowClient (b : UploadQueue.Bests C) (s : UploadQueue C) :
    Shrinks s (s.deferLowClient b) := by
  unfold UploadQueue.deferLowClient
  split
  · split_ifs
    · exact shrinks_setAddNextConnect true
    · exact .refl s
  · exact .refl s

theorem deferLowClient_waitingList (b : UploadQueue.Bests C) (s : UploadQueue C) :
    (s.deferLowClient b).waitingList=s.waitingList := by
  unfold UploadQueue.deferLowClient
  split
  · split_ifs <;> rfl
  · rfl

theorem shrinks_findBestClientInQueue (s : UploadQueue C) :
    Shrinks s (s.findBestClientInQueue env).2 :=
  (shrinks_purgeWaitingList s).trans (shrinks_deferLowClient _ _)

theorem findBestClientInQueue_mem {s : UploadQueue C}
    (h : (s.findBestClientInQueue env).1=some c) :
    c∈(s.findBestClientInQueue env).2.waitingList := by
  have hbests : BestsOf ((s.purgeWaitingList env).waitingList.foldl
      (UploadQueue.consider env (s.purgeWaitingList env).addNextConnect) {})
      (s.purgeWaitingList env).waitingList :=
    bestsOf_foldl (by rintro d (hd | hd | hd) <;> cases hd) _ fun d hd => hd
  refine deferLowClient_waitingList _ (s.purgeWaitingList env) ▸ hbests c ?_
  unfold UploadQueue.findBestClientInQueue UploadQueue.chosen at h
  dsimp only at h
  split_ifs at h
  · exact .inr (.inl h)
  · exact .inr (.inr h)
  · exact .inl h

theorem shrinks_tryToConnect (hu : s.uploadingList.Nodup) (client : C) :
    Shrinks s (s.tryToConnect env client).2 := by
  unfold UploadQueue.tryToConnect
  split
  · exact .refl s
  · dsimp only
    split_ifs
    · exact shrinks_onHandshakeCompleted s client
    · exact .refl s
  · exact shrinks_disconnected hu client

theorem tryToConnect_started (hc : client∉s.uploadingList)
    (h : (s.tryToConnect env client).1=true) : (s.tryToConnect env client).2=s := by
  have hoff : s.onHandshakeCompleted client=s := by
    simp [UploadQueue.onHandshakeCompleted,UploadQueue.isDownloading,hc]
  unfold UploadQueue.tryToConnect at *
  split
  · rfl
  · simp [hoff]
  · simp_all

end Shrinking

section Slots

variable {s t : UploadQueue C}

/-- The client is on neither list and on its way to a slot. -/
structure Opens (s t : UploadQueue C) (client : C) : Prop where
  shrinks : Shrinks s t
  not_waiting : client ∉ t.waitingList
  not_uploading : client ∉ t.uploadingList
  state : t.uploadState client = .Connecting ∨ t.uploadState client = .Uploading

omit [DecidableEq C] in
theorem Opens.of_shrinks {r : UploadQueue C} (hrs : Shrinks r s) (h : Opens s t client) :
    Opens r t client := { h with shrinks := hrs.trans h.shrinks }

theorem opens_setUploadState {state : UploadState} (hw : client∉s.waitingList)
    (hu : client∉s.uploadingList) (hstate : state = .Connecting ∨ state = .Uploading) :
    Opens s (s.setUploadState client state) client where
  shrinks := shrinks_setUploadState hu
  not_waiting := hw
  not_uploading := hu
  state := by simpa [UploadQueue.setUploadState] using hstate

theorem promote_cases (hw : s.waitingList.Nodup) (hu : s.uploadingList.Nodup) (direct : Bool)
    (client : C) :
    (∃ t, s.promote env direct client=(false, t) ∧ Shrinks s t) ∨
      ∃ t, s.promote env direct client=(true, t.openSlot env client) ∧ Opens s t client := by
  have hremoved := shrinks_removeFromWaitingQueue s client
  have hgone : client∉(s.removeFromWaitingQueue client).waitingList := by
    rw [UploadQueue.removeFromWaitingQueue_waitingList]
    exact hw.not_mem_erase
  unfold UploadQueue.promote
  by_cases hslot : (s.removeFromWaitingQueue client).isDownloading client=true
  · rw [if_pos hslot]
    exact .inl ⟨_,rfl,hremoved⟩
  rw [if_neg hslot]
  have hoff : client∉(s.removeFromWaitingQueue client).uploadingList := by
    simpa [UploadQueue.isDownloading] using hslot
  -- Whether the collection flag is cleared makes no difference to the lists.
  obtain ⟨r,hr,hshrinks,hrw,hru⟩ : ∃ r, r=(if (!direct &&
      (s.removeFromWaitingQueue client).collectionUploadSlot client)=true then
        (s.removeFromWaitingQueue client).setCollectionUploadSlot client false
      else s.removeFromWaitingQueue client) ∧ Shrinks s r ∧ client∉r.waitingList ∧
      client∉r.uploadingList := by
    refine ⟨_,rfl,?_⟩
    split_ifs
    · exact ⟨hremoved.trans (shrinks_setCollectionUploadSlot false),hgone,hoff⟩
    · exact ⟨hremoved,hgone,hoff⟩
  rw [← hr]
  by_cases hready : env.uploadSocketReady client=true
  · rw [if_pos hready]
    exact .inr ⟨_,rfl,(opens_setUploadState hrw hru (.inr rfl)).of_shrinks hshrinks⟩
  rw [if_neg hready]
  have hdialled : Opens r (r.setUploadState client .Connecting) client :=
    opens_setUploadState hrw hru (.inl rfl)
  have hshut : Shrinks (r.setUploadState client .Connecting)
      ((r.setUploadState client .Connecting).tryToConnect env client).2 :=
    shrinks_tryToConnect (hdialled.shrinks.uploading.nodup (hshrinks.uploading.nodup hu)) client
  cases hdial : (r.setUploadState client .Connecting).tryToConnect env client with
  | mk started q =>
    cases started with
    | true =>
      have hq : ((r.setUploadState client .Connecting).tryToConnect env client).2 =
          r.setUploadState client .Connecting :=
        tryToConnect_started hdialled.not_uploading (by rw [hdial])
      rw [hdial] at hq
      subst hq
      exact .inr ⟨_,rfl,hdialled.of_shrinks hshrinks⟩
    | false =>
      rw [hdial] at hshut
      have hq : Shrinks s q := hshrinks.trans (hdialled.shrinks.trans hshut)
      exact .inl ⟨_,rfl,hq.trans (shrinks_setUploadState
        fun hc => hdialled.not_uploading (hshut.uploading.subset hc))⟩

theorem addUpNextClient_cases (hw : s.waitingList.Nodup) (hu : s.uploadingList.Nodup)
    (directadd : Option C) :
    (∃ t, s.addUpNextClient env directadd=(false, t) ∧ Shrinks s t) ∨
      ∃ t client, s.addUpNextClient env directadd=(true, t.openSlot env client) ∧
        Opens s t client ∧ (directadd=some client ∨ client∈s.waitingList) := by
  cases directadd with
  | some client =>
    rcases promote_cases hw hu true client with ⟨t,ht,hs⟩ | ⟨t,ht,hs⟩
    · exact .inl ⟨t,ht,hs⟩
    · exact .inr ⟨t,client,ht,hs,.inl rfl⟩
  | none =>
    have hshrinks : Shrinks s (s.findBestClientInQueue env).2 := shrinks_findBestClientInQueue s
    unfold UploadQueue.addUpNextClient
    cases hbest : s.findBestClientInQueue env with
    | mk best q =>
      cases best with
      | none => exact .inl ⟨q,rfl,by rwa [hbest] at hshrinks⟩
      | some client =>
        have hmem : client∈(s.findBestClientInQueue env).2.waitingList :=
          findBestClientInQueue_mem (by rw [hbest])
        rw [hbest] at hshrinks hmem
        rcases promote_cases (hshrinks.waiting.nodup hw) (hshrinks.uploading.nodup hu) false
          client with ⟨t,ht,hs⟩ | ⟨t,ht,hs⟩
        · exact .inl ⟨t,ht,hshrinks.trans hs⟩
        · exact .inr ⟨t,client,ht,hs.of_shrinks hshrinks,
            .inr (hshrinks.waiting.subset hmem)⟩

end Slots

section Invariant

variable {s t : UploadQueue C}

theorem Shrinks.members (h : Shrinks s t) : t.members ⊆ s.members := by
  intro d hd
  simp only [UploadQueue.members,List.mem_toFinset,List.mem_append] at *
  exact hd.imp (fun hd => h.waiting.subset hd) fun hd => h.uploading.subset hd

theorem Sound.of_shrinks (h : Sound userAddress s) (hst : Shrinks s t) : Sound userAddress t where
  waiting_nodup := hst.waiting.nodup h.waiting_nodup
  uploading_nodup := hst.uploading.nodup h.uploading_nodup
  numbered := hst.numbered h.numbered
  rules := h.rules.mono hst.members
  same_ip a := hst.waiting.countP_le.trans (h.same_ip a)

omit [DecidableEq C] in
theorem Served.of_shrinks (h : Served s c) (hst : Shrinks s t) : Served t c := by
  intro hc
  obtain ⟨hw,hstate⟩ := h (hst.uploading.subset hc)
  refine ⟨fun hd => hw (hst.waiting.subset hd),?_⟩
  rcases hst.state c hc hw with hsame | hlive
  · rwa [hsame]
  · exact .inr hlive

theorem sound_init : Sound userAddress (UploadQueue.init : UploadQueue C) where
  waiting_nodup := .nil
  uploading_nodup := .nil
  numbered := rfl
  rules := ⟨fun _ hc => absurd hc (Finset.notMem_empty _),fun _ => Nat.zero_le _⟩
  same_ip _ := Nat.zero_le _

omit [DecidableEq C] in
theorem served_init (c : C) : Served UploadQueue.init c := fun hc => absurd hc List.not_mem_nil

theorem members_openSlot : (s.openSlot env client).members=insert client s.members := by
  ext d
  simp only [UploadQueue.members,UploadQueue.openSlot,List.mem_toFinset,List.mem_append,
    List.mem_singleton,Finset.mem_insert]
  tauto

theorem members_enqueue : (s.enqueue client).members=insert client s.members := by
  ext d
  simp only [UploadQueue.members,UploadQueue.enqueue,UploadQueue.setUploadState,
    List.mem_toFinset,List.mem_append,List.mem_singleton,Finset.mem_insert]
  tauto

theorem Sound.openSlot (h : Sound userAddress s)
    (hrules : AddressRules userAddress (insert client s.members)) (hopens : Opens s t client) :
    Sound userAddress (t.openSlot env client) := by
  have ht := h.of_shrinks hopens.shrinks
  refine ⟨ht.waiting_nodup,?_,numbered_openSlot ht.numbered hopens.not_uploading,?_,
    ht.same_ip⟩
  · exact List.Nodup.append ht.uploading_nodup (List.nodup_singleton client)
      (by simpa [UploadQueue.openSlot] using hopens.not_uploading)
  · rw [members_openSlot]
    exact hrules.mono (Finset.insert_subset_insert client hopens.shrinks.members)

theorem Served.openSlot (h : Served s c) (hopens : Opens s t client) :
    Served (t.openSlot env client) c := by
  intro hc
  by_cases hcc : c=client
  · subst hcc
    exact ⟨hopens.not_waiting,hopens.state⟩
  · have hmem : c∈t.uploadingList := by
      simpa [UploadQueue.openSlot,hcc] using hc
    have hserved : Served t c := h.of_shrinks hopens.shrinks
    exact hserved hmem

theorem AddressRules.insert_of_mem {clients : Finset C} (h : AddressRules userAddress clients)
    (hc : c∈clients) : AddressRules userAddress (insert c clients) :=
  (Finset.insert_eq_of_mem hc).symm ▸ h

end Invariant

section Admission

variable {s t : UploadQueue C} {evictDuplicates : Bool}

theorem shrinks_countSameIP (client : C) (evictDuplicates : Bool) (i sameIPCount : Nat)
    (s : UploadQueue C) : s.uploadingList.Nodup →
    Shrinks s (s.countSameIP userAddress env client evictDuplicates i sameIPCount).2 := by
  fun_induction UploadQueue.countSameIP userAddress env client evictDuplicates i sameIPCount s with
  | case1 => exact fun _ => .refl _
  | case2 => exact fun _ => .refl _
  | case3 i sameIPCount s h cur hne hcompare hevict hident =>
    exact fun hu => shrinks_evict hu cur
  | case4 i sameIPCount s h cur hne hcompare hevict hident ih =>
    exact fun hu => (shrinks_evict hu cur).trans (ih ((shrinks_evict hu cur).uploading.nodup hu))
  | case5 i sameIPCount s h cur hne hcompare haddr ih => exact ih
  | case6 i sameIPCount s h cur hne hcompare haddr ih => exact ih
  | case7 => exact fun _ => .refl _

theorem countSameIP_error (client : C) (evictDuplicates : Bool) (i sameIPCount : Nat)
    (s : UploadQueue C) : ∀ verdict t,
    s.countSameIP userAddress env client evictDuplicates i sameIPCount=(.error verdict, t) →
      verdict ≠ .Ok ∧ (verdict = .AlreadyQueued → client∈t.waitingList) := by
  fun_induction UploadQueue.countSameIP userAddress env client evictDuplicates i sameIPCount s with
  | case1 i sameIPCount s h cur heq =>
    intro verdict t hres
    obtain ⟨rfl,rfl⟩ := hres
    exact ⟨by simp,fun _ => heq ▸ List.getElem_mem h⟩
  | case2 => simp +contextual [eq_comm]
  | case3 => simp +contextual [eq_comm]
  | case4 i sameIPCount s h cur hne hcompare hevict hident ih => exact ih
  | case5 i sameIPCount s h cur hne hcompare haddr ih => exact ih
  | case6 i sameIPCount s h cur hne hcompare haddr ih => exact ih
  | case7 => simp

theorem countSameIP_ok (client : C) (evictDuplicates : Bool) (i sameIPCount : Nat)
    (s : UploadQueue C) {n : Nat} : s.waitingList.Nodup → client∉s.waitingList.take i →
    sameIPCount=(s.waitingList.take i).countP
      (fun c => decide (userAddress c=userAddress client)) →
    s.countSameIP userAddress env client evictDuplicates i sameIPCount=(.ok n, t) →
    client∉t.waitingList ∧
      n=t.waitingList.countP (fun c => decide (userAddress c=userAddress client)) := by
  fun_induction UploadQueue.countSameIP userAddress env client evictDuplicates i sameIPCount s with
  | case1 => intros; simp_all
  | case2 => intros; simp_all
  | case3 => intros; simp_all
  | case4 i sameIPCount s h cur hne hcompare hevict hident ih =>
    intro hw hclient hcount hres
    -- The evicted client stood at place `i`: those before it are as they were.
    have htake : (s.evict env cur).waitingList.take i=s.waitingList.take i := by
      rw [UploadQueue.evict_waitingList,hw.erase_getElem i h,
        List.take_eraseIdx_eq_take_of_le _ _ _ le_rfl]
    refine ih ?_ (htake ▸ hclient) (htake ▸ hcount) hres
    rw [UploadQueue.evict_waitingList]
    exact hw.erase cur
  | case5 i sameIPCount s h cur hne hcompare haddr ih =>
    intro hw hclient hcount hres
    have htake : s.waitingList.take (i+1)=s.waitingList.take i++[cur] :=
      List.take_succ_eq_append_getElem h
    refine ih hw ?_ ?_ hres
    · rw [htake]
      simpa using ⟨hclient,Ne.symm hne⟩
    · rw [htake,List.countP_append,hcount]
      simp [haddr]
  | case6 i sameIPCount s h cur hne hcompare haddr ih =>
    intro hw hclient hcount hres
    have htake : s.waitingList.take (i+1)=s.waitingList.take i++[cur] :=
      List.take_succ_eq_append_getElem h
    refine ih hw ?_ ?_ hres
    · rw [htake]
      simpa using ⟨hclient,Ne.symm hne⟩
    · rw [htake,List.countP_append,hcount]
      simp [Ne.symm haddr]
  | case7 i sameIPCount s h =>
    intro hw hclient hcount hres
    simp only [Prod.mk.injEq,Except.ok.injEq] at hres
    obtain ⟨rfl,rfl⟩ := hres
    rw [List.take_of_length_le (not_lt.mp h)] at hclient hcount
    exact ⟨hclient,hcount⟩

/-- What the gates have found of a client they let in. -/
structure LetIn (userAddress : C → Address) (t : UploadQueue C) (client : C) : Prop where
  not_waiting : client∉t.waitingList
  same_ip : t.waitingList.countP (fun c => decide (userAddress c=userAddress client))<3
  rules : AddressRules userAddress (insert client t.members)

theorem rules_of_ipv6Rejects (h : t.ipv6Rejects userAddress client=false)
    (hrules : AddressRules userAddress t.members) :
    AddressRules userAddress (insert client t.members) := by
  cases h6 : (userAddress client).isIPv6 with
  | false => exact hrules.insert_of_not_isIPv6 h6
  | true =>
    simp only [UploadQueue.ipv6Rejects,h6,Bool.true_and,Bool.or_eq_false_iff,
      decide_eq_false_iff_not,not_le] at h
    obtain ⟨hsame,hlead⟩ := h
    refine hrules.insert_of_counted (fun d hd hdc heq => ?_) ?_
    · have hmem : d∈t.waitingList++t.uploadingList := List.mem_toFinset.mp hd
      have hother := List.any_eq_false.mp hsame d
        (List.mem_filter.mpr ⟨hmem,by simp [hdc,heq,h6]⟩)
      exact hother (decide_eq_true heq)
    · rw [List.countP_eq_length_filter,List.filter_filter] at hlead
      refine lt_of_le_of_lt ?_ hlead
      refine le_trans (le_of_eq ?_) (List.toFinset_card_le _)
      congr 1
      ext d
      simp only [UploadQueue.members,Finset.mem_filter,List.mem_toFinset,List.mem_filter,
        Bool.and_eq_true,decide_eq_true_eq]
      tauto

theorem checkWaitingListAdmission_cases (env : QueueSurroundings C)
    (h : Sound userAddress s) (client : C) (evictDuplicates : Bool) :
    ∃ verdict t, s.checkWaitingListAdmission userAddress env client evictDuplicates =
        (verdict, t) ∧ Shrinks s t ∧ (verdict = .Ok → LetIn userAddress t client) ∧
        (verdict = .AlreadyQueued → client∈t.waitingList) := by
  have hshrinks : Shrinks s
      (s.countSameIP userAddress env client evictDuplicates 0 0).2 :=
    shrinks_countSameIP client evictDuplicates 0 0 s h.uploading_nodup
  unfold UploadQueue.checkWaitingListAdmission
  by_cases hban : s.isBanned env client=true
  · exact ⟨_,_,if_pos hban,.refl s,by simp⟩
  rw [if_neg hban]
  by_cases hed3k : env.isEd3kUploadPeer client=true
  · exact ⟨_,_,if_pos hed3k,.refl s,by simp⟩
  rw [if_neg hed3k]
  cases hscan : s.countSameIP userAddress env client evictDuplicates 0 0 with
  | mk answer q =>
    rw [hscan] at hshrinks
    cases answer with
    | error verdict =>
      obtain ⟨hok,hqueued⟩ := countSameIP_error client evictDuplicates 0 0 s verdict q hscan
      exact ⟨_,_,rfl,hshrinks,fun h => absurd h hok,hqueued⟩
    | ok sameIPCount =>
      obtain ⟨hclient,hcount⟩ := countSameIP_ok client evictDuplicates 0 0 s
        h.waiting_nodup List.not_mem_nil rfl hscan
      dsimp only
      split_ifs with hsame htracked h6
      · exact ⟨_,_,rfl,hshrinks,by simp⟩
      · exact ⟨_,_,rfl,hshrinks,by simp⟩
      · exact ⟨_,_,rfl,hshrinks,by simp⟩
      · have hrules := rules_of_ipv6Rejects (Bool.eq_false_iff.mpr h6)
          (h.of_shrinks hshrinks).rules
        exact ⟨_,_,rfl,hshrinks,fun _ => ⟨hclient,by omega,hrules⟩,by simp⟩

theorem LetIn.of_shrinks (h : LetIn userAddress s client) (hst : Shrinks s t) :
    LetIn userAddress t client where
  not_waiting hc := h.not_waiting (hst.waiting.subset hc)
  same_ip := hst.waiting.countP_le.trans_lt h.same_ip
  rules := h.rules.mono (Finset.insert_subset_insert client hst.members)

theorem Sound.enqueue (h : Sound userAddress s) (hc : LetIn userAddress s client) :
    Sound userAddress (s.enqueue client) := by
  refine ⟨?_,h.uploading_nodup,h.numbered,?_,fun a => ?_⟩
  · exact List.Nodup.append h.waiting_nodup (List.nodup_singleton client)
      (by simpa [UploadQueue.enqueue] using hc.not_waiting)
  · rw [members_enqueue]
    exact hc.rules
  · have hsame := h.same_ip a
    have hnew := hc.same_ip
    simp only [UploadQueue.enqueue,UploadQueue.setUploadState,List.countP_append,
      List.countP_singleton]
    split_ifs with ha
    · rw [of_decide_eq_true ha] at hnew
      omega
    · omega

theorem Served.enqueue (h : Served s c) (hc : c=client → client∉s.uploadingList) :
    Served (s.enqueue client) c := by
  intro hmem
  have hne : c≠client := fun hcc => hc hcc (hcc ▸ hmem)
  obtain ⟨hw,hstate⟩ := h hmem
  refine ⟨?_,?_⟩
  · simpa [UploadQueue.enqueue,UploadQueue.setUploadState] using ⟨hw,hne⟩
  · simpa [UploadQueue.enqueue,UploadQueue.setUploadState,Function.update_of_ne hne] using hstate

end Admission

section Calls

variable {s t u : UploadQueue C}

/-- The lists stay sound, and whoever was served with them is. -/
structure Keeps (userAddress : C → Address) (s t : UploadQueue C) : Prop where
  sound : Sound userAddress t
  served : ∀ c, Served s c → Served t c

theorem keeps_of_shrinks (h : Sound userAddress s) (hst : Shrinks s t) : Keeps userAddress s t :=
  ⟨h.of_shrinks hst,fun _ hc => hc.of_shrinks hst⟩

theorem keeps_addUpNextClient (h : Sound userAddress s) {directadd : Option C}
    (hdirect : ∀ client,directadd=some client →
      AddressRules userAddress (insert client s.members)) :
    Keeps userAddress s (s.addUpNextClient env directadd).2 := by
  rcases addUpNextClient_cases h.waiting_nodup h.uploading_nodup directadd with
    ⟨t,ht,hst⟩ | ⟨t,client,ht,hopens,hclient⟩
  · rw [ht]
    exact keeps_of_shrinks h hst
  · rw [ht]
    refine ⟨h.openSlot ?_ hopens,fun c hc => hc.openSlot hopens⟩
    rcases hclient with hclient | hclient
    · exact hdirect client hclient
    · exact h.rules.insert_of_mem (by simp [UploadQueue.members,hclient])

theorem keeps_reask (h : Sound userAddress s) (hc : client∈s.members) :
    Keeps userAddress s (s.reask env client) := by
  unfold UploadQueue.reask
  split_ifs
  · have hshrinks : Shrinks s
        ((s.setAddNextConnect client false).removeFromWaitingQueue client) :=
      (shrinks_setAddNextConnect false).trans (shrinks_removeFromWaitingQueue _ client)
    have hrules := (h.rules.insert_of_mem hc).mono
      (Finset.insert_subset_insert client hshrinks.members)
    have hnext : Keeps userAddress _
        (((s.setAddNextConnect client false).removeFromWaitingQueue client).addUpNextClient env
          (some client)).2 :=
      keeps_addUpNextClient (h.of_shrinks hshrinks) fun d hd => Option.some.inj hd ▸ hrules
    exact ⟨hnext.sound,fun c hserved => hnext.served c (hserved.of_shrinks hshrinks)⟩
  · exact keeps_of_shrinks h (.refl s)

/-- A slot the client holds is live. -/
def AsksServed (s : UploadQueue C) (client : C) : Prop :=
  client∈s.uploadingList → s.uploadState client = .Uploading

omit [DecidableEq C] in
theorem AsksServed.of_shrinks (h : AsksServed s c) (hserved : Served s c) (hst : Shrinks s t) :
    AsksServed t c := by
  intro hc
  have hmem := hst.uploading.subset hc
  rcases hst.state c hc (hserved hmem).1 with hsame | hlive
  · rw [hsame]
    exact h hmem
  · exact hlive

theorem sound_place (env : QueueSurroundings C) (h : Sound userAddress s)
    (hin : LetIn userAddress s client) :
    Sound userAddress (s.place env client).2 ∧ ∀ c,Served s c → (c=client → AsksServed s c) →
      Served (s.place env client).2 c := by
  have hon : Shrinks s (s.setCollectionUploadSlot client true) :=
    shrinks_setCollectionUploadSlot true
  have hoff : Shrinks s (s.setCollectionUploadSlot client false) :=
    shrinks_setCollectionUploadSlot false
  have hdirect : ∀ d,some client=some d → AddressRules userAddress (insert d s.members) :=
    fun d hd => Option.some.inj hd ▸ hin.rules
  -- A client that is put on the waiting list holds no slot, or one that is not live.
  have hqueue : ∀ t,Shrinks s t → s.uploadState client ≠ .Uploading →
      Sound userAddress (t.enqueue client) ∧ ∀ c,Served s c → (c=client → AsksServed s c) →
        Served (t.enqueue client) c := by
    intro t hst hstate
    refine ⟨(h.of_shrinks hst).enqueue (hin.of_shrinks hst),fun c hc hasks => ?_⟩
    refine (hc.of_shrinks hst).enqueue fun hcc hmem => ?_
    exact hstate (hcc ▸ hasks hcc (hcc ▸ hst.uploading.subset hmem))
  unfold UploadQueue.place
  dsimp only
  split_ifs with hbypass hlimit hlive hfast
  · have hadd : Keeps userAddress (s.setCollectionUploadSlot client true)
        ((s.setCollectionUploadSlot client true).addUpNextClient env (some client)).2 :=
      keeps_addUpNextClient (h.of_shrinks hon) hdirect
    exact ⟨hadd.sound,fun c hc _ => hadd.served c (hc.of_shrinks hon)⟩
  · exact ⟨h.of_shrinks hoff,fun c hc _ => hc.of_shrinks hoff⟩
  · exact ⟨h.of_shrinks hoff,fun c hc _ => hc.of_shrinks hoff⟩
  · have hadd : Keeps userAddress (s.setCollectionUploadSlot client false)
        ((s.setCollectionUploadSlot client false).addUpNextClient env (some client)).2 :=
      keeps_addUpNextClient (h.of_shrinks hoff) hdirect
    rcases addUpNextClient_cases (s := s.setCollectionUploadSlot client false)
      h.waiting_nodup h.uploading_nodup (some client) with ⟨t,ht,hst⟩ | ⟨t,d,ht,_⟩
    · rw [ht]
      exact hqueue t (hoff.trans hst) hlive
    · rw [ht] at hadd ⊢
      exact ⟨hadd.sound,fun c hc _ => hadd.served c (hc.of_shrinks hoff)⟩
  · exact hqueue _ hoff hlive

/-- What an ask needs of the asker for its slot to stay in order: no slot that is not live, and
no ban while it holds one. -/
def AsksInOrder (env : QueueSurroundings C) (ignoreTimeLimit : Bool) (s : UploadQueue C)
    (client : C) : Prop :=
  client∈s.uploadingList → s.uploadState client = .Uploading ∧
    (ignoreTimeLimit=true ∨ env.bannedForRequests client=false)

theorem sound_addRequestCount (env : QueueSurroundings C) (h : Sound userAddress s) (client : C)
    (ignoreTimeLimit : Bool) :
    Sound userAddress (s.addRequestCount env client ignoreTimeLimit) := by
  unfold UploadQueue.addRequestCount
  split_ifs
  · exact ⟨h.waiting_nodup,h.uploading_nodup,h.numbered,h.rules,h.same_ip⟩
  · exact h

theorem served_addRequestCount {ignoreTimeLimit : Bool} (h : Served s c)
    (hc : c=client → AsksInOrder env ignoreTimeLimit s c) :
    Served (s.addRequestCount env client ignoreTimeLimit) c ∧
      (c=client → AsksServed (s.addRequestCount env client ignoreTimeLimit) c) := by
  unfold UploadQueue.addRequestCount
  split_ifs with hban
  · -- The asker is banned: it holds no slot, so nobody who does has changed state.
    have hother : c∈s.uploadingList → c≠client := by
      rintro hmem rfl
      rcases (hc rfl hmem).2 with hignore | hfree
      · simp [hignore] at hban
      · simp [hfree] at hban
    refine ⟨fun hmem => ?_,fun hcc hmem => absurd hcc (hother hmem)⟩
    obtain ⟨hw,hstate⟩ := h hmem
    have hkept : (s.setUploadState client .Banned).uploadState c=s.uploadState c :=
      Function.update_of_ne (hother hmem) _ _
    exact ⟨hw,hkept ▸ hstate⟩
  · exact ⟨h,fun hcc hmem => (hc hcc hmem).1⟩

theorem sound_answerAsk (env : QueueSurroundings C) (h : Sound userAddress s) (client : C) :
    Sound userAddress (s.answerAsk userAddress env client).2 ∧
      ∀ c,Served s c → (c=client → AsksServed s c) →
        Served (s.answerAsk userAddress env client).2 c := by
  obtain ⟨verdict,t,ht,hst,hok,hqueued⟩ :=
    checkWaitingListAdmission_cases env h client true
  unfold UploadQueue.answerAsk
  rw [ht]
  cases verdict with
  | Rejected => exact ⟨h.of_shrinks hst,fun c hc _ => hc.of_shrinks hst⟩
  | AlreadyQueued =>
    have hmem : client∈t.members := by simp [UploadQueue.members,hqueued rfl]
    have hask : Keeps userAddress t (t.reask env client) := keeps_reask (h.of_shrinks hst) hmem
    exact ⟨hask.sound,fun c hc _ => hask.served c (hc.of_shrinks hst)⟩
  | Ok =>
    obtain ⟨hsound,hserved⟩ := sound_place env (h.of_shrinks hst) (hok rfl)
    exact ⟨hsound,fun c hc hasks =>
      hserved c (hc.of_shrinks hst) fun hcc => (hasks hcc).of_shrinks hc hst⟩

theorem sound_addClientToQueue (h : Sound userAddress s) (client : C) (ignoreTimeLimit : Bool) :
    Sound userAddress (s.addClientToQueue userAddress env client ignoreTimeLimit).2 ∧
      ∀ c,Served s c → (c=client → AsksInOrder env ignoreTimeLimit s c) →
        Served (s.addClientToQueue userAddress env client ignoreTimeLimit).2 c := by
  unfold UploadQueue.addClientToQueue
  split_ifs with hgate
  · exact ⟨h,fun c hc _ => hc⟩
  · obtain ⟨hsound,hserved⟩ := sound_answerAsk env
      (sound_addRequestCount env h client ignoreTimeLimit) client
    refine ⟨hsound,fun c hc hasks => ?_⟩
    obtain ⟨hcount,hlive⟩ := served_addRequestCount hc hasks
    exact hserved c hcount hlive

theorem sound_addRestoredClient (h : Sound userAddress s) (client : C) :
    Sound userAddress (s.addRestoredClient userAddress env client).2 ∧
      ∀ c,Served s c → (c=client → c∉s.uploadingList) →
        Served (s.addRestoredClient userAddress env client).2 c := by
  obtain ⟨verdict,t,ht,hst,hok,_⟩ :=
    checkWaitingListAdmission_cases env h client false
  have hkept := keeps_of_shrinks h hst
  unfold UploadQueue.addRestoredClient
  split_ifs with hgate
  · exact ⟨h,fun c hc _ => hc⟩
  rw [ht]
  cases verdict with
  | Rejected => exact ⟨hkept.sound,fun c hc _ => hkept.served c hc⟩
  | AlreadyQueued => exact ⟨hkept.sound,fun c hc _ => hkept.served c hc⟩
  | Ok =>
    dsimp only
    split_ifs
    · exact ⟨hkept.sound,fun c hc _ => hkept.served c hc⟩
    · refine ⟨hkept.sound.enqueue (hok rfl),fun c hc hfree => ?_⟩
      exact (hkept.served c hc).enqueue fun hcc hmem =>
        hfree hcc (hcc ▸ hst.uploading.subset hmem)

end Calls

section Runs

/-- The calls on the queue, and what the connections report. -/
inductive Call (C : Type*) where
  | addClientToQueue (env : QueueSurroundings C) (client : C) (ignoreTimeLimit : Bool)
  | addRestoredClient (env : QueueSurroundings C) (client : C)
  | addUpNextClient (env : QueueSurroundings C) (directadd : Option C)
  | findBestClientInQueue (env : QueueSurroundings C)
  | removeFromWaitingQueue (client : C)
  | removeFromUploadQueue (client : C)
  | onHandshakeCompleted (client : C)
  | disconnected (client : C)

def step (userAddress : C → Address) (s : UploadQueue C) : Call C → UploadQueue C
  | .addClientToQueue env client ignoreTimeLimit =>
    (s.addClientToQueue userAddress env client ignoreTimeLimit).2
  | .addRestoredClient env client => (s.addRestoredClient userAddress env client).2
  | .addUpNextClient env directadd => (s.addUpNextClient env directadd).2
  | .findBestClientInQueue env => (s.findBestClientInQueue env).2
  | .removeFromWaitingQueue client => s.removeFromWaitingQueue client
  | .removeFromUploadQueue client => s.removeFromUploadQueue client
  | .onHandshakeCompleted client => s.onHandshakeCompleted client
  | .disconnected client => s.disconnected client

/-- Whoever is handed to a promotion is on one of the lists. -/
def HandsMember (s : UploadQueue C) : Call C → Prop
  | .addUpNextClient _ (some client) => client∈s.waitingList ∨ client∈s.uploadingList
  | _ => True

/-- The client does not ask while it holds a slot that is not live, is not banned for an ask
while it holds a slot, and is not restored while it holds one. -/
def InOrder (c : C) (s : UploadQueue C) : Call C → Prop
  | .addClientToQueue env client ignoreTimeLimit =>
    c = client → AsksInOrder env ignoreTimeLimit s c
  | .addRestoredClient _ client => c = client → c ∉ s.uploadingList
  | _ => True

variable {s : UploadQueue C}

theorem sound_step (h : Sound userAddress s) (call : Call C) (hok : HandsMember s call) :
    Sound userAddress (step userAddress s call) ∧
      ∀ c,Served s c → InOrder c s call → Served (step userAddress s call) c := by
  have hkept : ∀ t,Shrinks s t → Sound userAddress t ∧
      ∀ c,Served s c → InOrder c s call → Served t c := fun t hst =>
    ⟨h.of_shrinks hst,fun c hc _ => hc.of_shrinks hst⟩
  cases call with
  | addClientToQueue env client ignoreTimeLimit =>
    exact sound_addClientToQueue h client ignoreTimeLimit
  | addRestoredClient env client => exact sound_addRestoredClient h client
  | addUpNextClient env directadd =>
    have hadd : Keeps userAddress s (s.addUpNextClient env directadd).2 := by
      refine keeps_addUpNextClient h fun client hclient => ?_
      subst hclient
      exact h.rules.insert_of_mem (by simpa [UploadQueue.members,HandsMember] using hok)
    exact ⟨hadd.sound,fun c hc _ => hadd.served c hc⟩
  | findBestClientInQueue env => exact hkept _ (shrinks_findBestClientInQueue s)
  | removeFromWaitingQueue client => exact hkept _ (shrinks_removeFromWaitingQueue s client)
  | removeFromUploadQueue client =>
    exact hkept _ (shrinks_removeFromUploadQueue h.uploading_nodup client)
  | onHandshakeCompleted client => exact hkept _ (shrinks_onHandshakeCompleted s client)
  | disconnected client => exact hkept _ (shrinks_disconnected h.uploading_nodup client)

/-- In every run the lists are sound, and a client whose own calls are in order is served well. -/
theorem lists_sound (userAddress : C → Address) (calls : List (Call C))
    (hhands : Along (step userAddress) HandsMember UploadQueue.init calls) :
    Sound userAddress (run (step userAddress) UploadQueue.init calls) ∧
      ∀ c, Along (step userAddress) (InOrder c) UploadQueue.init calls →
        Served (run (step userAddress) UploadQueue.init calls) c := by
  have hstep : ∀ s call,Sound userAddress s → HandsMember s call →
      Sound userAddress (step userAddress s call) := fun s call h hok =>
    (sound_step h call hok).1
  refine ⟨run_invariant hstep sound_init hhands,fun c hc => ?_⟩
  have hserve : ∀ s call,Sound userAddress s ∧ Served s c →
      (HandsMember s call ∧ (True → InOrder c s call)) →
      Sound userAddress (step userAddress s call) ∧ Served (step userAddress s call) c := by
    rintro s call ⟨h,hserved⟩ ⟨hok,horder⟩
    obtain ⟨hsound,hnext⟩ := sound_step h call hok
    exact ⟨hsound,hnext c hserved (horder trivial)⟩
  exact (run_invariant hserve ⟨sound_init,served_init c⟩ (along_and hhands fun _ => hc)).2

/-- Everybody is let in; a dial is started and goes on. -/
def openHouse : QueueSurroundings Bool where
  isConnected := true
  isFirewalled := false
  isLocalServer := none
  kadPort := fun _ => 0
  downloadState := fun _ => .None
  friendPtr := fun _ => false
  friendSlot := fun _ => false
  bannedForRequests := fun _ => false
  isUploadBannedClient := fun _ => some false
  isEd3kUploadPeer := fun _ => false
  compare := fun _ _ => false
  hasPassedSecureIdent := fun _ => false
  socket := fun _ => none
  clientsFromIP := none
  sharedFiles := none
  queueSize := 1000
  reachesAverageRank := fun _ => true
  acceptsSlot := fun _ => true
  forcesSlot := fun _ => false
  curTick := 0
  lastUpRequest := fun _ => 0
  isSlotCoolingDown := fun _ => false
  score := fun _ => 1
  isReachableForSlot := fun _ => true
  isIPv6Connection := fun _ => false
  separateIPv6Queue := false
  uploadSocketReady := fun _ => false
  tryToConnect := fun _ => .started

/-- Two clients take slots and one of them asks again on a live connection. -/
theorem lists_sound_two_slots :
    Sound (fun c : Bool => .ipv4 (if c then 1 else 2))
        (run (step fun c : Bool => .ipv4 (if c then 1 else 2)) UploadQueue.init
          [.addClientToQueue openHouse true false, .addClientToQueue openHouse false false,
            .onHandshakeCompleted true, .addClientToQueue openHouse true false]) ∧
      Served (run (step fun c : Bool => .ipv4 (if c then 1 else 2)) UploadQueue.init
          [.addClientToQueue openHouse true false, .addClientToQueue openHouse false false,
            .onHandshakeCompleted true, .addClientToQueue openHouse true false]) true := by
  have hruns := lists_sound (fun c : Bool => .ipv4 (if c then 1 else 2))
    [.addClientToQueue openHouse true false,.addClientToQueue openHouse false false,
      .onHandshakeCompleted true,.addClientToQueue openHouse true false]
    ⟨trivial,trivial,trivial,trivial,trivial⟩
  refine ⟨hruns.1,hruns.2 true ⟨?_,?_,trivial,?_,trivial⟩⟩
  · exact fun _ hmem => absurd hmem List.not_mem_nil
  · exact fun hcc => absurd hcc (by decide)
  · exact fun _ _ => ⟨by decide +kernel,.inr rfl⟩

/-- A client that asks while its dial is on ends up on both lists; one restored while it has a
slot does too; one banned for its requests keeps its slot; and a promotion handed clients from
nowhere puts one IPv6 address on the list twice. -/
theorem on_both_lists :
    (let s := run (step fun c : Bool => .ipv4 (if c then 1 else 2)) UploadQueue.init
        [.addClientToQueue openHouse true false, .addClientToQueue openHouse true false];
      s.waitingList = [true] ∧ s.uploadingList = [true] ∧ s.uploadState true = .OnUploadQueue) ∧
    (let s := run (step fun c : Bool => .ipv4 (if c then 1 else 2)) UploadQueue.init
        [.addClientToQueue openHouse true false, .addRestoredClient openHouse true];
      s.waitingList = [true] ∧ s.uploadingList = [true]) ∧
    (let s := run (step fun c : Bool => .ipv4 (if c then 1 else 2)) UploadQueue.init
        [.addClientToQueue openHouse true false, .onHandshakeCompleted true,
          .addClientToQueue { openHouse with
            bannedForRequests := id, isUploadBannedClient := some } true false];
      s.uploadingList = [true] ∧ s.uploadState true = .Banned) ∧
    (run (step fun _ : Bool => .ipv6 ⟨List.replicate 16 1, rfl⟩) UploadQueue.init
        [.addUpNextClient openHouse (some true), .addUpNextClient openHouse (some false)]
      ).uploadingList = [true, false] := by
  decide +kernel

end Runs

end EmuleQt.Transfer
