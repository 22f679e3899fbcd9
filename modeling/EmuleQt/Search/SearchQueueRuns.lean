import EmuleQt.Search.SearchQueue

namespace EmuleQt.Search

open Framework Utils

namespace SearchQueue

/-- The server search or page that is out: one at a time, and ended once. -/
def laneStep (lane : Option UInt32) : Event → Option (Option UInt32)
  | .dispatch searchID type outcome _ =>
    if outcome = .Sent ∧ isServerType type=true then
      if lane=none then some (some searchID) else none
    else some lane
  | .continueServerSearch searchID => if lane=none then some (some searchID) else none
  | .endServerSearch searchID => if lane=some searchID then some none else none
  | _ => some lane

/-- The last server search that was sent, by itself or for a page. -/
def lastStep (last : Option UInt32) : Event → Option UInt32
  | .dispatch searchID type outcome _ =>
    if outcome = .Sent ∧ isServerType type=true then some searchID else last
  | .continueServerSearch searchID => some searchID
  | _ => last

/-- The search the server has answered in this session, and since a search was sent. -/
def answerStep (answer : Option UInt32) : Event → Option UInt32
  | .dispatch _ type outcome _ =>
    if outcome = .Sent ∧ isServerType type=true then none else answer
  | .continueServerSearch _ => none
  | .serverAnswer searchID => some searchID
  | .serverDisconnected => none
  | _ => answer

/-- No server search is dispatched past an entry that resolves to a server type. -/
def Ordered : Event → Prop
  | .dispatch _ type _ ahead =>
    isServerType type = true → ∀ t, some t ∈ ahead → isServerType t = false
  | _ => True

/-- The server answers the entry, and nobody else does. -/
def InLane (e : Entry) : Prop :=
  isServerType e.status.type=true ∧ e.kad=false ∧ e.awaitsMeta=false

structure Sound (q : SearchQueue) : Prop where
  ids : (q.entries.map Entry.id).Nodup
  nonzero : ∀ e ∈ q.entries, e.id ≠ 0
  lane : runChecked laneStep none q.history =
    some (if q.inFlight = 0 then none else some q.inFlight)
  flight : q.inFlight ≠ 0 → run lastStep none q.history = some q.inFlight ∧
    ∃ e ∈ q.entries, e.id = q.inFlight ∧ e.status.state = .Running ∧ InLane e
  running : ∀ e ∈ q.entries, e.status.state = .Running →
    e.id = q.inFlight ∨ e.kad = true ∨ e.awaitsMeta = true
  page : ∀ e ∈ q.entries, e.serverPage = true → e.status.state ≠ .Queued ∧ InLane e ∧
    run lastStep none q.history = some e.id ∧ run answerStep none q.history = some e.id
  order : ∀ ev ∈ q.history, Ordered ev

/-- An event that neither sends nor ends, nor answers. -/
structure Neutral (ev : Event) : Prop where
  lane : ∀ lane, laneStep lane ev=some lane
  last : ∀ last, lastStep last ev=last
  answer : ∀ answer, answerStep answer ev=answer
  order : Ordered ev

variable {q : SearchQueue} {e : Entry} {events : List Event}

theorem runChecked_neutral (h : ∀ ev∈events,Neutral ev) (lane : Option UInt32) :
    runChecked laneStep lane events=some lane := by
  induction events with
  | nil => rfl
  | cons ev events ih =>
    rw [runChecked_cons,(h ev List.mem_cons_self).lane,Option.bind_some]
    exact ih fun ev' hev' => h ev' (List.mem_cons_of_mem ev hev')

theorem run_last_neutral (h : ∀ ev∈events,Neutral ev) (last : Option UInt32) :
    run lastStep last events=last := by
  induction events with
  | nil => rfl
  | cons ev events ih =>
    rw [run_cons,(h ev List.mem_cons_self).last]
    exact ih fun ev' hev' => h ev' (List.mem_cons_of_mem ev hev')

theorem run_answer_neutral (h : ∀ ev∈events,Neutral ev) (answer : Option UInt32) :
    run answerStep answer events=answer := by
  induction events with
  | nil => rfl
  | cons ev events ih =>
    rw [run_cons,(h ev List.mem_cons_self).answer]
    exact ih fun ev' hev' => h ev' (List.mem_cons_of_mem ev hev')

theorem Sound.log (h : q.Sound) (hevents : ∀ ev∈events,Neutral ev) : (q.log events).Sound := by
  refine ⟨h.ids,h.nonzero,?_,?_,h.running,?_,?_⟩
  · change runChecked laneStep none (q.history++events)=_
    rw [runChecked_append,h.lane,Option.bind_some]
    exact runChecked_neutral hevents _
  · intro hflight
    obtain ⟨hlast,hentry⟩ := h.flight hflight
    refine ⟨?_,hentry⟩
    change run lastStep none (q.history++events)=_
    rw [run_append,hlast]
    exact run_last_neutral hevents _
  · intro e he hpage
    obtain ⟨hstate,hlane,hlast,hanswer⟩ := h.page e he hpage
    refine ⟨hstate,hlane,?_,?_⟩
    · change run lastStep none (q.history++events)=_
      rw [run_append,hlast]
      exact run_last_neutral hevents _
    · change run answerStep none (q.history++events)=_
      rw [run_append,hanswer]
      exact run_answer_neutral hevents _
  · intro ev hev
    rcases List.mem_append.mp hev with hold | hnew
    · exact h.order ev hold
    · exact (hevents ev hnew).order

variable {f : Entry → Entry} {e' : Entry} {r : Entry → Entry → Prop} {xs ys zs : List Entry}
  {searchID : UInt32}

theorem Sound.become (h : q.Sound) {ev : Event} {es : List Entry}
    {flight : UInt32} {deadline : Int} (hes : es=q.entries.map f)
    (hid : ∀ e∈q.entries,(f e).id=e.id)
    (hlane : laneStep (if q.inFlight=0 then none else some q.inFlight) ev =
      some (if flight=0 then none else some flight))
    (hflight : flight≠0 → lastStep (run lastStep none q.history) ev=some flight ∧
      ∃ e∈q.entries, e.id=flight ∧ (f e).status.state = .Running ∧ InLane (f e))
    (hrunning : ∀ e∈q.entries,(f e).status.state = .Running →
      e.id=flight ∨ (f e).kad=true ∨ (f e).awaitsMeta=true)
    (hpage : ∀ e∈q.entries,(f e).serverPage=true →
      (f e).status.state ≠ .Queued ∧ InLane (f e) ∧
        lastStep (run lastStep none q.history) ev=some e.id ∧
        answerStep (run answerStep none q.history) ev=some e.id)
    (horder : Ordered ev) :
    Sound { q.log [ev] with
      entries := es, inFlight := flight, inFlightDeadlineMs := deadline } := by
  subst hes
  have hids : (q.entries.map f).map Entry.id=q.entries.map Entry.id := by
    rw [List.map_map]
    exact List.map_congr_left hid
  have hlast : run lastStep none (q.history++[ev])=lastStep (run lastStep none q.history) ev :=
    run_append _ _ _ _
  have hanswer : run answerStep none (q.history++[ev]) =
      answerStep (run answerStep none q.history) ev := run_append _ _ _ _
  refine ⟨hids ▸ h.ids,List.forall_mem_map.mpr fun e he => ?_,?_,fun hne => ?_,
    List.forall_mem_map.mpr fun e he => ?_,List.forall_mem_map.mpr fun e he hkept => ?_,?_⟩
  · rw [hid e he]
    exact h.nonzero e he
  · change runChecked laneStep none (q.history++[ev])=_
    rw [runChecked_append,h.lane,Option.bind_some,runChecked_cons,hlane]
    rfl
  · obtain ⟨hsent,e,he,hin,hrest⟩ := hflight hne
    exact ⟨hlast.trans hsent,f e,List.mem_map_of_mem he,(hid e he).trans hin,hrest⟩
  · rw [hid e he]
    exact hrunning e he
  · obtain ⟨hstate,hin,hsent,hcame⟩ := hpage e he hkept
    rw [hid e he]
    exact ⟨hstate,hin,hlast.trans hsent,hanswer.trans hcame⟩
  · exact List.forall_mem_append.mpr ⟨h.order,List.forall_mem_singleton.mpr horder⟩

/-- What an entry may become while the lane stays as it is. -/
structure Keeps (q : SearchQueue) (e e' : Entry) : Prop where
  id : e'.id = e.id
  flight : e.id = q.inFlight → e'.status.state = e.status.state ∧ (InLane e → InLane e')
  running : e'.status.state = .Running → e.id = q.inFlight ∨ e'.kad = true ∨ e'.awaitsMeta = true
  page : e'.serverPage = true → e.serverPage = true ∧ e'.status.state ≠ .Queued ∧ InLane e'

theorem Sound.keeps (h : q.Sound) (he : e∈q.entries) : Keeps q e e :=
  ⟨rfl,fun _ => ⟨rfl,id⟩,h.running e he,fun hpage =>
    ⟨hpage,(h.page e he hpage).1,(h.page e he hpage).2.1⟩⟩

theorem Sound.map (h : q.Sound) (hf : ∀ e∈q.entries,Keeps q e (f e)) :
    Sound { q with entries := q.entries.map f } := by
  have hids : (q.entries.map f).map Entry.id=q.entries.map Entry.id := by
    rw [List.map_map]
    exact List.map_congr_left fun e he => (hf e he).id
  refine ⟨hids ▸ h.ids,?_,h.lane,?_,?_,?_,h.order⟩
  · intro e' he'
    obtain ⟨e,he,rfl⟩ := List.mem_map.mp he'
    rw [(hf e he).id]
    exact h.nonzero e he
  · intro hflight
    obtain ⟨hlast,e,he,hid,hstate,hlane⟩ := h.flight hflight
    obtain ⟨hsame,hin⟩ := (hf e he).flight hid
    exact ⟨hlast,f e,List.mem_map_of_mem he,(hf e he).id.trans hid,hsame.trans hstate,hin hlane⟩
  · intro e' he' hrunning
    obtain ⟨e,he,rfl⟩ := List.mem_map.mp he'
    rw [(hf e he).id]
    exact (hf e he).running hrunning
  · intro e' he' hpage
    obtain ⟨e,he,rfl⟩ := List.mem_map.mp he'
    obtain ⟨hold,hstate,hlane⟩ := (hf e he).page hpage
    obtain ⟨-,-,hlast,hanswer⟩ := h.page e he hold
    rw [(hf e he).id]
    exact ⟨hstate,hlane,hlast,hanswer⟩

theorem Sound.eq_of_id (h : q.Sound) (he : e∈q.entries) (he' : e'∈q.entries)
    (hid : e'.id=e.id) : e'=e := List.inj_on_of_nodup_map h.ids he' he hid

theorem Sound.update (h : q.Sound) (he : e∈q.entries) (hf : Keeps q e (f e)) :
    (q.update e.id f).Sound := by
  apply h.map
  intro e' he'
  split_ifs with hid
  · rw [h.eq_of_id he he' hid]
    exact hf
  · exact h.keeps he'

theorem Sound.ne_inFlight (h : q.Sound) (he : e∈q.entries) (hstate : e.status.state ≠ .Running) :
    e.id≠q.inFlight := by
  intro hid
  obtain ⟨-,e',he',hid',hrunning,-⟩ := h.flight (hid ▸ h.nonzero e he)
  rw [h.eq_of_id he he' (hid'.trans hid.symm)] at hrunning
  exact hstate hrunning

theorem Sound.update_aside (h : q.Sound) (he : e∈q.entries) (hne : e.id≠q.inFlight)
    (hid : (f e).id=e.id)
    (hrunning : (f e).status.state = .Running → (f e).kad=true ∨ (f e).awaitsMeta=true)
    (hpage : (f e).serverPage=false) : (q.update e.id f).Sound := by
  refine h.update he ⟨hid,fun hflight => absurd hflight hne,fun hrun => .inr (hrunning hrun),?_⟩
  intro hpage'
  rw [hpage] at hpage'
  cases hpage'

theorem dropPage_spec (e : Entry) :
    e.dropPage.id=e.id ∧ e.dropPage.status.state=e.status.state ∧
    e.dropPage.status.type=e.status.type ∧ e.dropPage.kad=e.kad ∧
    e.dropPage.awaitsMeta=e.awaitsMeta ∧ e.dropPage.serverPage=false ∧
    e.dropPage.dedupKey=e.dedupKey := by
  unfold Entry.dropPage
  split_ifs with hpage
  · exact ⟨rfl,rfl,rfl,rfl,rfl,rfl,rfl⟩
  · exact ⟨rfl,rfl,rfl,rfl,rfl,by simpa using hpage,rfl⟩

theorem Sound.keeps_dropPage (h : q.Sound) (he : e∈q.entries) : Keeps q e e.dropPage := by
  obtain ⟨hid,hstate,htype,hkad,hmeta,hpage,-⟩ := dropPage_spec e
  refine ⟨hid,fun _ => ⟨hstate,?_⟩,?_,?_⟩
  · unfold InLane
    rw [htype,hkad,hmeta]
    exact id
  · rw [hstate,hkad,hmeta]
    exact h.running e he
  · rw [hpage]
    exact nofun

theorem Sound.dropServerPages (h : q.Sound) (keep : UInt32) : (q.dropServerPages keep).Sound := by
  apply h.map
  intro e he
  split_ifs
  · exact h.keeps he
  · exact h.keeps_dropPage he

theorem Sound.sent_server (h : q.Sound) (hfree : q.inFlight=0) (he : e∈q.entries)
    {type : SearchType} {b : Backend} {ahead : List (Option SearchType)}
    (hserver : isServerType type=true) (hmeta : (b.dispatch e.id).awaitsMeta=false)
    (hahead : ∀ t,some t∈ahead → isServerType t=false) :
    ((q.log [.dispatch e.id type .Sent ahead]).sent b e type).Sound := by
  have hlane : InLane (e.sentOff type (b.dispatch e.id) b.nowMs) := by
    refine ⟨hserver,?_,hmeta⟩
    change (!isServerType type && _)=false
    rw [hserver]
    rfl
  rw [sent,if_pos hserver]
  refine h.become (f := fun x => if x.id=e.id then x.sentOff type (b.dispatch e.id) b.nowMs
    else x.dropPage) ?_ (fun x _ => ?_) ?_ (fun _ => ?_) (fun x hx => ?_) (fun x _ => ?_)
    fun _ => hahead
  · change (q.entries.map _).map _ = _
    rw [List.map_map]
    apply List.map_congr_left
    intro x _
    by_cases hid : x.id=e.id <;> simp [hid,(dropPage_spec x).1]
  · split_ifs
    · rfl
    · exact (dropPage_spec x).1
  · rw [if_pos hfree,if_neg (h.nonzero e he),laneStep,if_pos ⟨rfl,hserver⟩,if_pos rfl]
  · rw [lastStep,if_pos ⟨rfl,hserver⟩]
    exact ⟨rfl,e,he,rfl,by rw [if_pos rfl]; rfl,by rwa [if_pos rfl]⟩
  · split_ifs with hid
    · exact fun _ => .inl hid
    · obtain ⟨-,hstate,-,hkad,hawaits,-⟩ := dropPage_spec x
      rw [hstate,hkad,hawaits]
      exact fun hrunning => .inr ((h.running x hx hrunning).resolve_left fun hin =>
        h.nonzero x hx (hin.trans hfree))
  · have hnopage : (x.sentOff type (b.dispatch e.id) b.nowMs).serverPage=false := by
      change (x.serverPage && !isServerType type)=false
      rw [hserver,Bool.not_true,Bool.and_false]
    split_ifs
    · rw [hnopage]
      exact nofun
    · rw [(dropPage_spec x).2.2.2.2.2.1]
      exact nofun

/-- What an entry in the lane may become when the lane is given up. -/
structure Leaves (e e' : Entry) : Prop where
  id : e'.id = e.id
  state : e'.status.state ≠ .Running
  page : e'.serverPage = true → e.serverPage = true ∧ e'.status.state ≠ .Queued ∧
    (InLane e → InLane e')

theorem Sound.endLane (h : q.Sound) (hflight : q.inFlight≠0)
    (hf : ∀ e∈q.entries,e.id=q.inFlight → Leaves e (f e)) :
    Sound { (q.log [.endServerSearch q.inFlight]).update q.inFlight f with inFlight := 0 } := by
  refine h.become rfl (fun x hx => ?_) ?_ (fun hne => absurd rfl hne) (fun x hx hrunning => ?_)
    (fun x hx hpage => ?_) trivial
  · split_ifs with hin
    · exact (hf x hx hin).id
    · rfl
  · rw [if_neg hflight,laneStep,if_pos rfl,if_pos rfl]
  · split_ifs at hrunning ⊢ with hin
    · exact absurd hrunning (hf x hx hin).state
    · exact .inr ((h.running x hx hrunning).resolve_left hin)
  · split_ifs at hpage ⊢ with hin
    · obtain ⟨hold,hqueued,hlane⟩ := (hf x hx hin).page hpage
      obtain ⟨-,hxlane,hrest⟩ := h.page x hx hold
      exact ⟨hqueued,hlane hxlane,hrest⟩
    · exact h.page x hx hpage

/-- What becomes of an entry that is not revived. -/
structure Later (e e' : Entry) : Prop where
  id : e'.id = e.id
  key : e'.dedupKey = e.dedupKey
  live : Live e' → Live e
  finished : e.status.state = .Finished → e'.status.state = .Finished

/-- What a walk of the queue makes of an entry: a search that runs goes on as it is, or is done. -/
structure Steady (e e' : Entry) : Prop extends Later e e' where
  running : e.status.state = .Running → e'.status.state = .Finished ∨
    (e'.status.state = .Running ∧ e'.kad = e.kad ∧ e'.awaitsMeta = e.awaitsMeta ∧
      e'.sentAtMs = e.sentAtMs)

theorem Later.refl (e : Entry) : Later e e := ⟨rfl,rfl,fun hlive => hlive,fun h => h⟩

theorem Later.trans {e₁ e₂ e₃ : Entry} (h : Later e₁ e₂) (h' : Later e₂ e₃) : Later e₁ e₃ :=
  ⟨h'.id.trans h.id,h'.key.trans h.key,fun hlive => h.live (h'.live hlive),
    fun hfinished => h'.finished (h.finished hfinished)⟩

theorem Steady.refl (e : Entry) : Steady e e :=
  ⟨Later.refl e,fun hrunning => .inr ⟨hrunning,rfl,rfl,rfl⟩⟩

theorem Steady.trans {e₁ e₂ e₃ : Entry} (h : Steady e₁ e₂) (h' : Steady e₂ e₃) : Steady e₁ e₃ := by
  refine ⟨h.toLater.trans h'.toLater,?_⟩
  intro hrunning
  rcases h.running hrunning with hdone | ⟨hgoes,hkad,hmeta,hsent⟩
  · exact .inl (h'.finished hdone)
  rcases h'.running hgoes with hdone | ⟨hgoes',hkad',hmeta',hsent'⟩
  · exact .inl hdone
  · exact .inr ⟨hgoes',hkad'.trans hkad,hmeta'.trans hmeta,hsent'.trans hsent⟩

theorem forall₂_trans (hr : ∀ {x y z}, r x y → r y z → r x z) (h : List.Forall₂ r xs ys)
    (h' : List.Forall₂ r ys zs) : List.Forall₂ r xs zs := by
  induction h generalizing zs with
  | nil => exact h'
  | cons hx _ ih =>
    cases h' with
    | cons hy hys => exact .cons (hr hx hy) (ih hys)

theorem steady_trans (h : List.Forall₂ Steady xs ys) (h' : List.Forall₂ Steady ys zs) :
    List.Forall₂ Steady xs zs :=
  forall₂_trans (fun h h' => h.trans h') h h'

theorem later_trans (h : List.Forall₂ Later xs ys) (h' : List.Forall₂ Later ys zs) :
    List.Forall₂ Later xs zs :=
  forall₂_trans (fun h h' => h.trans h') h h'

theorem forall₂_map (hf : ∀ e∈xs,r e (f e)) : List.Forall₂ r xs (xs.map f) := by
  rw [List.forall₂_map_right_iff]
  exact List.forall₂_same.mpr hf

theorem forall₂_update {id : UInt32} (hr : ∀ e,r e e)
    (hf : ∀ e∈q.entries,e.id=id → r e (f e)) :
    List.Forall₂ r q.entries (q.update id f).entries := by
  apply forall₂_map
  intro e he
  split_ifs with hid
  · exact hf e he hid
  · exact hr e

theorem steady_dropPage (e : Entry) : Steady e e.dropPage := by
  unfold Entry.dropPage
  split_ifs
  · exact ⟨⟨rfl,rfl,fun hlive => hlive,fun h => h⟩,fun h => .inr ⟨h,rfl,rfl,rfl⟩⟩
  · exact Steady.refl e

theorem steady_dropServerPages (keep : UInt32) :
    List.Forall₂ Steady q.entries (q.dropServerPages keep).entries := by
  apply forall₂_map
  intro e _
  split_ifs
  · exact Steady.refl e
  · exact steady_dropPage e

theorem steady_of_queued (hqueued : e.status.state = .Queued) (hid : e'.id=e.id)
    (hkey : e'.dedupKey=e.dedupKey) : Steady e e' := by
  refine ⟨⟨hid,hkey,fun _ => .inl hqueued,fun h => ?_⟩,fun h => ?_⟩ <;>
    cases hqueued.symm.trans h

theorem later_of_running (hrunning : e.status.state = .Running) (hid : e'.id=e.id)
    (hkey : e'.dedupKey=e.dedupKey) : Later e e' := by
  refine ⟨hid,hkey,fun _ => .inr hrunning,fun h => ?_⟩
  cases hrunning.symm.trans h

theorem steady_of_finished (hid : e'.id=e.id) (hkey : e'.dedupKey=e.dedupKey)
    (hstate : e'.status.state = .Finished) : Steady e e' := by
  refine ⟨⟨hid,hkey,?_,fun _ => hstate⟩,fun _ => .inl hstate⟩
  rintro (hlive | hlive) <;> cases hstate.symm.trans hlive

theorem later_of_steady (h : List.Forall₂ Steady xs ys) :
    List.Forall₂ Later xs ys := h.imp fun _ _ => Steady.toLater

theorem setWaiting_spec (reason : QString) (e : Entry) : (e.setWaiting reason).id=e.id ∧
    (e.setWaiting reason).status.state = .Queued ∧
    (e.setWaiting reason).dedupKey=e.dedupKey ∧
    (e.setWaiting reason).serverPage=e.serverPage := by
  unfold Entry.setWaiting
  split_ifs with hsame
  · exact ⟨rfl,hsame.1,rfl,rfl⟩
  · exact ⟨rfl,rfl,rfl,rfl⟩

theorem sendFailed_spec (e : Entry) : e.sendFailed.id=e.id ∧
    (e.sendFailed.status.state = .Queued ∨ e.sendFailed.status.state = .Failed) ∧
    e.sendFailed.dedupKey=e.dedupKey ∧ e.sendFailed.serverPage=e.serverPage := by
  unfold Entry.sendFailed
  dsimp only
  split_ifs
  · exact ⟨rfl,.inr rfl,rfl,rfl⟩
  · obtain ⟨hid,hstate,hkey,hpage⟩ := setWaiting_spec SearchWait.ServerConnection
      { e with sendRetries := e.sendRetries+1 }
    exact ⟨hid,.inl hstate,hkey,hpage⟩

/-- A search that goes to a server does not await a Meta API. -/
def ServerAwaitsNoMeta (b : Backend) : Prop :=
  ∀ searchID type, b.resolve searchID=some type → isServerType type=true →
    (b.dispatch searchID).awaitsMeta=false

/-- An entry that still waits and would go to a server. -/
def Blocks (b : Backend) (e : Entry) : Prop :=
  e.status.state = .Queued ∧ ∃ type, b.resolve e.id = some type ∧ isServerType type = true

/-- What holds where the walk has come to: a free lane means that no entry behind goes to a
server. -/
structure Walking (b : Backend) (start : List Entry) (walk : SearchQueue × Bool) (i : Nat) :
    Prop where
  sound : walk.1.Sound
  later : List.Forall₂ Steady start walk.1.entries
  free : walk.2 = false → walk.1.inFlight = 0 ∧ ∀ e ∈ walk.1.entries.take i, ¬ Blocks b e

variable {b : Backend} {start : List Entry} {held : Bool} {i : Nat}

theorem Walking.update (h : Walking b start (q, held) i) (hi : q.entries[i]? = some e)
    {q₁ : SearchQueue} {held' : Bool} (hheld : held'=false → held=false)
    (hentries : q₁.entries=q.entries) (hflight : q₁.inFlight=q.inFlight)
    (hsound : (q₁.update e.id f).Sound) (hlater : Steady e (f e))
    (hfree : held'=false → ¬ Blocks b (f e)) :
    Walking b start (q₁.update e.id f, held') (i+1) := by
  have he : e∈q.entries := List.mem_of_getElem? hi
  refine ⟨hsound,?_,?_⟩
  · apply steady_trans h.later
    change List.Forall₂ Steady q.entries (q₁.entries.map _)
    rw [hentries]
    apply forall₂_update Steady.refl
    intro x hx hid
    rw [h.sound.eq_of_id he hx hid]
    exact hlater
  · intro hno
    obtain ⟨hzero,hbefore⟩ := h.free (hheld hno)
    refine ⟨hflight.trans hzero,?_⟩
    intro x hx
    change x∈(q₁.entries.map _).take (i+1) at hx
    rw [hentries,← List.map_take,List.take_add_one,hi] at hx
    obtain ⟨y,hy,rfl⟩ := List.mem_map.mp hx
    split_ifs with hid
    · have hye : y∈q.entries := by
        rcases List.mem_append.mp hy with hold | hnew
        · exact List.mem_of_mem_take hold
        · rw [List.mem_singleton.mp hnew]
          exact he
      rw [h.sound.eq_of_id he hye hid]
      exact hfree hno
    · rcases List.mem_append.mp hy with hold | hnew
      · exact hbefore y hold
      · rw [List.mem_singleton.mp hnew] at hid
        exact absurd rfl hid

theorem Walking.waits (h : Walking b start (q, held) i) (hi : q.entries[i]? = some e)
    (hqueued : e.status.state = .Queued) (hid : (f e).id=e.id)
    (hkey : (f e).dedupKey=e.dedupKey) (hpage : (f e).serverPage=e.serverPage)
    (hstate : (f e).status.state ≠ .Running) {q₁ : SearchQueue} {held' : Bool}
    (hheld : held'=false → held=false) (hentries : q₁.entries=q.entries)
    (hflight : q₁.inFlight=q.inFlight) (hsound : q₁.Sound)
    (hfree : held'=false → ¬ Blocks b (f e)) :
    Walking b start (q₁.update e.id f, held') (i+1) := by
  have he : e∈q.entries := List.mem_of_getElem? hi
  have hnopage : e.serverPage=false := by
    by_contra hne
    exact (h.sound.page e he (by simpa using hne)).1 hqueued
  apply h.update hi hheld hentries hflight _ (steady_of_queued hqueued hid hkey) hfree
  have hne : e.id≠q₁.inFlight := by
    rw [hflight]
    exact h.sound.ne_inFlight he (by rw [hqueued]; exact nofun)
  apply hsound.update_aside (hentries ▸ he) hne hid _ (hpage.trans hnopage)
  exact fun hrunning => absurd hrunning hstate

theorem not_running_of_queued (h : e.status.state = .Queued) : e.status.state ≠ .Running := by
  rw [h]
  exact nofun

theorem Walking.ahead (h : Walking b start (q, held) i) (hfree : held=false) :
    ∀ t,some t∈q.ahead b i → isServerType t=false := by
  intro t ht
  obtain ⟨x,hx,hresolve⟩ := List.mem_map.mp ht
  obtain ⟨hin,hqueued⟩ := List.mem_filter.mp hx
  by_contra hserver
  exact (h.free hfree).2 x hin
    ⟨of_decide_eq_true hqueued,t,hresolve,Bool.eq_true_of_not_eq_false hserver⟩

theorem dispatchAt_walking (h : Walking b start (q, held) i) (hb : ServerAwaitsNoMeta b)
    (hi : q.entries[i]? = some e) (hqueued : e.status.state = .Queued) {type : SearchType}
    (htype : b.resolve e.id=some type) (hlane : isServerType type=true → held=false) :
    Walking b start (dispatchAt b q held i e type) (i+1) := by
  have he : e∈q.entries := List.mem_of_getElem? hi
  have hahead : isServerType type=true → ∀ t,some t∈q.ahead b i → isServerType t=false :=
    fun hserver => h.ahead (hlane hserver)
  have hblocks : ∀ {e' : Entry}, e'.id=e.id → Blocks b e' → isServerType type=true := by
    rintro e' hid ⟨-,type',htype',hserver⟩
    rw [hid,htype] at htype'
    rw [Option.some.inj htype']
    exact hserver
  have hneutral : ∀ outcome,(outcome = .Sent → isServerType type=false) →
      Neutral (.dispatch e.id type outcome (q.ahead b i)) := by
    intro outcome hsent
    have hno : ¬ (outcome = .Sent ∧ isServerType type=true) := by
      rintro ⟨hout,hserver⟩
      rw [hsent hout] at hserver
      cases hserver
    exact ⟨fun _ => if_neg hno,fun _ => if_neg hno,fun _ => if_neg hno,hahead⟩
  have hlogged : ∀ outcome,(outcome = .Sent → isServerType type=false) →
      (q.log [.dispatch e.id type outcome (q.ahead b i)]).Sound := by
    intro outcome hsent
    apply h.sound.log
    intro ev hev
    rw [List.mem_singleton.mp hev]
    exact hneutral outcome hsent
  have hor : (held || isServerType type)=false → held=false := fun hno =>
    (Bool.or_eq_false_iff.mp hno).1
  have hblocked : ∀ {e' : Entry}, e'.id=e.id → (held || isServerType type)=false →
      ¬ Blocks b e' := by
    intro e' hid hno hblock
    rw [hblocks hid hblock,Bool.or_true] at hno
    cases hno
  unfold dispatchAt
  dsimp only
  cases hout : (b.dispatch e.id).outcome with
  | Sent =>
    have hlater : Steady e (e.sentOff type (b.dispatch e.id) b.nowMs) :=
      steady_of_queued hqueued rfl rfl
    cases hserver : isServerType type with
    | true =>
      have hfree := hlane hserver
      refine ⟨h.sound.sent_server (h.free hfree).1 he hserver (hb e.id type htype hserver)
        (hahead hserver),?_,fun hno => ?_⟩
      · rw [sent,if_pos hserver]
        apply steady_trans h.later
        apply steady_trans (steady_dropServerPages e.id)
        apply forall₂_update Steady.refl
        intro x hx hid
        obtain ⟨y,hy,rfl⟩ := List.mem_map.mp hx
        have hye : y.id=e.id := by
          split_ifs at hid with hsame
          · exact hsame
          · rwa [(dropPage_spec y).1] at hid
        rw [if_pos hye,h.sound.eq_of_id he hy hye]
        exact hlater
      · rw [Bool.or_true] at hno
        cases hno
    | false =>
      rw [sent,if_neg (by simp [hserver]),Bool.or_false]
      have hnopage : e.serverPage=false := by
        by_contra hne
        exact (h.sound.page e he (by simpa using hne)).1 hqueued
      have hstate : (e.sentOff type (b.dispatch e.id) b.nowMs).status.state = .Running := rfl
      refine h.update hi id rfl rfl ?_ hlater ?_
      case refine_2 =>
        rintro-⟨hwaits,-⟩
        cases hstate.symm.trans hwaits
      apply (hlogged .Sent fun _ => hserver).update_aside he
        (h.sound.ne_inFlight he (not_running_of_queued hqueued)) rfl
      · intro _
        change ((!isServerType type && !(b.dispatch e.id).awaitsMeta)=true) ∨
          (b.dispatch e.id).awaitsMeta=true
        rw [hserver]
        cases (b.dispatch e.id).awaitsMeta <;> simp
      · change (e.serverPage && _)=false
        rw [hnopage,Bool.false_and]
  | SendFailed =>
    obtain ⟨hid,hstate,hkey,hpage⟩ := sendFailed_spec e
    refine h.waits hi hqueued hid hkey hpage ?_ hor rfl rfl (hlogged _ nofun) (hblocked hid)
    rcases hstate with hstate | hstate <;> rw [hstate] <;> exact nofun
  | Busy =>
    obtain ⟨hid,hstate,hkey,hpage⟩ := setWaiting_spec SearchWait.PreviousSearch e
    exact h.waits hi hqueued hid hkey hpage (not_running_of_queued hstate) hor rfl rfl
      (hlogged _ nofun) (hblocked hid)
  | Refused =>
    have hstate : (e.setState .Failed (b.dispatch e.id).error).status.state = .Failed := rfl
    refine h.waits hi hqueued rfl rfl rfl (by rw [hstate]; exact nofun) id rfl rfl
      (hlogged _ nofun) ?_
    rintro-⟨hwaits,-⟩
    cases hstate.symm.trans hwaits

theorem pumpAt_walking (h : Walking b start (q, held) i) (hb : ServerAwaitsNoMeta b) :
    Walking b start (pumpAt b (q, held) i) (i+1) := by
  unfold pumpAt
  dsimp only
  cases hi : q.entries[i]? with
  | none =>
    refine ⟨h.sound,h.later,?_⟩
    rw [List.take_add_one,hi,Option.toList_none,List.append_nil]
    exact h.free
  | some e =>
    dsimp only
    by_cases hqueued : e.status.state = .Queued
    · rw [if_neg (not_not.mpr hqueued)]
      cases htype : b.resolve e.id with
      | none =>
        obtain ⟨hid,hstate,hkey,hpage⟩ := setWaiting_spec SearchWait.Connection e
        refine h.waits hi hqueued hid hkey hpage (not_running_of_queued hstate) id rfl rfl
          h.sound ?_
        rintro-⟨-,type,htype',-⟩
        rw [hid,htype] at htype'
        cases htype'
      | some type =>
        dsimp only
        split_ifs with hheld
        · obtain ⟨hid,hstate,hkey,hpage⟩ := setWaiting_spec SearchWait.PreviousSearch e
          refine h.waits hi hqueued hid hkey hpage (not_running_of_queued hstate) id rfl rfl
            h.sound ?_
          intro hno
          rw [hno,Bool.and_false] at hheld
          cases hheld
        · obtain ⟨hid,hstate,hkey,hpage⟩ := setWaiting_spec (b.waitReason e.id) e
          refine h.waits hi hqueued hid hkey hpage (not_running_of_queued hstate)
            (fun hno => (Bool.or_eq_false_iff.mp hno).1) rfl rfl h.sound ?_
          rintro hno ⟨-,type',htype',hserver⟩
          rw [hid,htype] at htype'
          rw [Option.some.inj htype',hserver,Bool.or_true] at hno
          cases hno
        · apply dispatchAt_walking h hb hi hqueued htype
          intro hserver
          rw [hserver,Bool.true_and] at hheld
          exact Bool.eq_false_of_not_eq_true hheld
    · rw [if_pos hqueued]
      refine ⟨h.sound,h.later,?_⟩
      intro hno
      refine ⟨(h.free hno).1,?_⟩
      intro x hx
      rw [List.take_add_one,hi] at hx
      rcases List.mem_append.mp hx with hold | hnew
      · exact (h.free hno).2 x hold
      · rw [List.mem_singleton.mp hnew]
        exact fun hblock => hqueued hblock.1

theorem pump_spec (h : q.Sound) (hb : ServerAwaitsNoMeta b) :
    (q.pump b).Sound ∧ List.Forall₂ Steady q.entries (q.pump b).entries := by
  have hwalk : ∀ n,Walking b q.entries
      ((List.range n).foldl (pumpAt b) (q, decide (q.inFlight≠0))) n := by
    intro n
    induction n with
    | zero =>
      refine ⟨h,List.forall₂_same.mpr fun e _ => Steady.refl e,?_⟩
      intro hno
      exact ⟨by simpa using hno,by simp⟩
    | succ n ih =>
      rw [List.range_succ,List.foldl_append]
      exact pumpAt_walking ih hb
  exact ⟨(hwalk _).sound,(hwalk _).later⟩

theorem finishServerSearch_spec (h : q.Sound) (hb : ServerAwaitsNoMeta b) :
    (q.finishServerSearch .Finished [] b).Sound ∧
      List.Forall₂ (fun e e' => Steady e e' ∧
        (e.id=q.inFlight → q.inFlight≠0 → e'.status.state = .Finished))
        q.entries (q.finishServerSearch .Finished [] b).entries := by
  unfold finishServerSearch
  split_ifs with hfree
  · refine ⟨h,List.forall₂_same.mpr fun e _ => ⟨Steady.refl e,fun _ hne => absurd hfree hne⟩⟩
  · have hended : Sound { (q.log [.endServerSearch q.inFlight]).update q.inFlight
        (Entry.endServer .Finished []) with inFlight := 0 } := by
      apply h.endLane hfree
      intro e he _
      refine ⟨rfl,nofun,?_⟩
      intro hpage
      exact ⟨(Bool.and_eq_true_iff.mp hpage).1,nofun,fun hlane => hlane⟩
    obtain ⟨hsound,hsteady⟩ := pump_spec hended hb
    have hfinish : List.Forall₂ (fun e e' => Steady e e' ∧
        (e.id=q.inFlight → e'.status.state = .Finished)) q.entries
        (q.update q.inFlight (Entry.endServer .Finished [])).entries := by
      apply forall₂_map
      intro e _
      split_ifs with hid
      · exact ⟨steady_of_finished rfl rfl rfl,fun _ => rfl⟩
      · exact ⟨Steady.refl e,fun hin => absurd hin hid⟩
    refine ⟨hsound,?_⟩
    obtain ⟨hlen₁,hget₁⟩ := List.forall₂_iff_get.mp hfinish
    obtain ⟨hlen₂,hget₂⟩ := List.forall₂_iff_get.mp hsteady
    refine List.forall₂_iff_get.mpr ⟨hlen₁.trans hlen₂,?_⟩
    intro i h₁ h₂
    have hone := hget₁ i h₁ (hlen₁ ▸ h₁)
    have htwo := hget₂ i (hlen₁ ▸ h₁) h₂
    exact ⟨hone.1.trans htwo,fun hid _ => htwo.finished (hone.2 hid)⟩

/-- No two searches that wait or run are the same. -/
def Distinct (q : SearchQueue) : Prop :=
  q.entries.Pairwise fun a c => Live a → Live c → a.dedupKey ≠ c.dedupKey

theorem distinct_of_later (h : List.Forall₂ Later xs ys)
    (hxs : xs.Pairwise fun a c => Live a → Live c → a.dedupKey≠c.dedupKey) :
    ys.Pairwise fun a c => Live a → Live c → a.dedupKey≠c.dedupKey := by
  induction h with
  | nil => exact List.Pairwise.nil
  | @cons x y xs ys hxy hrest ih =>
    obtain ⟨hx,hxs⟩ := List.pairwise_cons.mp hxs
    refine List.pairwise_cons.mpr ⟨?_,ih hxs⟩
    intro y' hy' hlive hlive'
    obtain ⟨x',hx',hlater⟩ : ∃ x'∈xs, Later x' y' := by
      obtain ⟨n,hn,rfl⟩ := List.getElem_of_mem hy'
      obtain ⟨hlength,hget⟩ := List.forall₂_iff_get.mp hrest
      have hn' : n<xs.length := hlength ▸ hn
      exact ⟨xs[n],List.getElem_mem hn',hget n hn' hn⟩
    rw [hxy.key,hlater.key]
    exact hx x' hx' (hxy.live hlive) (hlater.live hlive')

theorem find_some {id : UInt32} (h : q.find id=some e) : e∈q.entries ∧ e.id=id ∧ id≠0 := by
  unfold find at h
  split_ifs at h with hid
  exact ⟨List.mem_of_find?_eq_some h,by simpa using List.find?_some h,hid⟩

theorem onServerDisconnected_spec (h : q.Sound) (hb : ServerAwaitsNoMeta b) :
    (q.onServerDisconnected b).Sound ∧
      List.Forall₂ Later q.entries (q.onServerDisconnected b).entries := by
  have hdropped := h.dropServerPages 0
  have hnopage : ∀ e∈(q.dropServerPages 0).entries, e.serverPage=false := by
    intro e he
    obtain ⟨x,hx,rfl⟩ := List.mem_map.mp he
    rw [if_neg (h.nonzero x hx)]
    exact (dropPage_spec x).2.2.2.2.2.1
  have hlost : ((q.dropServerPages 0).log [.serverDisconnected]).Sound := by
    have hsame : (q.dropServerPages 0).entries =
        (q.dropServerPages 0).entries.map fun e => e := (List.map_id' _).symm
    refine hdropped.become hsame (fun _ _ => rfl) rfl (fun hne => hdropped.flight hne)
      hdropped.running (fun e he hpage => ?_) trivial
    rw [hnopage e he] at hpage
    cases hpage
  unfold onServerDisconnected
  dsimp only
  split
  · exact ⟨hlost,later_of_steady (steady_dropServerPages 0)⟩
  · next e hfind =>
    obtain ⟨he,hid,hne⟩ := find_some hfind
    split_ifs
    · exact ⟨hlost,later_of_steady (steady_dropServerPages 0)⟩
    · obtain ⟨-,e',he',hid',hrunning,-⟩ := hlost.flight hne
      have hended := hlost.endLane (f := Entry.sendFailed) hne fun x hx _ => by
        obtain ⟨hxid,hxstate,-,hxpage⟩ := sendFailed_spec x
        refine ⟨hxid,?_,?_⟩
        · rcases hxstate with hxstate | hxstate <;> rw [hxstate] <;> exact nofun
        · rw [hxpage,hnopage x hx]
          exact nofun
      obtain ⟨hsound,hlater⟩ := pump_spec hended hb
      refine ⟨hsound,later_trans (later_of_steady (steady_dropServerPages 0))
        (later_trans ?_ (later_of_steady hlater))⟩
      apply forall₂_update (q := q.dropServerPages 0) Later.refl
      intro x hx hxid
      obtain ⟨hsame,hxstate,hkey,-⟩ := sendFailed_spec x
      have hxe : x=e' := hlost.eq_of_id he' hx (hxid.trans hid'.symm)
      rw [← hxe] at hrunning
      exact later_of_running hrunning hsame hkey

theorem Sound.answered (h : q.Sound) (hne : q.inFlight≠0) (moreResults : Bool)
    (results newFiles : UInt32) : ((q.log [.serverAnswer q.inFlight]).update q.inFlight
      (Entry.answered moreResults results newFiles)).Sound := by
  obtain ⟨hlast,e,he,hid,hrunning,hlane⟩ := h.flight hne
  refine h.become rfl (fun x _ => ?_) rfl (fun _ => ⟨hlast,e,he,hid,?_⟩) (fun x hx hrun => ?_)
    (fun x hx hpage => ?_) trivial
  · split_ifs <;> rfl
  · rw [if_pos hid]
    exact ⟨hrunning,hlane⟩
  · split_ifs at hrun ⊢ <;> exact h.running x hx hrun
  · have hxe : x=e := by
      split_ifs at hpage with hin
      · exact h.eq_of_id he hx (hin.trans hid.symm)
      · have hxlast := (h.page x hx hpage).2.2.1
        rw [hlast] at hxlast
        exact h.eq_of_id he hx ((Option.some.inj hxlast).symm.trans hid.symm)
    subst hxe
    rw [if_pos hid,hid]
    refine ⟨?_,hlane,hlast,rfl⟩
    change x.status.state ≠ .Queued
    rw [hrunning]
    exact nofun

theorem onServerAnswer_spec (h : q.Sound) (hb : ServerAwaitsNoMeta b) (moreResults : Bool)
    (results newFiles : UInt32) :
    (q.onServerAnswer moreResults results newFiles b).Sound ∧
      List.Forall₂ Later q.entries (q.onServerAnswer moreResults results newFiles b).entries := by
  unfold onServerAnswer
  split
  · exact ⟨h,List.forall₂_same.mpr fun e _ => Later.refl e⟩
  · next e hfind =>
    obtain ⟨he,hid,hne⟩ := find_some hfind
    have hlater : List.Forall₂ Later q.entries ((q.log [.serverAnswer q.inFlight]).update q.inFlight
        (Entry.answered moreResults results newFiles)).entries :=
      forall₂_update Later.refl fun x _ _ => ⟨rfl,rfl,fun hlive => hlive,fun hfinished => hfinished⟩
    have hsound := h.answered hne moreResults results newFiles
    split_ifs
    · exact ⟨hsound,hlater⟩
    · obtain ⟨hdone,hlater'⟩ := finishServerSearch_spec hsound hb
      exact ⟨hdone,later_trans hlater (later_of_steady (hlater'.imp fun _ _ => And.left))⟩

theorem onSweepFinished_spec (h : q.Sound) (hb : ServerAwaitsNoMeta b) (searchID : UInt32) :
    (q.onSweepFinished searchID b).Sound ∧
      List.Forall₂ Later q.entries (q.onSweepFinished searchID b).entries := by
  unfold onSweepFinished
  split_ifs
  · obtain ⟨hsound,hlater⟩ := finishServerSearch_spec h hb
    exact ⟨hsound,later_of_steady (hlater.imp fun _ _ => And.left)⟩
  · exact ⟨h,List.forall₂_same.mpr fun e _ => Later.refl e⟩

theorem neutral_cancel (searchID : UInt32) : Neutral (.cancelMetaSearch searchID) :=
  ⟨fun _ => rfl,fun _ => rfl,fun _ => rfl,trivial⟩

theorem Sound.log_cancel (h : q.Sound) (told : Bool) (searchID : UInt32) :
    (q.log (if told then [.cancelMetaSearch searchID] else [])).Sound := by
  apply h.log
  intro ev hev
  split_ifs at hev
  · rw [List.mem_singleton.mp hev]
    exact neutral_cancel searchID
  · cases hev

theorem Sound.ne_inFlight_of_meta (h : q.Sound) (he : e∈q.entries)
    (hmeta : ¬ e.awaitsMeta=false) : e.id≠q.inFlight := by
  intro hid
  obtain ⟨-,e',he',hid',-,hlane⟩ := h.flight (hid ▸ h.nonzero e he)
  rw [h.eq_of_id he he' (hid'.trans hid.symm)] at hlane
  exact hmeta hlane.2.2

theorem Sound.page_of_meta (h : q.Sound) (he : e∈q.entries) (hmeta : ¬ e.awaitsMeta=false) :
    e.serverPage=false := by
  by_contra hpage
  exact hmeta (h.page e he (Bool.eq_true_of_not_eq_false hpage)).2.1.2.2

theorem onMetaSearchFinished_spec (h : q.Sound) (searchID : UInt32) (error : QString)
    (hasMore : Bool) : (q.onMetaSearchFinished searchID error hasMore).Sound ∧
      List.Forall₂ Later q.entries (q.onMetaSearchFinished searchID error hasMore).entries := by
  unfold onMetaSearchFinished
  split
  · exact ⟨h.log_cancel hasMore searchID,List.forall₂_same.mpr fun e _ => Later.refl e⟩
  · next e hfind =>
    obtain ⟨he,hid,hne⟩ := find_some hfind
    by_cases hnot : e.awaitsMeta=false ∨ e.status.state ≠ .Running
    · rw [if_pos hnot]
      exact ⟨h.log_cancel hasMore searchID,List.forall₂_same.mpr fun e _ => Later.refl e⟩
    · rw [if_neg hnot]
      obtain ⟨hmeta,hrunning⟩ := not_or.mp hnot
      rw [not_not] at hrunning
      subst hid
      have hstate : (e.metaFinished error hasMore).status.state ≠ .Running := by
        change (if error=[] then SearchRunState.Finished else .Failed) ≠ .Running
        split_ifs <;> exact nofun
      have hpage : (e.metaFinished error hasMore).serverPage=false := by
        change e.serverPage=false
        exact h.page_of_meta he hmeta
      refine ⟨h.update_aside he (h.ne_inFlight_of_meta he hmeta) rfl ?_ hpage,?_⟩
      · exact fun hrun => absurd hrun hstate
      · apply forall₂_update Later.refl
        intro x hx hid
        rw [h.eq_of_id he hx hid]
        refine later_of_running hrunning rfl rfl

theorem expired_cases (nowMs : Int) (alive : UInt32 → Bool) (e : Entry) :
    (e.expired nowMs alive).id=e.id ∧ (e.expired nowMs alive).dedupKey=e.dedupKey ∧
      (e.expired nowMs alive=e ∨
        (e.expired nowMs alive).serverPage=e.serverPage ∧
          ((e.status.state = .Running ∧ (e.kad=true ∨ e.awaitsMeta=true) ∧
            (e.expired nowMs alive).status.state = .Finished) ∨
          (e.status.state = .Queued ∧ (e.expired nowMs alive).status.state = .Failed))) := by
  unfold Entry.expired
  split_ifs with hkad hmeta hqueued
  · exact ⟨rfl,rfl,.inr ⟨rfl,.inl ⟨hkad.1,.inl hkad.2.1,rfl⟩⟩⟩
  · exact ⟨rfl,rfl,.inr ⟨rfl,.inl ⟨hmeta.1,.inr hmeta.2.1,rfl⟩⟩⟩
  · exact ⟨rfl,rfl,.inr ⟨rfl,.inr ⟨hqueued.1,rfl⟩⟩⟩
  · exact ⟨rfl,rfl,.inl rfl⟩

theorem expire_spec (h : q.Sound) (nowMs : Int) (alive : UInt32 → Bool) :
    (q.expire nowMs alive).Sound ∧ List.Forall₂
      (fun e e' => Later e e' ∧ e'=e.expired nowMs alive) q.entries
      (q.expire nowMs alive).entries := by
  have hmap : Sound { q with entries := q.entries.map (Entry.expired nowMs alive) } := by
    apply h.map
    intro e he
    obtain ⟨hid,-,hsame | ⟨hpage,⟨hrunning,hlane,hdone⟩ | ⟨hqueued,hfailed⟩⟩⟩ :=
      expired_cases nowMs alive e
    · rw [hsame]
      exact h.keeps he
    · have hout : ¬ InLane e := by
        rintro ⟨-,hkad,hmeta⟩
        rw [hkad,hmeta] at hlane
        rcases hlane with hlane | hlane <;> cases hlane
      refine ⟨hid,?_,?_,?_⟩
      · intro hflight
        obtain ⟨-,e',he',hid',-,hlane'⟩ := h.flight (hflight ▸ h.nonzero e he)
        rw [h.eq_of_id he he' (hid'.trans hflight.symm)] at hlane'
        exact absurd hlane' hout
      · intro hrun
        cases hdone.symm.trans hrun
      · intro hpage'
        rw [hpage] at hpage'
        exact absurd (h.page e he hpage').2.1 hout
    · refine ⟨hid,?_,?_,?_⟩
      · exact fun hflight => absurd hflight (h.ne_inFlight he (not_running_of_queued hqueued))
      · intro hrun
        cases hfailed.symm.trans hrun
      · intro hpage'
        rw [hpage] at hpage'
        exact absurd hqueued (h.page e he hpage').1
  refine ⟨hmap.log ?_,forall₂_map ?_⟩
  · intro ev hev
    obtain ⟨e,-,rfl⟩ := List.mem_map.mp hev
    exact neutral_cancel e.id
  · intro e _
    refine ⟨?_,rfl⟩
    obtain ⟨hid,hkey,hsame | ⟨-,⟨hrunning,-⟩ | ⟨hqueued,-⟩⟩⟩ := expired_cases nowMs alive e
    · rw [hsame]
      exact Later.refl e
    · exact later_of_running hrunning hid hkey
    · exact (steady_of_queued hqueued hid hkey).toLater

/-- The search runs and is past its time, or Kad is done with it. -/
def Due (nowMs : Int) (alive : UInt32 → Bool) (q : SearchQueue) (e : Entry) : Prop :=
  (e.id = q.inFlight ∧ q.inFlightDeadlineMs ≤ nowMs) ∨ (e.kad = true ∧ alive e.id = false) ∨
    (e.awaitsMeta = true ∧ kMetaTimeoutMs ≤ nowMs - e.sentAtMs)

theorem expired_of_due {nowMs : Int} {alive : UInt32 → Bool}
    (hrunning : e.status.state = .Running)
    (hdue : (e.kad=true ∧ alive e.id=false) ∨
      (e.awaitsMeta=true ∧ kMetaTimeoutMs≤nowMs-e.sentAtMs)) :
    (e.expired nowMs alive).status.state = .Finished := by
  unfold Entry.expired
  split_ifs with hkad hmeta hqueued
  · rfl
  · rfl
  · exact absurd (hqueued.1.symm.trans hrunning) nofun
  · rcases hdue with hdue | hdue
    · exact absurd ⟨hrunning,hdue⟩ hkad
    · exact absurd ⟨hrunning,hdue⟩ hmeta

theorem expired_finished {nowMs : Int} {alive : UInt32 → Bool}
    (hstate : e.status.state = .Finished) :
    (e.expired nowMs alive).status.state = .Finished := by
  obtain ⟨-,-,hsame | ⟨-,⟨-,-,hdone⟩ | ⟨hqueued,-⟩⟩⟩ := expired_cases nowMs alive e
  · rw [hsame,hstate]
  · exact hdone
  · cases hqueued.symm.trans hstate

theorem tick_spec (h : q.Sound) {b' : Backend} (hb : ServerAwaitsNoMeta b)
    (hb' : ServerAwaitsNoMeta b') (nowMs : Int) (alive : UInt32 → Bool) :
    (q.tick nowMs alive b b').Sound ∧
      List.Forall₂ (fun e e' => Later e e' ∧
        (e.status.state = .Running → Due nowMs alive q e → e'.status.state = .Finished))
        q.entries (q.tick nowMs alive b b').entries := by
  have hfirst : ∃ q₁ : SearchQueue, q₁.Sound ∧
      q.tick nowMs alive b b'=(q₁.expire nowMs alive).pump b' ∧
      List.Forall₂ (fun e e' => Steady e e' ∧ (e.id=q.inFlight → e.status.state = .Running →
        q.inFlightDeadlineMs≤nowMs → e'.status.state = .Finished)) q.entries q₁.entries := by
    unfold tick
    split_ifs with hover
    · obtain ⟨hsound,hsteady⟩ := finishServerSearch_spec h hb
      refine ⟨_,hsound,rfl,hsteady.imp ?_⟩
      rintro e e' ⟨hone,hdone⟩
      exact ⟨hone,fun hid _ _ => hdone hid hover.1⟩
    · refine ⟨q,h,rfl,List.forall₂_same.mpr fun e he => ⟨Steady.refl e,?_⟩⟩
      intro hid _ hdeadline
      exact absurd ⟨hid ▸ h.nonzero e he,hdeadline⟩ hover
  obtain ⟨q₁,hsound₁,htick,hstage₁⟩ := hfirst
  obtain ⟨hsound₂,hlater₂⟩ := expire_spec hsound₁ nowMs alive
  obtain ⟨hsound₃,hsteady₃⟩ := pump_spec hsound₂ hb'
  rw [htick]
  refine ⟨hsound₃,?_⟩
  obtain ⟨hlen₁,hget₁⟩ := List.forall₂_iff_get.mp hstage₁
  obtain ⟨hlen₂,hget₂⟩ := List.forall₂_iff_get.mp hlater₂
  obtain ⟨hlen₃,hget₃⟩ := List.forall₂_iff_get.mp hsteady₃
  refine List.forall₂_iff_get.mpr ⟨hlen₁.trans (hlen₂.trans hlen₃),?_⟩
  intro i hi hi₃
  have hi₁ : i<q₁.entries.length := hlen₁ ▸ hi
  have hi₂ : i<(q₁.expire nowMs alive).entries.length := hlen₂ ▸ hi₁
  obtain ⟨hsteady,hflight⟩ := hget₁ i hi hi₁
  obtain ⟨hlater,hexpired⟩ := hget₂ i hi₁ hi₂
  have hlast := hget₃ i hi₂ hi₃
  refine ⟨(hsteady.toLater.trans hlater).trans hlast.toLater,?_⟩
  intro hrunning hdue
  apply hlast.finished
  rw [hexpired]
  rcases hsteady.running hrunning with hdone | ⟨hgoes,hkad,hmeta,hsent⟩
  · exact expired_finished hdone
  rcases hdue with ⟨hid,hdeadline⟩ | hdue
  · exact expired_finished (hflight hid hrunning hdeadline)
  · apply expired_of_due hgoes
    rw [hkad,hmeta,hsent,hsteady.id]
    exact hdue

theorem Sound.sublist (h : q.Sound) (hsub : xs.Sublist q.entries)
    (hkeep : ∀ e∈q.entries,e.id=q.inFlight → e∈xs) : Sound { q with entries := xs } := by
  refine ⟨(hsub.map Entry.id).nodup h.ids,fun e he => h.nonzero e (hsub.subset he),h.lane,?_,
    fun e he => h.running e (hsub.subset he),fun e he => h.page e (hsub.subset he),h.order⟩
  intro hflight
  obtain ⟨hlast,e,he,hid,hrest⟩ := h.flight hflight
  exact ⟨hlast,e,hkeep e he hid,hid,hrest⟩

/-- The id is new, and names something. -/
def Fresh (q : SearchQueue) (searchID : UInt32) : Prop :=
  searchID ≠ 0 ∧ ∀ e ∈ q.entries, e.id ≠ searchID

theorem Sound.append (h : q.Sound) (hfresh : Fresh q searchID) (key : QString)
    (params : SearchParams) (nowMs : Int) :
    Sound { q with entries := q.entries++[newEntry key params searchID nowMs] } := by
  have hmem : ∀ e∈q.entries++[newEntry key params searchID nowMs],
      e∈q.entries ∨ e=newEntry key params searchID nowMs := fun e he =>
    (List.mem_append.mp he).imp_right List.mem_singleton.mp
  refine ⟨?_,?_,h.lane,?_,?_,?_,h.order⟩
  · rw [List.map_append]
    apply h.ids.append (List.nodup_singleton _)
    intro id hid hnew
    obtain ⟨e,he,rfl⟩ := List.mem_map.mp hid
    exact hfresh.2 e he (List.mem_singleton.mp hnew)
  · intro e he
    rcases hmem e he with hold | rfl
    · exact h.nonzero e hold
    · exact hfresh.1
  · intro hflight
    obtain ⟨hlast,e,he,hrest⟩ := h.flight hflight
    exact ⟨hlast,e,List.mem_append_left _ he,hrest⟩
  · intro e he hrunning
    rcases hmem e he with hold | rfl
    · exact h.running e hold hrunning
    · cases hrunning
  · intro e he hpage
    rcases hmem e he with hold | rfl
    · exact h.page e hold hpage
    · cases hpage

theorem neutral_discard (searchID : UInt32) : Neutral (.discard searchID) :=
  ⟨fun _ => rfl,fun _ => rfl,fun _ => rfl,trivial⟩

theorem enqueue_spec (h : q.Sound) (hb : ServerAwaitsNoMeta b) (key : QString)
    (params : SearchParams) (error : QString) (hfresh : Fresh q searchID) (nowMs : Int) :
    (q.enqueue key params error searchID nowMs b).2.Sound ∧
      (q.Distinct → (q.enqueue key params error searchID nowMs b).2.Distinct) := by
  unfold enqueue
  by_cases herror : error≠[]
  · rw [if_pos herror]
    exact ⟨h,id⟩
  rw [if_neg herror]
  cases hdup : q.entries.find? fun e => decide (e.dedupKey=key ∧ Live e) with
  | some e => exact ⟨h,id⟩
  | none =>
    by_cases hfull : kMaxQueued≤q.queuedCount
    · dsimp only
      rw [if_pos hfull]
      exact ⟨h,id⟩
    dsimp only
    rw [if_neg hfull]
    obtain ⟨hsound,hsteady⟩ := pump_spec (h.append hfresh key params nowMs) hb
    have hdistinct : q.Distinct → Distinct
        (pump b { q with entries := q.entries++[newEntry key params searchID nowMs] }) := by
      intro hq
      apply distinct_of_later (later_of_steady hsteady)
      refine List.pairwise_append.mpr ⟨hq,List.pairwise_singleton _ _,?_⟩
      intro e he e' he' hlive _
      rw [List.mem_singleton.mp he']
      intro hkey
      have hnot := List.find?_eq_none.mp hdup e he
      exact hnot (decide_eq_true ⟨hkey,hlive⟩)
    generalize pump b { q with entries := q.entries++[newEntry key params searchID nowMs] } = q'
      at hsound hdistinct
    cases hfind : q'.find searchID with
    | none => exact ⟨hsound,hdistinct⟩
    | some now =>
      obtain ⟨hnow,hid,-⟩ := find_some hfind
      dsimp only
      split_ifs with hfailed
      · refine ⟨?_,fun hq => (hdistinct hq).sublist List.filter_sublist⟩
        apply Sound.log
        · apply hsound.sublist List.filter_sublist
          intro e he hflight
          refine List.mem_filter.mpr ⟨he,decide_eq_true ?_⟩
          rintro hsame
          have hne := hsound.ne_inFlight hnow (by rw [hfailed]; exact nofun)
          exact hne (hid.trans (hsame.symm.trans hflight))
        · intro ev hev
          rw [List.mem_singleton.mp hev]
          exact neutral_discard searchID
      · exact ⟨hsound,hdistinct⟩

theorem update_update {id : UInt32} {g : Entry → Entry} (hf : ∀ e,(f e).id=e.id) :
    (q.update id f).update id g=q.update id fun e => g (f e) := by
  unfold update
  rw [List.map_map]
  congr 1
  apply List.map_congr_left
  intro e _
  dsimp only [Function.comp]
  by_cases hid : e.id=id
  · simp only [hid,if_true,hf]
  · simp only [hid,if_false]

theorem stop_spec (h : q.Sound) (hb : ServerAwaitsNoMeta b) (searchID : UInt32) :
    (q.stop searchID b).Sound ∧ List.Forall₂ Later q.entries (q.stop searchID b).entries := by
  unfold stop
  split
  · exact ⟨h,List.forall₂_same.mpr fun e _ => Later.refl e⟩
  · next e hfind =>
    obtain ⟨he,rfl,-⟩ := find_some hfind
    have hlog := h.log_cancel (e.cancelsMeta false) e.id
    have hlane : InLane e → InLane (e.cancelMeta false) := fun ⟨hserver,hkad,_⟩ =>
      ⟨hserver,hkad,rfl⟩
    have hlater : List.Forall₂ Later q.entries (q.update e.id (Entry.cancelMeta false)).entries :=
      forall₂_update Later.refl fun x _ _ => ⟨rfl,rfl,fun hlive => hlive,fun hdone => hdone⟩
    by_cases hflight : e.id=q.inFlight
    · have hkept : ((q.log (if e.cancelsMeta false then [.cancelMetaSearch e.id] else [])).update
          e.id (Entry.cancelMeta false)).Sound := by
        apply hlog.update he
        refine ⟨rfl,fun _ => ⟨rfl,hlane⟩,fun _ => .inl hflight,?_⟩
        exact fun hpage => ⟨hpage,(h.page e he hpage).1,hlane (h.page e he hpage).2.1⟩
      obtain ⟨hsound,hdone⟩ := finishServerSearch_spec hkept hb
      rw [if_pos hflight]
      exact ⟨hsound,later_trans hlater (later_of_steady (hdone.imp fun _ _ => And.left))⟩
    rw [if_neg hflight]
    have hid : ∀ x : Entry, (x.cancelMeta false).id=x.id := fun _ => rfl
    by_cases hlive : Live e
    · rw [if_pos hlive,update_update hid]
      have hkept : ((q.log (if e.cancelsMeta false then [.cancelMetaSearch e.id] else [])).update
          e.id fun e => (e.cancelMeta false).setState .Finished []).Sound := by
        apply hlog.update he
        refine ⟨rfl,fun hin => absurd hin hflight,nofun,?_⟩
        exact fun hpage => ⟨hpage,nofun,hlane (h.page e he hpage).2.1⟩
      obtain ⟨hsound,hsteady⟩ := pump_spec hkept hb
      have hdone : ∀ x : Entry, Steady x ((x.cancelMeta false).setState .Finished []) :=
        fun _ => steady_of_finished rfl rfl rfl
      refine ⟨hsound,later_trans ?_ (later_of_steady hsteady)⟩
      exact forall₂_update Later.refl fun x _ _ => (hdone x).toLater
    · rw [if_neg hlive]
      refine ⟨?_,hlater⟩
      apply hlog.update he
      refine ⟨rfl,fun hin => absurd hin hflight,fun hrun => absurd (.inr hrun) hlive,?_⟩
      exact fun hpage => ⟨hpage,(h.page e he hpage).1,hlane (h.page e he hpage).2.1⟩

theorem Sound.dropLane (h : q.Sound) (hflight : q.inFlight≠0) (hsub : xs.Sublist q.entries)
    (hgone : ∀ x∈xs,x.id≠q.inFlight) :
    Sound { q.log [.endServerSearch q.inFlight] with entries := xs, inFlight := 0 } := by
  have hended : laneStep (some q.inFlight) (.endServerSearch q.inFlight)=some none := by
    rw [laneStep,if_pos rfl]
  refine ⟨(hsub.map Entry.id).nodup h.ids,fun e he => h.nonzero e (hsub.subset he),?_,
    fun hne => absurd rfl hne,?_,?_,?_⟩
  · change runChecked laneStep none (q.history++[.endServerSearch q.inFlight])=some none
    rw [runChecked_append,h.lane,if_neg hflight,Option.bind_some,runChecked_cons,hended]
    rfl
  · intro e he hrunning
    exact .inr ((h.running e (hsub.subset he) hrunning).resolve_left (hgone e he))
  · intro e he hpage
    obtain ⟨hstate,hlane,hlast,hanswer⟩ := h.page e (hsub.subset he) hpage
    refine ⟨hstate,hlane,?_,?_⟩
    · change run lastStep none (q.history++_)=_
      rw [run_append,hlast]
      rfl
    · change run answerStep none (q.history++_)=_
      rw [run_append,hanswer]
      rfl
  · intro ev hev
    rcases List.mem_append.mp hev with hold | hnew
    · exact h.order ev hold
    · rw [List.mem_singleton.mp hnew]
      trivial

theorem Sound.eraseP (h : q.Sound) (he : e∈q.entries) :
    (∀ x∈q.entries,x.id≠e.id → x∈q.entries.eraseP fun x => decide (x.id=e.id)) ∧
      ∀ x∈q.entries.eraseP fun x => decide (x.id=e.id), x.id≠e.id := by
  obtain ⟨a,xs,ys,hbefore,ha,hsplit,herase⟩ :=
    List.exists_of_eraseP (p := fun x => decide (x.id=e.id)) he (decide_eq_true rfl)
  have haid : a.id=e.id := of_decide_eq_true ha
  have hids := h.ids
  rw [herase]
  rw [hsplit,List.map_append,List.map_cons,List.nodup_middle,List.nodup_cons,haid] at hids
  refine ⟨?_,?_⟩
  · intro x hx hne
    rw [hsplit] at hx
    rcases List.mem_append.mp hx with hx | hx
    · exact List.mem_append_left _ hx
    · rcases List.mem_cons.mp hx with rfl | hx
      · exact absurd haid hne
      · exact List.mem_append_right _ hx
  · intro x hx hid
    apply hids.1
    rw [← hid,← List.map_append]
    exact List.mem_map_of_mem hx

theorem remove_spec (h : q.Sound) (hb : ServerAwaitsNoMeta b) (searchID : UInt32) :
    (q.remove searchID b).Sound ∧ (q.Distinct → (q.remove searchID b).Distinct) := by
  unfold remove
  cases hfind : q.entries.find? fun e => decide (e.id=searchID) with
  | none => exact ⟨h,id⟩
  | some e =>
    have he := List.mem_of_find?_eq_some hfind
    obtain rfl : e.id=searchID := by simpa using List.find?_some hfind
    obtain ⟨hrest,hgone⟩ := h.eraseP he
    have hsub : (q.entries.eraseP fun x => decide (x.id=e.id)).Sublist q.entries :=
      List.eraseP_sublist
    have hlog := h.log_cancel (e.cancelsMeta true) e.id
    have hpumped : ∀ {q' : SearchQueue},
        q'.entries=(q.entries.eraseP fun x => decide (x.id=e.id)) → q'.Sound →
        (q'.pump b).Sound ∧ (q.Distinct → (q'.pump b).Distinct) := by
      intro q' hentries hsound
      obtain ⟨hpumped,hsteady⟩ := pump_spec hsound hb
      refine ⟨hpumped,fun hq => distinct_of_later (later_of_steady hsteady) ?_⟩
      rw [hentries]
      exact hq.sublist hsub
    dsimp only
    by_cases hflight : e.id=q.inFlight
    · rw [if_pos hflight,hflight]
      rw [hflight] at hlog hsub hgone hpumped
      apply hpumped rfl
      exact hlog.dropLane (hflight ▸ h.nonzero e he) hsub hgone
    · rw [if_neg hflight]
      apply hpumped rfl
      exact hlog.sublist hsub fun x hx hin => hrest x hx fun hid => hflight (hid.symm.trans hin)

theorem clear_spec (h : q.Sound) : q.clear.Sound ∧ q.clear.Distinct := by
  refine ⟨?_,List.Pairwise.nil⟩
  have hcancels : ∀ ev∈(q.entries.filter (Entry.cancelsMeta true)).map fun e =>
      Event.cancelMetaSearch e.id, Neutral ev := by
    intro ev hev
    obtain ⟨e,-,rfl⟩ := List.mem_map.mp hev
    exact neutral_cancel e.id
  unfold clear
  by_cases hflight : q.inFlight≠0
  · rw [if_pos hflight]
    exact (h.dropLane hflight (List.nil_sublist _) fun x hx => absurd hx List.not_mem_nil).log
      hcancels
  · rw [if_neg hflight,List.append_nil]
    have hempty : Sound { q with entries := [], inFlight := 0 } := by
      have hzero : q.inFlight=0 := not_not.mp hflight
      have hsound := h.sublist (List.nil_sublist _) fun e he hid =>
        absurd (hid.trans hzero) (h.nonzero e he)
      rw [hzero] at hsound
      exact hsound
    exact hempty.log hcancels

theorem Sound.pageAsked (h : q.Sound) (hfree : q.inFlight=0) (he : e∈q.entries)
    (hpage : e.serverPage=true) (nowMs deadline : Int) :
    Sound { (q.log [.continueServerSearch e.id]).update e.id (Entry.pageAsked nowMs) with
      inFlight := e.id, inFlightDeadlineMs := deadline } := by
  obtain ⟨-,hlane,hlast,-⟩ := h.page e he hpage
  refine h.become rfl (fun x _ => ?_) ?_ (fun _ => ⟨rfl,e,he,rfl,?_⟩) (fun x hx hrunning => ?_)
    (fun x hx hpage' => ?_) trivial
  · split_ifs <;> rfl
  · rw [if_pos hfree,if_neg (h.nonzero e he),laneStep,if_pos rfl]
  · rw [if_pos rfl]
    exact ⟨rfl,hlane⟩
  · split_ifs at hrunning ⊢ with hid
    · exact .inl hid
    · exact .inr ((h.running x hx hrunning).resolve_left fun hin =>
        h.nonzero x hx (hin.trans hfree))
  · split_ifs at hpage' with hid
    · cases hpage'
    · have hlast' := (h.page x hx hpage').2.2.1
      rw [hlast] at hlast'
      exact absurd (Option.some.inj hlast').symm hid

/-- `more` revives no search that is asked again by then. -/
def NoTwin (q : SearchQueue) (e : Entry) : Prop :=
  ∀ x∈q.entries, x.id≠e.id → Live x → x.dedupKey≠e.dedupKey

theorem Distinct.revived (hq : q.Distinct) (h : q.Sound) (he : e∈q.entries) (htwin : q.NoTwin e)
    (hkey : ∀ e,(f e).dedupKey=e.dedupKey) :
    (q.update e.id f).Distinct := by
  refine List.pairwise_map.mpr ?_
  have hids : q.entries.Pairwise fun a c => a.id≠c.id := List.pairwise_map.mp h.ids
  refine (hq.and hids).imp_of_mem ?_
  intro a c ha hc ⟨hold,hne⟩
  split_ifs with haid hcid hcid
  · exact absurd (haid.trans hcid.symm) hne
  · rw [h.eq_of_id he ha haid,hkey]
    exact fun _ hlive heq => htwin c hc hcid hlive heq.symm
  · rw [h.eq_of_id he hc hcid,hkey]
    exact fun hlive _ => htwin a ha haid hlive
  · exact hold

theorem more_spec (h : q.Sound) (searchID : UInt32) (continues continuesMeta : Bool)
    (nowMs : Int) : (q.more searchID continues continuesMeta nowMs).2.Sound ∧
      (q.Distinct → (∀ e,q.find searchID=some e → q.asksMore continues continuesMeta e=true →
        q.NoTwin e) → (q.more searchID continues continuesMeta nowMs).2.Distinct) := by
  unfold more
  cases hfind : q.find searchID with
  | none => exact ⟨h,fun hq _ => hq⟩
  | some e =>
    obtain ⟨he,rfl,-⟩ := find_some hfind
    dsimp only
    by_cases hasks : q.asksMore continues continuesMeta e=false
    · rw [if_pos hasks]
      exact ⟨h,fun hq _ => hq⟩
    rw [if_neg hasks]
    have hasked : q.asksMore continues continuesMeta e=true := Bool.eq_true_of_not_eq_false hasks
    obtain ⟨⟨hfinished,-⟩,hway⟩ := by
      simpa only [asksMore,Bool.and_eq_true,decide_eq_true_iff] using hasked
    split_ifs with hpage
    · rw [if_pos hpage,Bool.and_eq_true,decide_eq_true_iff] at hway
      refine ⟨h.pageAsked hway.1 he hpage nowMs _,fun hq htwin => ?_⟩
      exact hq.revived h he (htwin e rfl hasked) fun _ => rfl
    · have hneutral : ∀ ev∈[Event.continueMetaSearch e.id], Neutral ev := by
        intro ev hev
        rw [List.mem_singleton.mp hev]
        exact ⟨fun _ => rfl,fun _ => rfl,fun _ => rfl,trivial⟩
      have hne := h.ne_inFlight he (by rw [hfinished]; exact nofun)
      have hnopage : (e.metaAsked nowMs).serverPage=false := by
        exact Bool.eq_false_of_not_eq_true hpage
      refine ⟨(h.log hneutral).update_aside he hne rfl (fun _ => .inr rfl) hnopage,
        fun hq htwin => ?_⟩
      exact hq.revived h he (htwin e rfl hasked) fun _ => rfl

theorem not_distinct_of_twin {continues continuesMeta : Bool} {nowMs : Int}
    (hfind : q.find searchID=some e) (hasks : q.asksMore continues continuesMeta e=true)
    (hq : (q.more searchID continues continuesMeta nowMs).2.Distinct) : q.NoTwin e := by
  intro x hx hid hlive hkey
  obtain ⟨he,rfl,-⟩ := find_some hfind
  have hrevived : ∃ e'∈(q.more e.id continues continuesMeta nowMs).2.entries, e'.id=e.id ∧
      e'.dedupKey=e.dedupKey ∧ Live e' := by
    unfold more
    rw [hfind]
    dsimp only
    rw [if_neg (by rw [hasks]; exact nofun)]
    split_ifs
    · exact ⟨e.pageAsked nowMs,List.mem_map.mpr ⟨e,he,if_pos rfl⟩,rfl,rfl,.inr rfl⟩
    · exact ⟨e.metaAsked nowMs,List.mem_map.mpr ⟨e,he,if_pos rfl⟩,rfl,rfl,.inr rfl⟩
  have hkept : x∈(q.more e.id continues continuesMeta nowMs).2.entries := by
    unfold more
    rw [hfind]
    dsimp only
    rw [if_neg (by rw [hasks]; exact nofun)]
    split_ifs <;> exact List.mem_map.mpr ⟨x,hx,if_neg hid⟩
  obtain ⟨e',he',hid',hkey',hlive'⟩ := hrevived
  have hsymm : Std.Symm fun a c : Entry => Live a → Live c → a.dedupKey≠c.dedupKey :=
    ⟨fun a c hac hc ha heq => hac ha hc heq.symm⟩
  have hne : e'≠x := by
    rintro rfl
    exact hid hid'
  exact List.Pairwise.forall hq he' hkept hne hlive' hlive (hkey'.trans hkey.symm)

/-- What the backend keeps to: ids are new, and server searches do not await a Meta API. -/
def Allowed (q : SearchQueue) : Call → Prop
  | .enqueue _ _ searchID _ b => Fresh q searchID ∧ ServerAwaitsNoMeta b
  | .pump b => ServerAwaitsNoMeta b
  | .tick _ _ b b' => ServerAwaitsNoMeta b ∧ ServerAwaitsNoMeta b'
  | .serverDisconnected b => ServerAwaitsNoMeta b
  | .serverAnswer _ _ _ b => ServerAwaitsNoMeta b
  | .sweepFinished _ b => ServerAwaitsNoMeta b
  | .metaSearchFinished _ _ _ => True
  | .more _ _ _ _ => True
  | .stop _ b => ServerAwaitsNoMeta b
  | .remove _ b => ServerAwaitsNoMeta b
  | .clear => True

/-- No search gets a further page while the same search waits or runs as another entry. -/
def RevivesNoTwin (q : SearchQueue) : Call → Prop
  | .more searchID continues continuesMeta _ => ∀ e, q.find searchID=some e →
    q.asksMore continues continuesMeta e=true → q.NoTwin e
  | _ => True

variable {toLower : QString → QString}

theorem step_spec (toLower : QString → QString) (h : q.Sound) {call : Call}
    (hallowed : q.Allowed call) : (q.step toLower call).Sound ∧
      (q.Distinct → q.RevivesNoTwin call → (q.step toLower call).Distinct) := by
  have hlater : ∀ {q' : SearchQueue}, (q'.Sound ∧ List.Forall₂ Later q.entries q'.entries) →
      q'.Sound ∧ (q.Distinct → q.RevivesNoTwin call → q'.Distinct) :=
    fun hspec => ⟨hspec.1,fun hq _ => distinct_of_later hspec.2 hq⟩
  cases call with
  | enqueue params error searchID nowMs b =>
    obtain ⟨hsound,hdistinct⟩ := enqueue_spec h hallowed.2 (dedupKeyFor toLower params) params
      error hallowed.1 nowMs
    exact ⟨hsound,fun hq _ => hdistinct hq⟩
  | pump b =>
    obtain ⟨hsound,hsteady⟩ := pump_spec h hallowed
    exact hlater ⟨hsound,later_of_steady hsteady⟩
  | tick nowMs alive b b' =>
    obtain ⟨hsound,hdue⟩ := tick_spec h hallowed.1 hallowed.2 nowMs alive
    exact hlater ⟨hsound,hdue.imp fun _ _ => And.left⟩
  | serverDisconnected b => exact hlater (onServerDisconnected_spec h hallowed)
  | serverAnswer moreResults results newFiles b =>
    exact hlater (onServerAnswer_spec h hallowed moreResults results newFiles)
  | sweepFinished searchID b => exact hlater (onSweepFinished_spec h hallowed searchID)
  | metaSearchFinished searchID error hasMore =>
    exact hlater (onMetaSearchFinished_spec h searchID error hasMore)
  | more searchID continues continuesMeta nowMs =>
    exact more_spec h searchID continues continuesMeta nowMs
  | stop searchID b => exact hlater (stop_spec h hallowed searchID)
  | remove searchID b =>
    obtain ⟨hsound,hdistinct⟩ := remove_spec h hallowed searchID
    exact ⟨hsound,fun hq _ => hdistinct hq⟩
  | clear => exact ⟨(clear_spec h).1,fun _ _ => (clear_spec h).2⟩

theorem sound_init : init.Sound :=
  ⟨List.nodup_nil,fun _ he => absurd he List.not_mem_nil,rfl,fun hne => absurd rfl hne,
    fun _ he => absurd he List.not_mem_nil,fun _ he => absurd he List.not_mem_nil,
    fun _ hev => absurd hev List.not_mem_nil⟩

/-- The queue after some calls. -/
def after (toLower : QString → QString) (calls : List Call) : SearchQueue :=
  run (step toLower) init calls

theorem run_sound {calls : List Call} (h : q.Sound)
    (hallowed : Along (step toLower) Allowed q calls) : (run (step toLower) q calls).Sound := by
  have hstep : ∀ (q : SearchQueue) call, q.Sound → q.Allowed call → (q.step toLower call).Sound :=
    fun _ _ hs hok => (step_spec toLower hs hok).1
  exact run_invariant hstep h hallowed

theorem run_distinct {calls : List Call} (h : q.Sound) (hq : q.Distinct)
    (hallowed : Along (step toLower) Allowed q calls)
    (htwin : Along (step toLower) RevivesNoTwin q calls) :
    (run (step toLower) q calls).Distinct := by
  induction calls generalizing q with
  | nil => exact hq
  | cons call calls ih =>
    obtain ⟨hsound,hdistinct⟩ := step_spec toLower h hallowed.1
    exact ih hsound (hdistinct hq htwin.1) hallowed.2 htwin.2

/-- The lane, the pages and the ends of the searches are in step after all calls; no search is
there twice as long as none gets a further page while its twin waits or runs. -/
theorem searchQueue_inStep (toLower : QString → QString) (calls : List Call)
    (hallowed : Along (step toLower) Allowed init calls) :
    ((after toLower calls).inFlight = 0 ∨ ∃ e ∈ (after toLower calls).entries,
      e.id = (after toLower calls).inFlight ∧ e.status.state = .Running ∧
        isServerType e.status.type = true) ∧
    (∀ e ∈ (after toLower calls).entries, e.status.state = .Running →
      e.id = (after toLower calls).inFlight ∨ e.kad = true ∨ e.awaitsMeta = true) ∧
    (∀ nowMs alive b b', ServerAwaitsNoMeta b → ServerAwaitsNoMeta b' →
      List.Forall₂ (fun e e' => e'.id = e.id ∧ (e.status.state = .Running →
          Due nowMs alive (after toLower calls) e → e'.status.state = .Finished))
        (after toLower calls).entries ((after toLower calls).tick nowMs alive b b').entries) ∧
    (∀ ev ∈ (after toLower calls).history, Ordered ev) ∧
    runChecked laneStep none (after toLower calls).history =
      some (if (after toLower calls).inFlight = 0 then none
        else some (after toLower calls).inFlight) ∧
    (∀ e ∈ (after toLower calls).entries, e.serverPage = true →
      run lastStep none (after toLower calls).history = some e.id ∧
      run answerStep none (after toLower calls).history = some e.id ∧
      ∀ e' ∈ (after toLower calls).entries, e'.serverPage = true → e' = e) ∧
    (Along (step toLower) RevivesNoTwin init calls → (after toLower calls).Distinct) ∧
    ∀ searchID continues continuesMeta nowMs, (after toLower calls).Distinct →
      (((after toLower calls).more searchID continues continuesMeta nowMs).2.Distinct ↔
        (after toLower calls).RevivesNoTwin (.more searchID continues continuesMeta nowMs)) := by
  have h : (after toLower calls).Sound := run_sound sound_init hallowed
  refine ⟨?_,h.running,?_,h.order,h.lane,?_,?_,?_⟩
  · by_cases hflight : (after toLower calls).inFlight=0
    · exact .inl hflight
    · obtain ⟨-,e,he,hid,hrunning,hlane⟩ := h.flight hflight
      exact .inr ⟨e,he,hid,hrunning,hlane.1⟩
  · intro nowMs alive b b' hb hb'
    exact (tick_spec h hb hb' nowMs alive).2.imp fun e e' hboth => ⟨hboth.1.id,hboth.2⟩
  · intro e he hpage
    obtain ⟨-,-,hlast,hanswer⟩ := h.page e he hpage
    refine ⟨hlast,hanswer,fun e' he' hpage' => ?_⟩
    have hlast' := (h.page e' he' hpage').2.2.1
    rw [hlast] at hlast'
    exact h.eq_of_id he he' (Option.some.inj hlast').symm
  · exact run_distinct sound_init List.Pairwise.nil hallowed
  · intro searchID continues continuesMeta nowMs hq
    refine ⟨fun hmore e hfind hasks => not_distinct_of_twin hfind hasks hmore,?_⟩
    exact (more_spec h searchID continues continuesMeta nowMs).2 hq

/-- Any search of the Meta API. -/
def releases : SearchParams where
  type := .MetaUsenet
  expression := []
  fileType := []
  minSize := 0
  maxSize := 0
  availability := 0
  extension := []
  completeSources := 0
  codec := []
  minBitrate := 0
  minLength := 0
  title := []
  album := []
  artist := []
  internal := false

/-- A Meta API that takes every search. -/
def metaUp : Backend where
  resolve _ := some .MetaUsenet
  waitReason _ := []
  dispatch _ := ⟨.Sent,[],false,true,[],[]⟩
  nowMs := 0

theorem metaUp_awaitsNoMeta : ServerAwaitsNoMeta metaUp := by
  intro searchID type htype hserver
  obtain rfl := Option.some.inj htype
  cases hserver

theorem searchQueue_inStep_one :
    Along (step id) Allowed init [.enqueue releases [] 1 0 metaUp] ∧
      (after id [.enqueue releases [] 1 0 metaUp]).Distinct :=
  have hallowed : Along (step id) Allowed init [.enqueue releases [] 1 0 metaUp] :=
    ⟨⟨⟨by decide,fun _ he => absurd he List.not_mem_nil⟩,metaUp_awaitsNoMeta⟩,trivial⟩
  ⟨hallowed,(searchQueue_inStep id [.enqueue releases [] 1 0 metaUp] hallowed).2.2.2.2.2.2.1
    ⟨trivial,trivial⟩⟩

/-- A search with a page to come, the same search again, and the page after all. -/
def twinCalls : List Call :=
  [.enqueue releases [] 1 0 metaUp,.metaSearchFinished 1 [] true,
    .enqueue releases [] 2 0 metaUp,.more 1 false true 0]

theorem twin_revived :
    Along (step id) Allowed init twinCalls ∧ ¬ (after id twinCalls).Distinct := by
  refine ⟨⟨⟨⟨by decide,fun _ he => absurd he List.not_mem_nil⟩,metaUp_awaitsNoMeta⟩,trivial,
    ⟨⟨by decide,?_⟩,metaUp_awaitsNoMeta⟩,trivial,trivial⟩,?_⟩
  · decide
  · unfold Distinct
    decide

end SearchQueue

end EmuleQt.Search
