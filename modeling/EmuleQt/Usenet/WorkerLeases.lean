import EmuleQt.Framework.SeatTable
import EmuleQt.Usenet.PoolLeases
import EmuleQt.Usenet.UsenetWorker

namespace EmuleQt.Usenet

open Framework Framework.Board Utils NntpServerPool

def Finished.report (r : Finished) : Report SocketId := ⟨r.job, r.result.requeue, r.charge⟩

/-- The bytes of a result are those its charge covers. -/
def Finished.Exact (r : Finished) : Prop :=
  r.result.rawBytes = r.charge.elim 0 fun c => c.2.2 - c.2.1

def Takeover.Allowed (t : Takeover) : Prop :=
  t.pool.canPipeline t.now t.link.seat t.request.level t.request.ignoreServers = true

namespace UsenetWorker

variable {w w' w'' : UsenetWorker} {k k' : SocketId} {id host f : JobId} {job : Job}

def table (w : UsenetWorker) : SeatTable SocketId where
  spot := fun i => (w.heap i).map fun job => (job.socket, job.follower)
  jobs := w.jobs
  holder := w.jobsBySocket

def board (w : UsenetWorker) : Board SocketId where
  seat := w.table.seat
  requests := w.history.requests
  reports := w.history.results.map Finished.report
  links := w.history.links
  takeovers := w.history.takeovers.map Takeover.link
  leases := w.history.leases
  releases := w.history.releases
  heard := w.history.heard
  charged := w.history.charged
  held := w.history.held

/-- The bytes of a socket that no result has been charged yet. -/
def unread (w : UsenetWorker) (k : SocketId) : Nat :=
  w.pool.elim 0 fun p => (p.sockets k).bytesRead

structure Wf (w : UsenetWorker) : Prop where
  table : w.table.Wf
  sound : w.board.Sound
  pool : ∀ p, w.pool=some p → p.Wf
  leased : ∀ k, (w.table.seat k).isSome=true ↔ ∃ p, w.pool=some p ∧ p.InUse k
  pending : w.shuttingDown=false ∨ w.jobs≠[] → ∀ k,
    w.unread k+w.history.charged k=w.history.heard k
  slots : ∀ k∈w.slots, ∃ h, w.table.seat k=some ⟨h,none⟩
  watched : ∀ k h, w.jobsBySocket k=some h → ∃ job, w.heap h=some job ∧ job.failedConn=true
  exact : ∀ r∈w.history.results, r.Exact
  allowed : ∀ t∈w.history.takeovers, t.Allowed

/-- Nothing changes but flags of jobs and what the pool holds besides the leases. -/
structure Quiet (w w' : UsenetWorker) : Prop where
  table : w'.table = w.table
  history : w'.history = w.history
  shuttingDown : w'.shuttingDown = w.shuttingDown
  slots : ∀ k ∈ w'.slots, k ∈ w.slots ∨ ∃ h, w.table.seat k = some ⟨h, none⟩
  pool : Option.Rel Frame w.pool w'.pool
  watched : ∀ i job, w.heap i = some job → job.failedConn = true →
    ∃ job', w'.heap i = some job' ∧ job'.failedConn = true

theorem rel_refl {R : NntpServerPool → NntpServerPool → Prop} (hR : ∀ p,R p p)
    (o : Option NntpServerPool) : Option.Rel R o o := by
  cases o with
  | none => exact .none
  | some p => exact .some (hR p)

theorem Quiet.refl (w : UsenetWorker) : Quiet w w :=
  ⟨rfl,rfl,rfl,fun _ => .inl,rel_refl Frame.refl _,fun _ job h hf => ⟨job,h,hf⟩⟩

theorem Quiet.board (h : Quiet w w') : w'.board=w.board := by
  unfold UsenetWorker.board
  rw [h.table,h.history]

section Rel

variable {o o' : Option NntpServerPool} {p' : NntpServerPool}
  {R : NntpServerPool → NntpServerPool → Prop}

theorem rel_some (h : Option.Rel R o o') (hp : o'=some p') : ∃ p, o=some p ∧ R p p' := by
  subst hp
  cases h with
  | some h => exact ⟨_,rfl,h⟩

theorem rel_none (h : Option.Rel R o o') (hp : o'=none) : o=none := by
  subst hp
  cases h
  rfl

theorem rel_inUse (h : Option.Rel Frame o o') (k : SocketId) :
    (∃ p', o'=some p' ∧ p'.InUse k) ↔ ∃ p, o=some p ∧ p.InUse k := by
  cases h with
  | none => simp
  | some h => simp [h.inUse k]

theorem rel_map {g : NntpServerPool → NntpServerPool} (hg : ∀ p,R p (g p)) :
    Option.Rel R o (o.map g) := by
  cases o with
  | none => exact .none
  | some p => exact .some (hg p)

end Rel

theorem Quiet.unread (h : Quiet w w') (k : SocketId) : w'.unread k=w.unread k := by
  unfold UsenetWorker.unread
  have hpool := h.pool
  cases hp' : w'.pool with
  | none =>
    rw [rel_none hpool hp']
  | some p' =>
    obtain ⟨p,hp,hf⟩ := rel_some hpool hp'
    rw [hp]
    exact hf.bytesRead k

theorem Quiet.wf (h : Quiet w w') (hw : Wf w) : Wf w' := by
  have hjobs : w'.jobs=w.jobs := congrArg SeatTable.jobs h.table
  have hholder : w'.jobsBySocket=w.jobsBySocket := congrArg SeatTable.holder h.table
  refine ⟨?_,?_,?_,?_,?_,?_,?_,?_,?_⟩
  · rw [h.table]
    exact hw.table
  · rw [h.board]
    exact hw.sound
  · intro p' hp'
    obtain ⟨p,hp,hf⟩ := rel_some h.pool hp'
    exact hf.wf (hw.pool p hp)
  · intro k
    rw [h.table,hw.leased k,rel_inUse h.pool]
  · intro hc k
    rw [h.shuttingDown,hjobs] at hc
    rw [h.unread k,h.history]
    exact hw.pending hc k
  · intro k hk
    rw [h.table]
    exact (h.slots k hk).elim (hw.slots k) id
  · intro k i hk
    rw [hholder] at hk
    obtain ⟨job,hjob,hf⟩ := hw.watched k i hk
    exact h.watched i job hjob hf
  · rw [h.history]
    exact hw.exact
  · rw [h.history]
    exact hw.allowed

def setPool (w : UsenetWorker) (noPipeline : List QString) (pool : Option NntpServerPool) :
    UsenetWorker := { w with noPipeline := noPipeline, pool := pool }

theorem noteFailure_eq (w : UsenetWorker) (job : Job) (error : NntpError) (key : QString) :
    ∃ noPipeline pool, w.noteFailure job error key=w.setPool noPipeline pool ∧
      Option.Rel Frame w.pool pool := by
  unfold noteFailure
  dsimp only
  split_ifs
  · exact ⟨_,_,rfl,rel_map fun p => blockServer_frame p _ _⟩
  · exact ⟨_,_,rfl,rel_refl Frame.refl _⟩
  · exact ⟨_,_,rfl,rel_map fun p => blockServer_frame p _ _⟩
  · exact ⟨_,_,rfl,rel_refl Frame.refl _⟩

theorem noteLimit_eq (w : UsenetWorker) (error : NntpError) (key : QString) :
    ∃ pool, w.noteLimit error key=w.setPool w.noPipeline pool ∧
      Option.Rel Frame w.pool pool := by
  unfold noteLimit
  split_ifs
  · exact ⟨_,rfl,rel_map fun p => limitConnections_frame p _ _⟩
  · exact ⟨_,rfl,rel_refl Frame.refl _⟩

theorem onNearlyDone_eq (hjob : w.heap id=some job) :
    w.onNearlyDone id=w.setJob id { job with nearlyDone := true } ∨
      ∃ k, w.jobsBySocket k=some id ∧ job.follower=none ∧
        w.onNearlyDone id =
          { w.setJob id { job with nearlyDone := true } with slots := w.slots.insert k } := by
  unfold onNearlyDone
  rw [hjob]
  dsimp only
  cases hk : job.socket with
  | none => exact .inl rfl
  | some k =>
    dsimp only
    split_ifs with hc
    · exact .inl rfl
    · simp only [not_or,not_not] at hc
      exact .inr ⟨k,hc.2.2.2.1,hc.2.1,rfl⟩

theorem passOn_none (w : UsenetWorker) (host : JobId) (k : SocketId) (reusable : Bool) :
    w.passOn host k none reusable=(w.vacate k).release k reusable := rfl

theorem passOn_some {p : NntpServerPool} (hf : w.heap f=some job) (hp : w.pool=some p)
    (host : JobId) (k : SocketId) (reusable : Bool) :
    w.passOn host k (some f) reusable =
      if reusable=true ∧ w.shuttingDown=false ∧
          p.canPipeline w.now k job.request.level job.request.ignoreServers=true then
        (w.vacate k).handOver p host k f job
      else ((w.vacate k).requeueFollower f).release k reusable := by
  unfold passOn
  simp only [Option.bind_some,vacate,hf,Option.map_some,hp]

/-- How a job ends: its board is reached by moves, and nothing new is held. -/
structure Ended (w w' : UsenetWorker) (id : JobId) (error : NntpError) : Prop where
  wf : Wf w'
  moves : Moves w.board w'.board
  shuttingDown : w'.shuttingDown = w.shuttingDown
  reported : ∃ r ∈ w'.history.results, r.job = id
  behind : isFatalToConnection error = true → ∀ k f, w.table.seat k = some ⟨id, some f⟩ →
    ∃ r ∈ w'.history.results, r.job = f
  failed : ∀ p', w'.pool = some p' → ∃ p, w.pool = some p ∧
    ∀ k, (p'.sockets k).failed = (p.sockets k).failed
  seats : ∀ k, (w'.table.seat k).isSome = true → (w.table.seat k).isSome = true ∧
    (isFatalToConnection error = true → w.jobsBySocket k ≠ some id)
  jobs : w'.jobs.length < w.jobs.length

theorem table_spot (hjob : w.heap id=some job) :
    w.table.spot id=some (job.socket, job.follower) := by
  show (w.heap id).map _ = _
  rw [hjob]
  rfl

theorem spot_job {so : Option SocketId} {fo : Option JobId}
    (h : w.table.spot id=some (so, fo)) :
    ∃ job, w.heap id=some job ∧ job.socket=so ∧ job.follower=fo := by
  obtain ⟨job,hjob,he⟩ := Option.map_eq_some_iff.mp h
  cases he
  exact ⟨job,hjob,rfl,rfl⟩

theorem map_update (heap : JobId → Option Job) (id : JobId) (o : Option Job) :
    (fun i => (Function.update heap id o i).map fun job : Job => (job.socket, job.follower)) =
      Function.update (fun i => (heap i).map fun job => (job.socket, job.follower)) id
        (o.map fun job => (job.socket, job.follower)) := by
  funext i
  by_cases h : i=id
  · subst h
    simp
  · simp [h]

theorem Wf.at_cases (hw : Wf w) (hjob : w.heap id=some job) :
    ∃ k, job.socket=some k ∧
      (w.jobsBySocket k=some id ∧ w.table.seat k=some ⟨id,job.follower⟩ ∨
        ∃ host hostJob, host≠id ∧ w.jobsBySocket k=some host ∧ w.heap host=some hostJob ∧
          hostJob.socket=some k ∧ hostJob.follower=some id ∧ job.follower=none ∧
          w.table.seat k=some ⟨host,some id⟩) := by
  obtain ⟨k,hk,s,hs,hat⟩ := hw.table.spot_at id _ _ (table_spot hjob)
  refine ⟨k,hk,?_⟩
  have hholder := hw.table.holder_spot hs
  have hby : w.jobsBySocket k=some s.holder := SeatTable.seat_holder hs
  obtain ⟨h,next⟩ := s
  rcases hat with rfl | hn
  · rw [table_spot hjob] at hholder
    have he := (Prod.mk.inj (Option.some.inj hholder)).2
    subst he
    exact .inl ⟨hby,hs⟩
  · dsimp only at hn hholder hby
    subst hn
    obtain ⟨hostJob,hhost,hhk,hhf⟩ := spot_job hholder
    have hlast := hw.table.last k h id hs
    rw [table_spot hjob] at hlast
    exact .inr ⟨h,hostJob,(hw.table.next_ne k h id hs).symm,hby,hhost,hhk,hhf,
      (Prod.mk.inj (Option.some.inj hlast)).2,hs⟩

/-- The bytes of `k` are taken, and its lease is given back if it is freed. -/
structure PoolStep (k : SocketId) (freed : Bool) (p p' : NntpServerPool) : Prop where
  wf : p.Wf → p'.Wf
  inUse : p.Wf → ∀ k', p'.InUse k' ↔ (k'=k → freed=false) ∧ p.InUse k'
  bytesRead : p.Wf → ∀ k', (p'.sockets k').bytesRead =
    if k'=k then 0 else (p.sockets k').bytesRead
  failed : p.Wf → ∀ k', (p'.sockets k').failed=(p.sockets k').failed

theorem PoolStep.trans_frame {freed : Bool} {p p' p'' : NntpServerPool}
    (h : PoolStep k freed p p') (h' : Frame p' p'') : PoolStep k freed p p'' :=
  ⟨h'.wf ∘ h.wf,fun hp k' => (h'.inUse k').trans (h.inUse hp k'),
    fun hp k' => (h'.bytesRead k').trans (h.bytesRead hp k'),
    fun hp k' => (h'.failed k').trans (h.failed hp k')⟩

theorem PoolStep.release {p p' : NntpServerPool} (h : PoolStep k false p p') (reusable : Bool) :
    PoolStep k true p (p'.release k reusable) := by
  refine ⟨fun hp => ?_,fun hp k' => ?_,fun hp k' => ?_,fun hp k' => ?_⟩ <;>
    obtain ⟨h1,h2,h3,h4,-⟩ := release_frame p' k reusable (h.wf hp)
  · exact h1
  · rw [h2,h.inUse hp]
    simp
  · rw [h3,h.bytesRead hp]
  · rw [h4,h.failed hp]

theorem poolStep_take (p : NntpServerPool) (k : SocketId) :
    PoolStep k false p (p.mapSocket k fun s => { s with bytesRead := 0 }) := by
  have hbytes : ∀ k',((p.mapSocket k fun s => { s with bytesRead := 0 }).sockets k').bytesRead =
      if k'=k then 0 else (p.sockets k').bytesRead := by
    intro k'
    by_cases he : k'=k
    · subst he
      simp [NntpServerPool.mapSocket]
    · simp [NntpServerPool.mapSocket,he]
  refine ⟨fun h => ⟨h.nodup,h.lt,fun k' hk' => ?_,fun k' hk' => ?_⟩,fun _ k' => ?_,
    fun _ => hbytes,fun _ k' => ?_⟩
  · by_cases he : k'=k
    · subst he
      simp only [NntpServerPool.mapSocket,Function.update_self] at hk' ⊢
      exact h.dead _ hk'
    · simp only [NntpServerPool.mapSocket,Function.update_of_ne he] at hk' ⊢
      exact h.dead _ hk'
  · rw [hbytes]
    split_ifs
    · rfl
    · exact h.unread k' hk'
  · simp only [NntpServerPool.mapSocket,InUse,imp_true_iff,true_and]
  · by_cases he : k'=k
    · subst he
      simp [NntpServerPool.mapSocket]
    · simp [NntpServerPool.mapSocket,he]

theorem Wf.leased_step (hw : Wf w) {o' : Option NntpServerPool} {freed : Bool}
    (h : Option.Rel (PoolStep k freed) w.pool o') :
    (∃ p', o'=some p' ∧ p'.InUse k') ↔
      (k'=k → freed=false) ∧ (w.table.seat k').isSome=true := by
  rw [hw.leased k']
  cases hp : w.pool with
  | none =>
    rw [hp] at h
    cases h
    simp
  | some p =>
    rw [hp] at h
    cases h with
    | some h => simp [h.inUse (hw.pool p hp) k']

theorem Wf.pending_step (hw : Wf w) (hin : id∈w.jobs) {o' : Option NntpServerPool} {freed : Bool}
    (h : Option.Rel (PoolStep k freed) w.pool o') (k' : SocketId) :
    (o'.elim 0 fun p => (p.sockets k').bytesRead) +
      Function.update w.history.charged k (w.history.heard k) k'=w.history.heard k' := by
  have hpend := hw.pending (.inr (List.ne_nil_of_mem hin)) k'
  unfold unread at hpend
  cases hp : w.pool with
  | none =>
    rw [hp] at h hpend
    cases h
    by_cases he : k'=k
    · subst he
      simp
    · rwa [Function.update_of_ne he]
  | some p =>
    rw [hp] at h hpend
    cases h with
    | some hstep =>
      rw [Option.elim_some] at hpend ⊢
      rw [hstep.bytesRead (hw.pool p hp)]
      by_cases he : k'=k
      · subst he
        simp
      · rwa [if_neg he,Function.update_of_ne he]

theorem Wf.mem_jobs (hw : Wf w) (h : At w.table.seat k id) : id∈w.jobs := by
  obtain ⟨fo,hfo⟩ := hw.table.at_spot k id h
  rw [show id∈w.jobs ↔ _ from hw.table.listed id,hfo]
  exact Option.some_ne_none _

/-- The state after the last job on a socket is done, and with it the one behind it. -/
def closed (w : UsenetWorker) (k : SocketId) (id : JobId) (next : Option JobId)
    (ends : List Finished) (noPipeline : List QString) (pool : Option NntpServerPool) :
    UsenetWorker :=
  { w with
    noPipeline := noPipeline
    pool := pool
    heap := Function.update (next.elim w.heap fun f => Function.update w.heap f none) id none
    jobs := (next.elim w.jobs fun f => w.jobs.erase f).erase id
    jobsBySocket := Function.update w.jobsBySocket k none
    slots := w.slots.filter fun k' => decide (k' ≠ k)
    history := { w.history with
      results := w.history.results ++ ends
      charged := Function.update w.history.charged k (w.history.heard k)
      releases := Function.update w.history.releases k (w.history.releases k + 1) } }

theorem closed_table {next : Option JobId} {ends : List Finished} {noPipeline : List QString}
    {pool : Option NntpServerPool} :
    (w.closed k id next ends noPipeline pool).table=w.table.close k id next := by
  cases next with
  | none =>
    unfold table closed SeatTable.close
    rw [map_update]
    rfl
  | some f =>
    unfold table closed SeatTable.close
    simp only [Option.elim_some]
    rw [map_update,map_update]
    rfl

theorem closed_ended (next : Option JobId) (ends : List Finished) (noPipeline : List QString)
    (error : NntpError) {pool : Option NntpServerPool} {requeue : Bool} (hw : Wf w)
    (hs : w.table.seat k=some ⟨id,next⟩)
    (hends : ends.map Finished.report =
      (next.toList.map fun f => ⟨f,true,none⟩)++[w.board.final k id requeue])
    (hexact : ∀ r∈ends,r.Exact) (hpool : Option.Rel (PoolStep k true) w.pool pool) :
    Ended w (w.closed k id next ends noPipeline pool) id error := by
  have hseat : (w.closed k id next ends noPipeline pool).table.seat =
      Function.update w.table.seat k none := by
    rw [closed_table]
    exact SeatTable.close_seat hw.table hs
  have hmove : Move w.board (w.closed k id next ends noPipeline pool).board := by
    have hm := Move.close w.board k id next requeue hs
    convert hm using 1
    ext1 <;> try rfl
    · exact hseat
    · show (w.history.results++ends).map _ = _
      rw [List.map_append,hends,List.append_assoc]
      rfl
  have hin : id∈w.jobs := hw.mem_jobs (at_holder hs)
  have hother : ∀ k' h,w.jobsBySocket k'=some h → k'≠k → ¬ At w.table.seat k h :=
    fun k' h hk' hne hat => hne (hw.table.at_one (SeatTable.at_of_holder hk') hat)
  have hsound := Relation.ReflTransGen.single hmove
  have hreported : ∀ j,(∃ r∈ends.map Finished.report, r.job=j) →
      ∃ r∈w.history.results++ends, r.job=j := by
    rintro j ⟨_,hr,rfl⟩
    obtain ⟨r,hr',rfl⟩ := List.mem_map.mp hr
    exact ⟨r,List.mem_append_right _ hr',rfl⟩
  refine ⟨⟨?_,Moves.sound hsound hw.sound,?_,?_,?_,?_,?_,?_,hw.allowed⟩,hsound,rfl,?_,?_,
    ?_,?_,?_⟩
  · rw [closed_table]
    exact SeatTable.close_wf hw.table hs
  · intro p' hp'
    obtain ⟨p,hp,hstep⟩ := rel_some hpool hp'
    exact hstep.wf (hw.pool p hp)
  · intro k'
    rw [hseat,show (∃ p, (w.closed k id next ends noPipeline pool).pool=some p ∧ _) ↔ _ from
      hw.leased_step hpool]
    by_cases he : k'=k
    · subst he
      simp
    · simp [he]
  · exact fun _ => hw.pending_step hin hpool
  · intro k' hk'
    obtain ⟨hk',hne⟩ := List.mem_filter.mp hk'
    rw [hseat,Function.update_of_ne (by simpa using hne)]
    exact hw.slots k' hk'
  · intro k' h hk'
    have hne : k'≠k := by
      rintro rfl
      rw [show (w.closed k' id next ends noPipeline pool).jobsBySocket k'=none from
        Function.update_self _ _ _] at hk'
      cases hk'
    rw [show (w.closed k id next ends noPipeline pool).jobsBySocket k'=w.jobsBySocket k' from
      Function.update_of_ne hne _ _] at hk'
    have hat := hother k' h hk' hne
    obtain ⟨job,hjob,hf⟩ := hw.watched k' h hk'
    refine ⟨job,?_,hf⟩
    have hh : h≠id := by
      rintro rfl
      exact hat (at_holder hs)
    refine (Function.update_of_ne hh _ _).trans ?_
    cases next with
    | none => exact hjob
    | some f =>
      have hhf : h≠f := by
        rintro rfl
        exact hat (at_next hs)
      exact (Function.update_of_ne hhf _ _).trans hjob
  · intro r hr
    rcases List.mem_append.mp hr with hr | hr
    · exact hw.exact r hr
    · exact hexact r hr
  · refine hreported id ⟨w.board.final k id requeue,?_,rfl⟩
    rw [hends]
    exact List.mem_append_right _ (List.mem_singleton_self _)
  · intro _ k' f hk'
    have hat : At w.table.seat k id := at_holder hs
    have he := hw.table.at_one (at_holder hk') hat
    subst he
    rw [hs] at hk'
    cases hk'
    refine hreported f ⟨⟨f,true,none⟩,?_,rfl⟩
    rw [hends]
    exact List.mem_append_left _ (List.mem_singleton_self _)
  · intro p' hp'
    obtain ⟨p,hp,hstep⟩ := rel_some hpool hp'
    exact ⟨p,hp,hstep.failed (hw.pool p hp)⟩
  · intro k' hk'
    rw [hseat] at hk'
    by_cases he : k'=k
    · rw [he,Function.update_self] at hk'
      cases hk'
    · rw [Function.update_of_ne he] at hk'
      exact ⟨hk',fun _ h => hother k' id h he (at_holder hs)⟩
  · show ((next.elim w.jobs fun f => w.jobs.erase f).erase id).length<w.jobs.length
    cases next with
    | none =>
      rw [Option.elim_none,List.length_erase_of_mem hin]
      exact Nat.sub_lt (List.length_pos_of_mem hin) Nat.one_pos
    | some f =>
      have hf : f∈w.jobs := hw.mem_jobs (at_next hs)
      refine Nat.lt_of_le_of_lt (List.length_erase_le ..) ?_
      rw [Option.elim_some,List.length_erase_of_mem hf]
      exact Nat.sub_lt (List.length_pos_of_mem hf) Nat.one_pos

/-- The state after the follower has taken the socket over. -/
def advanced (w : UsenetWorker) (k : SocketId) (id f : JobId) (job : Job) (r : Finished)
    (t : Takeover) (noPipeline : List QString) (pool : Option NntpServerPool)
    (slots : List SocketId) : UsenetWorker :=
  { w with
    noPipeline := noPipeline
    pool := pool
    heap := Function.update (Function.update w.heap f (some job)) id none
    jobs := w.jobs.erase id
    jobsBySocket := Function.update w.jobsBySocket k (some f)
    slots := slots
    history := { w.history with
      results := w.history.results ++ [r]
      takeovers := w.history.takeovers ++ [t]
      charged := Function.update w.history.charged k (w.history.heard k) } }

section Advanced

variable {r : Finished} {t : Takeover} {noPipeline : List QString} {pool : Option NntpServerPool}
  {slots : List SocketId} {error : NntpError} {requeue : Bool}

theorem advanced_table (hf : w.table.spot f=some (job.socket, job.follower)) :
    (w.advanced k id f job r t noPipeline pool slots).table=w.table.advance k id f := by
  unfold table advanced SeatTable.advance
  rw [map_update,map_update]
  simp only [Option.map_none,Option.map_some]
  rw [← hf]
  unfold table
  simp only [Function.update_eq_self]

theorem advanced_ended (noPipeline : List QString) (error : NntpError) (hw : Wf w)
    (hs : w.table.seat k=some ⟨id,some f⟩)
    (hf : w.table.spot f=some (job.socket, job.follower)) (hwatch : job.failedConn=true)
    (hr : r.report=w.board.final k id requeue) (hexact : r.Exact) (ht : t.link=⟨id,f,k⟩)
    (hallowed : t.Allowed) (hpool : Option.Rel (PoolStep k false) w.pool pool)
    (hslots : ∀ k'∈slots,k'=k ∨ k'∈w.slots) (herror : isFatalToConnection error=false) :
    Ended w (w.advanced k id f job r t noPipeline pool slots) id error := by
  have htable : (w.advanced k id f job r t noPipeline pool slots).table =
      w.table.advance k id f := advanced_table hf
  have hseat : (w.advanced k id f job r t noPipeline pool slots).table.seat =
      Function.update w.table.seat k (some ⟨f,none⟩) := by
    rw [htable]
    exact SeatTable.advance_seat hw.table hs
  have hmove : Move w.board (w.advanced k id f job r t noPipeline pool slots).board := by
    have hm := Move.advance w.board k id f requeue hs
    convert hm using 1
    ext1 <;> try rfl
    · exact hseat
    · show (w.history.results++[r]).map _ = _
      rw [List.map_append,List.map_singleton,hr]
      rfl
    · show (w.history.takeovers++[t]).map _ = _
      rw [List.map_append,List.map_singleton,ht]
      rfl
  have hin : id∈w.jobs := hw.mem_jobs (at_holder hs)
  have hother : ∀ k' h,w.jobsBySocket k'=some h → k'≠k → ¬ At w.table.seat k h :=
    fun k' h hk' hne hat => hne (hw.table.at_one (SeatTable.at_of_holder hk') hat)
  have hsound := Relation.ReflTransGen.single hmove
  refine ⟨⟨?_,Moves.sound hsound hw.sound,?_,?_,?_,?_,?_,?_,?_⟩,hsound,rfl,?_,
    fun h => ?_,?_,?_,?_⟩
  · rw [htable]
    exact SeatTable.advance_wf hw.table hs
  · intro p' hp'
    obtain ⟨p,hp,hstep⟩ := rel_some hpool hp'
    exact hstep.wf (hw.pool p hp)
  · intro k'
    rw [hseat,show (∃ p, (w.advanced k id f job r t noPipeline pool slots).pool=some p ∧ _) ↔ _
      from hw.leased_step hpool]
    by_cases he : k'=k
    · subst he
      simp [hs]
    · simp [he]
  · exact fun _ => hw.pending_step hin hpool
  · intro k' hk'
    rw [hseat]
    by_cases he : k'=k
    · exact ⟨f,by rw [he,Function.update_self]⟩
    · rw [Function.update_of_ne he]
      exact hw.slots k' ((hslots k' hk').resolve_left he)
  · intro k' h hk'
    by_cases he : k'=k
    · subst he
      rw [show (w.advanced k' id f job r t noPipeline pool slots).jobsBySocket k'=some f from
        Function.update_self _ _ _] at hk'
      cases hk'
      refine ⟨job,?_,hwatch⟩
      exact (Function.update_of_ne (hw.table.next_ne k' id f hs) _ _).trans
        (Function.update_self _ _ _)
    · rw [show (w.advanced k id f job r t noPipeline pool slots).jobsBySocket k' =
        w.jobsBySocket k' from Function.update_of_ne he _ _] at hk'
      have hat := hother k' h hk' he
      obtain ⟨job',hjob',hf'⟩ := hw.watched k' h hk'
      have hh : h≠id := by
        rintro rfl
        exact hat (at_holder hs)
      have hhf : h≠f := by
        rintro rfl
        exact hat (at_next hs)
      exact ⟨job',((Function.update_of_ne hh _ _).trans (Function.update_of_ne hhf _ _)).trans hjob',
        hf'⟩
  · intro r' hr'
    rcases List.mem_append.mp hr' with hr' | hr'
    · exact hw.exact r' hr'
    · rw [List.mem_singleton.mp hr']
      exact hexact
  · intro t' ht'
    rcases List.mem_append.mp ht' with ht' | ht'
    · exact hw.allowed t' ht'
    · rw [List.mem_singleton.mp ht']
      exact hallowed
  · exact ⟨r,List.mem_append_right _ (List.mem_singleton_self _),congrArg Report.job hr⟩
  · rw [herror] at h
    cases h
  · intro p' hp'
    obtain ⟨p,hp,hstep⟩ := rel_some hpool hp'
    exact ⟨p,hp,hstep.failed (hw.pool p hp)⟩
  · intro k' hk'
    rw [hseat] at hk'
    by_cases he : k'=k
    · subst he
      exact ⟨by rw [hs]; rfl,fun h => absurd h (by rw [herror]; exact Bool.false_ne_true)⟩
    · rw [Function.update_of_ne he] at hk'
      exact ⟨hk',fun _ h => hother k' id h he (at_holder hs)⟩
  · show (w.jobs.erase id).length<w.jobs.length
    rw [List.length_erase_of_mem hin]
    exact Nat.sub_lt (List.length_pos_of_mem hin) Nat.one_pos

end Advanced

/-- The state after a follower is settled before its turn. -/
def left (w : UsenetWorker) (host id : JobId) (hostJob : Job) (r : Finished) : UsenetWorker :=
  { w with
    heap := Function.update (Function.update w.heap host (some { hostJob with follower := none })) id
      none
    jobs := w.jobs.erase id
    history := { w.history with results := w.history.results ++ [r] } }

theorem left_table {hostJob : Job} {r : Finished} (hk : hostJob.socket=some k) :
    (w.left host id hostJob r).table=w.table.leave k host id := by
  unfold table left SeatTable.leave
  rw [map_update,map_update]
  simp only [Option.map_none,Option.map_some,hk]

theorem left_ended {hostJob : Job} {r : Finished} {error : NntpError} (hw : Wf w)
    (hs : w.table.seat k=some ⟨host,some id⟩) (hhost : w.heap host=some hostJob)
    (hk : hostJob.socket=some k) (hr : r.report=⟨id,true,none⟩) (hexact : r.Exact) :
    Ended w (w.left host id hostJob r) id error := by
  have hby : w.jobsBySocket k=some host := SeatTable.seat_holder hs
  have hne := hw.table.next_ne k host id hs
  have hseat : (w.left host id hostJob r).table.seat =
      Function.update w.table.seat k (some ⟨host,none⟩) := by
    rw [left_table hk]
    exact SeatTable.leave_seat hw.table hs
  have hmove : Move w.board (w.left host id hostJob r).board := by
    have hm := Move.leave w.board k host id hs
    convert hm using 1
    ext1 <;> try rfl
    · exact hseat
    · show (w.history.results++[r]).map _ = _
      rw [List.map_append,List.map_singleton,hr]
      rfl
  have hin : id∈w.jobs := hw.mem_jobs (at_next hs)
  have hsome : ∀ k',((w.left host id hostJob r).table.seat k').isSome =
      (w.table.seat k').isSome := by
    intro k'
    rw [hseat]
    by_cases he : k'=k
    · subst he
      rw [Function.update_self,hs]
      rfl
    · rw [Function.update_of_ne he]
  have hsound := Relation.ReflTransGen.single hmove
  refine ⟨⟨?_,Moves.sound hsound hw.sound,hw.pool,?_,?_,?_,?_,?_,hw.allowed⟩,hsound,rfl,
    ?_,fun _ k' f hk' => ?_,?_,?_,?_⟩
  · rw [left_table hk]
    exact SeatTable.leave_wf hw.table hs
  · intro k'
    rw [hsome]
    exact hw.leased k'
  · exact fun _ => hw.pending (.inr (List.ne_nil_of_mem hin))
  · intro k' hk'
    rw [hseat]
    by_cases he : k'=k
    · exact ⟨host,by rw [he,Function.update_self]⟩
    · rw [Function.update_of_ne he]
      exact hw.slots k' hk'
  · intro k' h hk'
    obtain ⟨job',hjob',hf'⟩ := hw.watched k' h hk'
    have hhid : h≠id := by
      rintro rfl
      have he := hw.table.at_one (SeatTable.at_of_holder hk') (at_next hs)
      subst he
      exact hne (Option.some.inj (hk'.symm.trans hby))
    by_cases hh : h=host
    · subst hh
      rw [hhost] at hjob'
      cases hjob'
      refine ⟨{ hostJob with follower := none },?_,hf'⟩
      exact (Function.update_of_ne hhid _ _).trans (Function.update_self _ _ _)
    · exact ⟨job',((Function.update_of_ne hhid _ _).trans (Function.update_of_ne hh _ _)).trans hjob',
        hf'⟩
  · intro r' hr'
    rcases List.mem_append.mp hr' with hr' | hr'
    · exact hw.exact r' hr'
    · rw [List.mem_singleton.mp hr']
      exact hexact
  · exact ⟨r,List.mem_append_right _ (List.mem_singleton_self _),congrArg Report.job hr⟩
  · have he := hw.table.at_one (at_holder hk') (at_next hs)
    subst he
    rw [hs] at hk'
    cases hk'
    exact absurd rfl hne
  · exact fun p' hp' => ⟨p',hp',fun _ => rfl⟩
  · intro k' hk'
    rw [hsome] at hk'
    refine ⟨hk',fun _ h => ?_⟩
    have he := hw.table.at_one (SeatTable.at_of_holder h) (at_next hs)
    subst he
    exact hne (Option.some.inj (h.symm.trans hby))
  · show (w.jobs.erase id).length<w.jobs.length
    rw [List.length_erase_of_mem hin]
    exact Nat.sub_lt (List.length_pos_of_mem hin) Nat.one_pos

section Finish

variable {error : NntpError} {text : QString}

theorem rel_frame {o o' o'' : Option NntpServerPool} {freed : Bool}
    (h : Option.Rel (PoolStep k freed) o o') (h' : Option.Rel Frame o' o'') :
    Option.Rel (PoolStep k freed) o o'' := by
  cases h with
  | none =>
    cases h'
    exact .none
  | some h =>
    cases h' with
    | some h' => exact .some (h.trans_frame h')

theorem rel_release {o o' : Option NntpServerPool} (h : Option.Rel (PoolStep k false) o o')
    (reusable : Bool) :
    Option.Rel (PoolStep k true) o (o'.map fun p => p.release k reusable) := by
  cases h with
  | none => exact .none
  | some h => exact .some (h.release reusable)

theorem Wf.pool_some (hw : Wf w) {s : Seat} (hs : w.table.seat k=some s) :
    ∃ p, w.pool=some p ∧ p.InUse k :=
  (hw.leased k).mp (by rw [hs]; rfl)

theorem result_exact (error : NntpError) (text : QString) (hw : Wf w) (hk : job.socket=some k)
    (hs : w.table.seat k=some ⟨id,job.follower⟩) :
    (Finished.mk id (w.result job error text)
      (some (k, w.history.charged k, w.history.heard k))).Exact := by
  obtain ⟨p,hp,-⟩ := hw.pool_some hs
  have hpend := hw.pending (.inr (List.ne_nil_of_mem (hw.mem_jobs (at_holder hs)))) k
  have hraw : (w.result job error text).rawBytes=(p.sockets k).bytesRead := by
    simp only [result,hk,Option.bind_some,socket?,hp,Option.map_some,Option.elim_some]
  have hun : w.unread k=(p.sockets k).bytesRead := by rw [unread,hp,Option.elim_some]
  show (w.result job error text).rawBytes=w.history.heard k-w.history.charged k
  omega

theorem detached_exact (hk : job.socket=none) :
    (Finished.mk id (w.result job error text) none).Exact := by
  show (w.result job error text).rawBytes=0
  simp only [result,hk,Option.bind_none,Option.elim_none]

theorem handOver_eq (p : NntpServerPool) (host : JobId)
    (hnot : ∀ k',w.jobsBySocket k'=some f → k'=k) :
    ∃ job' slots, w.handOver p host k f job = { w with
        heap := Function.update w.heap f (some job')
        jobsBySocket := Function.update w.jobsBySocket k (some f)
        slots := slots
        history := { w.history with
          takeovers := w.history.takeovers++[Takeover.mk ⟨host,f,k⟩ job.request p w.now] } } ∧
      job'.socket=job.socket ∧ job'.follower=job.follower ∧ job'.failedConn=true ∧
      ∀ k'∈slots,k'=k ∨ k'∈w.slots := by
  unfold handOver
  split_ifs with hn
  · have hjob : ({ w.setJob f { job with failedConn := true } with
        jobsBySocket := Function.update w.jobsBySocket k (some f)
        history := { w.history with
          takeovers := w.history.takeovers++[Takeover.mk ⟨host,f,k⟩ job.request p w.now] } } :
        UsenetWorker).heap f=some { job with failedConn := true } := Function.update_self _ _ _
    rcases onNearlyDone_eq hjob with he | ⟨k',hk',-,he⟩
    · refine ⟨{ job with failedConn := true, nearlyDone := true },w.slots,he.trans ?_,rfl,rfl,
        rfl,fun k' hk' => .inr hk'⟩
      · unfold setJob
        rw [Function.update_idem]
    · refine ⟨{ job with failedConn := true, nearlyDone := true },w.slots.insert k',he.trans ?_,
        rfl,rfl,rfl,fun k'' hk'' => ?_⟩
      · unfold setJob
        rw [Function.update_idem]
      · rcases List.mem_insert_iff.mp hk'' with rfl | hin
        · by_cases hkk : k''=k
          · exact .inl hkk
          · exact .inl (hnot k'' ((Function.update_of_ne hkk _ _).symm.trans hk'))
        · exact .inr hin
  · exact ⟨{ job with failedConn := true },w.slots,rfl,rfl,rfl,rfl,fun k' hk' => .inr hk'⟩

theorem requeueFollower_eq (hf : w.heap f=some job) :
    w.requeueFollower f =
      w.report f (w.result { job with socket := none, requeue := true } .disconnected
        (QString.lit "Connection closed before the pipelined article")) none := by
  unfold requeueFollower
  simp only [hf]

/-- The job that holds the socket is done. -/
theorem finishJob_holder (hw : Wf w) (hjob : w.heap id=some job) (hk : job.socket=some k)
    (hby : w.jobsBySocket k=some id) (hs : w.table.seat k=some ⟨id,job.follower⟩) :
    Ended w (w.finishJob id error text) id error := by
  have hleave : w.leaveHost id job=(w, job) := by
    unfold leaveHost
    simp only [hk,hby,if_true]
  obtain ⟨np,pool1,h1,hrel1⟩ := noteFailure_eq (w.takeBytesRead k) job error
    (w.result job error text).serverKey
  have hstep1 : Option.Rel (PoolStep k false) w.pool pool1 :=
    rel_frame (rel_map fun p => poolStep_take p k) hrel1
  have hfinish : w.finishJob id error text =
      ((((w.takeBytesRead k).setPool np pool1).passOn id k job.follower
        !isFatalToConnection error).noteLimit error (w.result job error text).serverKey).report id
          (w.result job error text) (some (k, w.history.charged k, w.history.heard k)) := by
    unfold finishJob
    simp only [hjob,hleave,hk]
    rw [h1]
  rw [hfinish]
  have hexact := result_exact error text hw hk hs
  cases hfol : job.follower with
  | none =>
    rw [passOn_none]
    obtain ⟨pool2,h2,hrel2⟩ := noteLimit_eq
      ((((w.takeBytesRead k).setPool np pool1).vacate k).release k !isFatalToConnection error) error
      (w.result job error text).serverKey
    rw [h2]
    exact closed_ended none
      [⟨id,w.result job error text,some (k, w.history.charged k, w.history.heard k)⟩] np error
      hw (hfol ▸ hs) rfl (by simpa using hexact)
      (rel_frame (rel_release hstep1 !isFatalToConnection error) hrel2)
  | some f =>
    have hs' : w.table.seat k=some ⟨id,some f⟩ := hfol ▸ hs
    obtain ⟨fjob,hfjob,hfk,hff⟩ := spot_job (hw.table.last k id f hs')
    obtain ⟨p,hp,-⟩ := hw.pool_some hs'
    obtain ⟨p1,rfl⟩ : ∃ p1, pool1=some p1 := by
      rw [hp] at hstep1
      cases hstep1 with
      | some h => exact ⟨_,rfl⟩
    rw [passOn_some (w := (w.takeBytesRead k).setPool np (some p1)) hfjob rfl]
    split_ifs with hc
    · have hnot : ∀ k',Function.update w.jobsBySocket k none k'=some f → k'=k := by
        intro k' hk'
        by_contra hkk
        rw [Function.update_of_ne hkk] at hk'
        exact hkk (hw.table.at_one (SeatTable.at_of_holder hk') (at_next hs'))
      obtain ⟨fjob',slots,h3,hso,hfo,hfc,hslots⟩ := handOver_eq
        (w := ((w.takeBytesRead k).setPool np (some p1)).vacate k) p1 id hnot
      obtain ⟨pool2,h2,hrel2⟩ := noteLimit_eq
        ((((w.takeBytesRead k).setPool np (some p1)).vacate k).handOver p1 id k f fjob)
        error (w.result job error text).serverKey
      rw [h2,h3]
      rw [h3] at hrel2
      have he := advanced_ended np error
        (t := Takeover.mk ⟨id,f,k⟩ fjob.request p1 w.now) hw hs'
        (by rw [hso,hfo]; exact table_spot hfjob) hfc rfl
        hexact rfl hc.2.2 (rel_frame hstep1 hrel2)
        (fun k' hk' => (hslots k' hk').imp_right List.mem_of_mem_filter) (by simpa using hc.1)
      convert he using 1
      unfold advanced report emit setPool vacate takeBytesRead mapSocket mapPool
      simp only [Function.update_idem]
    · rw [requeueFollower_eq (w := ((w.takeBytesRead k).setPool np (some p1)).vacate k) hfjob]
      generalize hfr : result _ _ _ _ = fr
      obtain ⟨pool2,h2,hrel2⟩ := noteLimit_eq
        (((((w.takeBytesRead k).setPool np (some p1)).vacate k).report f fr none).release k
          !isFatalToConnection error) error (w.result job error text).serverKey
      rw [h2]
      have hends : Finished.Exact ⟨f,fr,none⟩ := by
        rw [← hfr]
        exact detached_exact rfl
      have he := closed_ended (some f) [⟨f,fr,none⟩,
        ⟨id,w.result job error text,some (k, w.history.charged k, w.history.heard k)⟩] np error
        hw hs' (by rw [← hfr]; rfl) (by simp [hends,hexact])
        (rel_frame (rel_release hstep1 !isFatalToConnection error) hrel2)
      convert he using 1
      unfold closed report emit release setPool vacate takeBytesRead mapSocket mapPool
      simp only [List.append_assoc,List.singleton_append,Option.elim_some]

theorem finishJob_follower {hostJob : Job} (hw : Wf w) (hjob : w.heap id=some job)
    (hk : job.socket=some k) (hne : host≠id) (hby : w.jobsBySocket k=some host)
    (hhost : w.heap host=some hostJob) (hhk : hostJob.socket=some k)
    (hfol : hostJob.follower=some id) (hs : w.table.seat k=some ⟨host,some id⟩) :
    Ended w (w.finishJob id error text) id error := by
  have hfinish : w.finishJob id error text=w.left host id hostJob
      ⟨id,(w.setJob host { hostJob with follower := none }).result
        { job with socket := none, requeue := true } error text,none⟩ := by
    unfold finishJob leaveHost
    simp only [hjob,hk,hby,hhost,hfol,if_true]
    rw [if_neg (fun h => hne (Option.some.inj h))]
    rfl
  rw [hfinish]
  exact left_ended hw hs hhost hhk rfl (detached_exact rfl)

theorem finishJob_ended (hw : Wf w) (hjob : w.heap id=some job) (error : NntpError)
    (text : QString) : Ended w (w.finishJob id error text) id error := by
  obtain ⟨k,hk,⟨hby,hs⟩ | ⟨host,hostJob,hne,hby,hhost,hhk,hfol,-,hs⟩⟩ :=
    hw.at_cases hjob
  · exact finishJob_holder hw hjob hk hby hs
  · exact finishJob_follower hw hjob hk hne hby hhost hhk hfol hs

end Finish

end UsenetWorker

end EmuleQt.Usenet
