import EmuleQt.Usenet.WorkerLeases

namespace EmuleQt.Usenet.UsenetWorker

open Framework Framework.Board Utils NntpServerPool

variable {w w' : UsenetWorker} {k : SocketId} {id : JobId} {job job' : Job}
  {error : NntpError} {text : QString} {request : UsenetFetchRequest}

theorem setJob_table (hjob : w.heap id=some job) (hs : job'.socket=job.socket)
    (hf : job'.follower=job.follower) : (w.setJob id job').table=w.table := by
  unfold table setJob
  rw [map_update]
  congr 1
  rw [Option.map_some,hs,hf,← table_spot hjob]
  exact Function.update_eq_self _ _

theorem setJob_quiet (hjob : w.heap id=some job) (hs : job'.socket=job.socket)
    (hf : job'.follower=job.follower) (hw : job.failedConn=true → job'.failedConn=true) :
    Quiet w (w.setJob id job') := by
  refine ⟨setJob_table hjob hs hf,rfl,rfl,fun _ => .inl,rel_refl Frame.refl _,
    fun i job'' hi hc => ?_⟩
  by_cases he : i=id
  · subst he
    rw [hjob] at hi
    cases hi
    exact ⟨job',Function.update_self _ _ _,hw hc⟩
  · exact ⟨job'',(Function.update_of_ne he _ _).trans hi,hc⟩

theorem startJob_quiet (w : UsenetWorker) (id : JobId) : Quiet w (w.startJob id) := by
  unfold startJob
  split
  · exact Quiet.refl w
  · next job hjob =>
    split_ifs
    · exact Quiet.refl w
    · exact setJob_quiet hjob rfl rfl fun h => h

theorem fetcherReads_quiet (w : UsenetWorker) (id : JobId) (f : ArticleFetcher) :
    Quiet w (w.fetcherReads id f) := by
  unfold fetcherReads
  split
  · exact Quiet.refl w
  · next job hjob =>
    split_ifs
    · exact Quiet.refl w
    · exact setJob_quiet hjob rfl rfl fun h => h

theorem onNearlyDone_quiet (w : UsenetWorker) (id : JobId) : Quiet w (w.onNearlyDone id) := by
  cases hjob : w.heap id with
  | none =>
    unfold onNearlyDone
    simp only [hjob]
    exact Quiet.refl w
  | some job =>
    have hq : Quiet w (w.setJob id { job with nearlyDone := true }) :=
      setJob_quiet hjob rfl rfl fun h => h
    rcases onNearlyDone_eq hjob with he | ⟨k,hby,hfol,he⟩
    · rw [he]
      exact hq
    · rw [he]
      refine ⟨hq.table,hq.history,hq.shuttingDown,fun k' hk' => ?_,hq.pool,hq.watched⟩
      rcases List.mem_insert_iff.mp hk' with rfl | hin
      · refine .inr ⟨id,?_⟩
        show (w.jobsBySocket k').map _ = _
        rw [hby]
        show some (Seat.mk id ((w.table.spot id).bind Prod.snd))=_
        rw [table_spot hjob,Option.bind_some,hfol]
      · exact .inl hin

theorem mapPool_quiet {g : NntpServerPool → NntpServerPool} (w : UsenetWorker)
    (hg : ∀ p,Frame p (g p)) : Quiet w (w.mapPool g) :=
  ⟨rfl,rfl,rfl,fun _ => .inl,rel_map hg,fun _ job h hf => ⟨job,h,hf⟩⟩

theorem Quiet.trans {w'' : UsenetWorker} (h : Quiet w w') (h' : Quiet w' w'') : Quiet w w'' := by
  refine ⟨h'.table.trans h.table,h'.history.trans h.history,h'.shuttingDown.trans h.shuttingDown,
    fun k hk => ?_,?_,fun i job hi hc => ?_⟩
  · rcases h'.slots k hk with hk | hk
    · exact h.slots k hk
    · rw [h.table] at hk
      exact .inr hk
  · have h1 := h.pool
    have h2 := h'.pool
    cases hp : w''.pool with
    | none =>
      rw [rel_none h1 (rel_none h2 hp)]
      exact .none
    | some p'' =>
      obtain ⟨p',hp',hf'⟩ := rel_some h2 hp
      obtain ⟨p,hp0,hf⟩ := rel_some h1 hp'
      rw [hp0]
      exact .some (hf.trans hf')
  · obtain ⟨job',hi',hc'⟩ := h.watched i job hi hc
    exact h'.watched i job' hi' hc'

/-- What a step does to the board, and to the connections that are out. -/
structure Stepped (w w' : UsenetWorker) : Prop where
  wf : Wf w'
  moves : Moves w.board w'.board

theorem Stepped.trans {w'' : UsenetWorker} (h : Stepped w w') (h' : Stepped w' w'') :
    Stepped w w'' := ⟨h'.wf,h.moves.trans h'.moves⟩

theorem Quiet.stepped (h : Quiet w w') (hw : Wf w) : Stepped w w' :=
  ⟨h.wf hw,by rw [h.board]; exact Relation.ReflTransGen.refl⟩

theorem Ended.stepped (h : Ended w w' id error) : Stepped w w' := ⟨h.wf,h.moves⟩

theorem Wf.fresh (hw : Wf w) : w.heap w.history.requests=none := by
  cases hjob : w.heap w.history.requests with
  | none => rfl
  | some job =>
    obtain ⟨k,-,hat⟩ := hw.table.spot_at _ _ _ (table_spot hjob)
    exact absurd (hw.sound.seated.at_lt k _ hat) (Nat.lt_irrefl _)

theorem Wf.fresh_spot (hw : Wf w) : w.table.spot w.history.requests=none := by
  show (w.heap w.history.requests).map _ = none
  rw [hw.fresh]
  rfl

/-- A request that is answered at once. -/
def answered (w : UsenetWorker) (pool : Option NntpServerPool) (r : UsenetFetchResult) :
    UsenetWorker :=
  { w with
    pool := pool
    history := { w.history with
      requests := w.history.requests + 1
      results := w.history.results ++ [⟨w.history.requests, r, none⟩] } }

variable {pool : Option NntpServerPool} {p : NntpServerPool}

theorem answered_stepped {r : UsenetFetchResult} (hw : Wf w) (hpool : Option.Rel Frame w.pool pool)
    (hr : r.rawBytes=0) :
    Stepped w (w.answered pool r) := by
  have hmove : Move w.board (w.answered pool r).board := by
    have hm := Move.refuse w.board r.requeue
    convert hm using 1
    ext1 <;> try rfl
    show (w.history.results++[_]).map _ = _
    rw [List.map_append,List.map_singleton]
    rfl
  have hsound := Relation.ReflTransGen.single hmove
  have hq : Quiet w { w with pool := pool } :=
    ⟨rfl,rfl,rfl,fun _ => .inl,hpool,fun _ job h hf => ⟨job,h,hf⟩⟩
  have hw' := hq.wf hw
  refine ⟨⟨hw'.table,Moves.sound hsound hw.sound,hw'.pool,hw'.leased,hw'.pending,hw'.slots,
    hw'.watched,fun r' hr' => ?_,hw'.allowed⟩,hsound⟩
  rcases List.mem_append.mp hr' with hr' | hr'
  · exact hw.exact r' hr'
  · rw [List.mem_singleton.mp hr']
    exact hr

theorem finish_unplaced (job : Job) (hw : Wf w) (pool : Option NntpServerPool)
    (hso : job.socket=none)
    (error : NntpError) (text : QString) :
    (({ w.counted with pool := pool } : UsenetWorker).addJob w.history.requests job).finishJob
        w.history.requests error text =
      w.answered pool (w.result job error text) := by
  have hfresh := hw.fresh
  have hnot : w.history.requests∉w.jobs := by
    rw [show _ ∈ w.jobs ↔ _ from hw.table.listed w.history.requests,hw.fresh_spot]
    exact fun h => h rfl
  have hheap : (({ w.counted with pool := pool } : UsenetWorker).addJob
      w.history.requests job).heap w.history.requests=some job :=
    Function.update_self _ _ _
  unfold finishJob leaveHost
  simp only [hheap,hso]
  unfold answered report emit addJob setJob result counted
  dsimp only
  rw [Function.update_idem,← hfresh,Function.update_eq_self,List.erase_append_right _ hnot]
  simp [hso]

/-- The state once the new job holds a leased socket. -/
def leased (w : UsenetWorker) (k : SocketId) (pool : NntpServerPool) (job : Job) : UsenetWorker :=
  { w with
    pool := some pool
    heap := Function.update w.heap w.history.requests (some job)
    jobs := w.jobs ++ [w.history.requests]
    jobsBySocket := Function.update w.jobsBySocket k (some w.history.requests)
    history := { w.history with
      requests := w.history.requests + 1
      leases := Function.update w.history.leases k (w.history.leases k + 1) } }

theorem leased_table {pool : NntpServerPool} (hk : job.socket=some k)
    (hf : job.follower=none) :
    (w.leased k pool job).table=w.table.lease k w.history.requests := by
  unfold table leased SeatTable.lease
  rw [map_update,Option.map_some,hk,hf]

theorem Wf.not_seated (hw : Wf w) (hno : ∀ p,w.pool=some p → ¬ p.InUse k) :
    w.table.seat k=none := by
  cases hs : w.table.seat k with
  | none => rfl
  | some s =>
    obtain ⟨p,hp,hin⟩ := hw.pool_some hs
    exact absurd hin (hno p hp)

theorem leased_stepped {pool : NntpServerPool} (hw : Wf w) (hp : w.pool=some p) (hwf : pool.Wf)
    (hfree : ¬ p.InUse k) (hin : ∀ k',pool.InUse k' ↔ k'=k ∨ p.InUse k')
    (hbytes : ∀ k',(pool.sockets k').bytesRead=(p.sockets k').bytesRead)
    (hk : job.socket=some k) (hf : job.follower=none) (hc : job.failedConn=true)
    (hup : w.shuttingDown=false) : Stepped w (w.leased k pool job) := by
  have hnone : w.table.seat k=none := by
    refine hw.not_seated fun p' hp' => ?_
    rw [hp] at hp'
    cases hp'
    exact hfree
  have htable : (w.leased k pool job).table=w.table.lease k w.history.requests :=
    leased_table hk hf
  have hseat : (w.leased k pool job).table.seat =
      Function.update w.table.seat k (some ⟨w.history.requests,none⟩) := by
    rw [htable]
    exact SeatTable.lease_seat hw.table hw.fresh_spot
  have hmove : Move w.board (w.leased k pool job).board := by
    have hm := Move.lease w.board k hnone
    convert hm using 1
    ext1 <;> try rfl
    exact hseat
  have hsound := Relation.ReflTransGen.single hmove
  refine ⟨⟨?_,Moves.sound hsound hw.sound,?_,?_,?_,?_,?_,hw.exact,hw.allowed⟩,hsound⟩
  · rw [htable]
    exact SeatTable.lease_wf hw.table hw.fresh_spot hnone
  · rintro _ ⟨⟩
    exact hwf
  · intro k'
    rw [hseat]
    simp only [leased,Option.some.injEq,exists_eq_left',hin]
    by_cases he : k'=k
    · subst he
      simp
    · rw [Function.update_of_ne he,hw.leased k',hp]
      simp [he]
  · intro _ k'
    have hpend := hw.pending (.inl hup) k'
    unfold unread at hpend ⊢
    rw [hp] at hpend
    exact (congrArg (· + _) (hbytes k')).trans hpend
  · intro k' hk'
    obtain ⟨h,hh⟩ := hw.slots k' hk'
    have hne : k'≠k := by
      rintro rfl
      rw [hnone] at hh
      cases hh
    exact ⟨h,by rw [hseat,Function.update_of_ne hne,hh]⟩
  · intro k' h hk'
    by_cases he : k'=k
    · subst he
      rw [show (w.leased k' pool job).jobsBySocket k'=some w.history.requests from
        Function.update_self _ _ _] at hk'
      cases hk'
      exact ⟨job,Function.update_self _ _ _,hc⟩
    · rw [show (w.leased k pool job).jobsBySocket k'=w.jobsBySocket k' from
        Function.update_of_ne he _ _] at hk'
      obtain ⟨job',hjob',hf'⟩ := hw.watched k' h hk'
      refine ⟨job',(Function.update_of_ne ?_ _ _).trans hjob',hf'⟩
      rintro rfl
      rw [hw.fresh] at hjob'
      cases hjob'

/-- The state once the new job is queued behind another. -/
def followed (w : UsenetWorker) (k : SocketId) (host : JobId) (hostJob : Job)
    (pool : Option NntpServerPool) (job : Job) : UsenetWorker :=
  { w with
    pool := pool
    heap := Function.update (Function.update w.heap w.history.requests (some job)) host
      (some { hostJob with follower := some w.history.requests })
    jobs := w.jobs ++ [w.history.requests]
    slots := w.slots.filter fun k' => decide (k' ≠ k)
    history := { w.history with
      requests := w.history.requests + 1
      links := w.history.links ++ [⟨host, w.history.requests, k⟩] } }

theorem followed_table {hostJob : Job} {host : JobId} (hk : job.socket=some k)
    (hf : job.follower=none) (hhk : hostJob.socket=some k) :
    (w.followed k host hostJob pool job).table=w.table.join k host w.history.requests := by
  unfold table followed SeatTable.join
  rw [map_update,map_update]
  simp only [Option.map_some,hk,hf,hhk]

theorem followed_stepped {hostJob : Job} {host : JobId} (hw : Wf w)
    (hpool : Option.Rel Frame w.pool pool) (hs : w.table.seat k=some ⟨host,none⟩)
    (hhost : w.heap host=some hostJob) (hhk : hostJob.socket=some k)
    (hk : job.socket=some k) (hf : job.follower=none) (hup : w.shuttingDown=false) :
    Stepped w (w.followed k host hostJob pool job) := by
  have htable : (w.followed k host hostJob pool job).table =
      w.table.join k host w.history.requests := followed_table hk hf hhk
  have hseat : (w.followed k host hostJob pool job).table.seat =
      Function.update w.table.seat k (some ⟨host,some w.history.requests⟩) := by
    rw [htable]
    exact SeatTable.join_seat hw.table hw.fresh_spot hs
  have hmove : Move w.board (w.followed k host hostJob pool job).board := by
    have hm := Move.join w.board k host hs
    convert hm using 1
    ext1 <;> try rfl
    exact hseat
  have hsound := Relation.ReflTransGen.single hmove
  have hq : Quiet w { w with pool := pool } :=
    ⟨rfl,rfl,rfl,fun _ => .inl,hpool,fun _ job h hf => ⟨job,h,hf⟩⟩
  have hw' := hq.wf hw
  refine ⟨⟨?_,Moves.sound hsound hw.sound,hw'.pool,?_,?_,?_,?_,hw.exact,hw.allowed⟩,hsound⟩
  · rw [htable]
    exact SeatTable.join_wf hw.table hw.fresh_spot hs
  · intro k'
    rw [hseat]
    refine Iff.trans ?_ (hw'.leased k')
    by_cases he : k'=k
    · subst he
      rw [Function.update_self,show ({ w with pool := pool } : UsenetWorker).table.seat k' =
        some ⟨host,none⟩ from hs]
      simp
    · rw [Function.update_of_ne he]
      rfl
  · exact fun _ => hw'.pending (.inl hup)
  · intro k' hk'
    obtain ⟨hin,hne⟩ := List.mem_filter.mp hk'
    rw [hseat,Function.update_of_ne (by simpa using hne)]
    exact hw.slots k' hin
  · intro k' h hk'
    obtain ⟨job',hjob',hf'⟩ := hw.watched k' h hk'
    by_cases hh : h=host
    · subst hh
      rw [hhost] at hjob'
      cases hjob'
      exact ⟨_,Function.update_self _ _ _,hf'⟩
    · refine ⟨job',(Function.update_of_ne hh _ _).trans ((Function.update_of_ne ?_ _ _).trans hjob'),
        hf'⟩
      rintro rfl
      rw [hw.fresh] at hjob'
      cases hjob'

theorem leaseTo_eq (w : UsenetWorker) (request : UsenetFetchRequest) (k : SocketId)
    (pool : NntpServerPool) (drainFails : Bool) :
    ∃ job, job.socket=some k ∧ job.follower=none ∧ job.failedConn=true ∧
      Quiet (w.leased k (if drainFails=true then pool.mapSocket k NntpSocket.fail else pool) job)
        (({ w.counted with pool := some pool } : UsenetWorker).leaseTo w.history.requests request k
          drainFails) := by
  have hupd : ∀ a b : Job, Function.update (Function.update w.heap w.history.requests (some a))
      w.history.requests (some b)=Function.update w.heap w.history.requests (some b) :=
    fun a b => Function.update_idem _ _ _
  unfold leaseTo
  dsimp only
  cases drainFails
  all_goals
    simp only [if_true,Bool.false_eq_true,if_false]
    split_ifs
    · refine ⟨{ Job.new request with socket := some k, failedConn := true },rfl,rfl,rfl,?_⟩
      convert startJob_quiet _ w.history.requests using 2
      unfold setJob leased addJob setJob counted
      simp only [mapSocket,mapPool,hupd,Option.map_some]
    · refine ⟨{ Job.new request with socket := some k, failedConn := true, readyConn := true },
        rfl,rfl,rfl,?_⟩
      convert Quiet.refl _ using 1
      unfold setJob leased addJob setJob counted
      simp only [mapSocket,mapPool,hupd,Option.map_some]

theorem takeSlot_mem {order : List SocketId} (h : w.takeSlot order request=some k) :
    k∈w.slots := by
  have hm := List.mem_of_find?_eq_some h
  rcases List.mem_append.mp hm with hm | hm
  · simpa using (List.mem_filter.mp hm).2
  · exact hm

theorem follow_eq (request : UsenetFetchRequest) (hw : Wf w) (pool : Option NntpServerPool)
    {host : JobId}
    (hs : w.table.seat k=some ⟨host,none⟩) :
    ∃ hostJob, w.heap host=some hostJob ∧ hostJob.socket=some k ∧
      ({ w.counted with pool := pool } : UsenetWorker).follow w.history.requests request k =
        (w.followed k host hostJob pool
          { Job.new request with socket := some k, pipelined := true }).startJob
            w.history.requests := by
  have hby : w.jobsBySocket k=some host := SeatTable.seat_holder hs
  obtain ⟨hostJob,hhost,hhk,hhf⟩ := spot_job (hw.table.holder_spot hs)
  have hne : host≠w.history.requests := by
    rintro rfl
    rw [hw.fresh] at hhost
    cases hhost
  have hheap : Function.update w.heap w.history.requests
      (some { Job.new request with socket := some k, pipelined := true }) host=some hostJob :=
    (Function.update_of_ne hne _ _).trans hhost
  refine ⟨hostJob,hhost,hhk,?_⟩
  unfold follow
  simp only [addJob,setJob,counted,hby,hheap]
  rfl

theorem refuse_stepped (hw : Wf w) (request : UsenetFetchRequest) :
    Stepped w (w.refuse request) :=
  answered_stepped hw (rel_refl Frame.refl w.pool) rfl

theorem fetchOn_cases (hw : Wf w) (hp : w.pool=some p) (request : UsenetFetchRequest)
    (a : Answer) :
    ∃ q, Frame p q ∧ ((∃ r, r.rawBytes=0 ∧ w.fetchOn p request a=w.answered (some q) r) ∨
      (∃ k host hostJob job, w.table.seat k=some ⟨host,none⟩ ∧ w.heap host=some hostJob ∧
        hostJob.socket=some k ∧ job.socket=some k ∧ job.follower=none ∧
        Quiet (w.followed k host hostJob (some q) job) (w.fetchOn p request a)) ∨
      ∃ k pool job, Leased q pool k a.connectFails ∧ job.socket=some k ∧ job.follower=none ∧
        job.failedConn=true ∧ Quiet (w.leased k (if a.drainFails=true then
          pool.mapSocket k NntpSocket.fail else pool) job) (w.fetchOn p request a)) := by
  obtain ⟨q,hframe,ho | ⟨pool,k,ho,hl⟩⟩ :=
    acquire_spec w.now request.level (hw.pool p hp) request.ignoreServers
      a.connectFails
  · refine ⟨q,hframe,?_⟩
    unfold fetchOn
    rw [ho]
    dsimp only
    split
    · next k hk =>
      have hslot : k∈w.slots := by
        split_ifs at hk
        exact takeSlot_mem (w := { w.counted with pool := some q }) hk
      obtain ⟨host,hs⟩ := hw.slots k hslot
      obtain ⟨hostJob,hhost,hhk,he⟩ := follow_eq request hw (some q) hs
      refine .inr (.inl ⟨k,host,hostJob,
        { Job.new request with socket := some k, pipelined := true },hs,hhost,hhk,rfl,rfl,?_⟩)
      rw [he]
      exact startJob_quiet _ _
    · rw [finish_unplaced _ hw (some q) rfl]
      exact .inl ⟨_,rfl,rfl⟩
  · obtain ⟨job,hk,hf,hc,hq⟩ := leaseTo_eq w request k pool a.drainFails
    refine ⟨q,hframe,.inr (.inr ⟨k,pool,job,hl,hk,hf,hc,?_⟩)⟩
    unfold fetchOn
    rw [ho]
    exact hq

theorem fetchOn_stepped (hw : Wf w) (hp : w.pool=some p) (hup : w.shuttingDown=false)
    (request : UsenetFetchRequest) (a : Answer) :
    Stepped w (w.fetchOn p request a) := by
  obtain ⟨q,hframe,⟨r,hr,he⟩ | ⟨k,host,hostJob,job,hs,hhost,hhk,hk,hf,hq⟩ |
    ⟨k,pool,job,hlease,hk,hf,hc,hq⟩⟩ := fetchOn_cases hw hp request a
  · have hrel : Option.Rel Frame w.pool (some q) := hp ▸ .some hframe
    rw [he]
    exact answered_stepped hw hrel hr
  · have hrel : Option.Rel Frame w.pool (some q) := hp ▸ .some hframe
    have hl := followed_stepped hw hrel hs hhost hhk hk hf hup
    exact hl.trans (hq.stepped hl.wf)
  · have hsteady : Steady pool
        (if a.drainFails=true then pool.mapSocket k NntpSocket.fail else pool) := by
      split_ifs
      · exact mapSocket_steady pool k (fun _ => rfl) fun _ _ => rfl
      · exact Steady.refl pool
    have hl := leased_stepped hw hp (hsteady.wf hlease.wf)
      (fun h => hlease.free ((hframe.inUse k).mpr h))
      (fun k' => (hsteady.inUse k').trans
        ((hlease.inUse k').trans (or_congr_right (hframe.inUse k'))))
      (fun k' => (hsteady.bytesRead k').trans ((hlease.bytesRead k').trans (hframe.bytesRead k')))
      hk hf hc hup
    exact hl.trans (hq.stepped hl.wf)

theorem fetchSegment_stepped (hw : Wf w) (request : UsenetFetchRequest) (a : Answer) :
    Stepped w (w.fetchSegment request a) := by
  unfold fetchSegment
  split
  · exact refuse_stepped hw request
  · next p hp =>
    by_cases hup : w.shuttingDown=true
    · rw [if_pos hup]
      exact refuse_stepped hw request
    · rw [if_neg hup]
      split
      · have he := finish_unplaced (.new request) hw w.pool rfl .writeFailed
        rw [show w.counted = { w.counted with pool := w.pool } from rfl,he]
        exact answered_stepped hw (rel_refl Frame.refl w.pool) rfl
      · exact fetchOn_stepped hw hp (by simpa using hup) request a

theorem Wf.moved (hw : Wf w) (htable : w'.table=w.table) (hmove : Moves w.board w'.board)
    (hpool : ∀ p,w'.pool=some p → p.Wf)
    (hleased : ∀ k,(∃ p, w'.pool=some p ∧ p.InUse k) ↔ ∃ p, w.pool=some p ∧ p.InUse k)
    (hpend : w'.shuttingDown=false ∨ w'.jobs≠[] → ∀ k,
      w'.unread k+w'.history.charged k=w'.history.heard k)
    (hslots : ∀ k∈w'.slots,k∈w.slots) (hheap : w'.heap=w.heap)
    (hresults : w'.history.results=w.history.results)
    (htakeovers : w'.history.takeovers=w.history.takeovers) : Wf w' := by
  have hholder : w'.jobsBySocket=w.jobsBySocket := congrArg SeatTable.holder htable
  refine ⟨?_,Moves.sound hmove hw.sound,hpool,fun k => ?_,hpend,fun k hk => ?_,?_,?_,?_⟩
  · rw [htable]
    exact hw.table
  · rw [htable,hw.leased k,hleased k]
  · rw [htable]
    exact hw.slots k (hslots k hk)
  · rw [hholder,hheap]
    exact hw.watched
  · rw [hresults]
    exact hw.exact
  · rw [htakeovers]
    exact hw.allowed

theorem mapSocket_read (p : NntpServerPool) (hk : k<p.nextSocket) (n : Nat) (h : p.Wf) :
    (p.mapSocket k fun s => { s with bytesRead := s.bytesRead+n }).Wf := by
  refine ⟨h.nodup,h.lt,fun k' hk' => ?_,fun k' hk' => ?_⟩
  · by_cases he : k'=k
    · subst he
      simp only [NntpServerPool.mapSocket,Function.update_self] at hk' ⊢
      exact h.dead _ hk'
    · simp only [NntpServerPool.mapSocket,Function.update_of_ne he] at hk' ⊢
      exact h.dead _ hk'
  · have he : k'≠k := (Nat.lt_of_lt_of_le hk hk').ne'
    simp only [NntpServerPool.mapSocket,Function.update_of_ne he]
    exact h.unread k' hk'

theorem socketRead_stepped (hw : Wf w) (k : SocketId) (n : Nat) : Stepped w (w.socketRead k n) := by
  unfold socketRead
  split
  · exact (Quiet.refl w).stepped hw
  · next p hp =>
    split_ifs with hk
    · exact (Quiet.refl w).stepped hw
    · dsimp only
      generalize hw' : ({ w.mapSocket k fun s => { s with bytesRead := s.bytesRead+n } with
        history := _ } : UsenetWorker)=w'
      have hmove : Moves w.board w'.board := by
        refine Relation.ReflTransGen.single ?_
        have hm := Move.hear w.board k n
        convert hm using 1
        subst hw'
        ext1 <;> try rfl
        show (if (w.jobsBySocket k).isSome=true then _ else _) =
          if (w.table.seat k).isSome=true then _ else _
        rw [show (w.table.seat k).isSome=(w.jobsBySocket k).isSome from Option.isSome_map]
        rfl
      have hpool :
          w'.pool=some (p.mapSocket k fun s => { s with bytesRead := s.bytesRead+n }) := by
        subst hw'
        show w.pool.map _ = _
        rw [hp]
        rfl
      refine ⟨hw.moved ?_ hmove ?_ ?_ ?_ ?_ ?_ ?_ ?_,hmove⟩
      · subst hw'
        rfl
      · intro p' hp'
        rw [hpool] at hp'
        cases hp'
        exact mapSocket_read p (Nat.lt_of_not_le hk) n (hw.pool p hp)
      · intro k'
        rw [hpool,hp]
        simp [NntpServerPool.mapSocket,InUse]
      · intro hc k'
        have hpend := hw.pending (by subst hw'; exact hc) k'
        unfold unread at hpend ⊢
        rw [hpool]
        rw [hp] at hpend
        subst hw'
        show _ + w.history.charged k' =
          Function.update w.history.heard k (w.history.heard k+n) k'
        by_cases he : k'=k
        · subst he
          simp only [Option.elim_some,NntpServerPool.mapSocket,Function.update_self] at hpend ⊢
          omega
        · simp only [Option.elim_some,NntpServerPool.mapSocket,Function.update_of_ne he] at hpend ⊢
          exact hpend
      all_goals
        subst hw'
        first | rfl | exact fun _ => id

theorem empty_wf : empty.Wf :=
  ⟨List.nodup_nil,fun _ hl => absurd hl List.not_mem_nil,fun _ h => absurd h Bool.false_ne_true,
    fun _ _ => rfl⟩

theorem setServers_stepped (hw : Wf w) (servers : List NewsServer) (retryIntervalSec : Int) :
    Stepped w (w.setServers servers retryIntervalSec) := by
  have hframe : ∀ p : NntpServerPool, Frame p
      (({ p with retryIntervalSec := retryIntervalSec } : NntpServerPool).setServers servers) :=
    fun p => by
      have h : Frame p { p with retryIntervalSec := retryIntervalSec } := Frame.of_eq rfl rfl rfl
      exact h.trans (setServers_frame _ servers)
  unfold setServers
  cases hp : w.pool with
  | some p =>
    have hq : Quiet w { w with
        pool := some (({ p with retryIntervalSec := retryIntervalSec } :
          NntpServerPool).setServers servers) } :=
      ⟨rfl,rfl,rfl,fun _ => .inl,hp ▸ .some (hframe p),fun _ job h hf => ⟨job,h,hf⟩⟩
    exact hq.stepped hw
  | none =>
    have hs := hframe .empty
    have hno : ∀ k,¬ empty.InUse k := by
      rintro k ⟨l,hl,-⟩
      exact absurd hl List.not_mem_nil
    refine ⟨hw.moved rfl Relation.ReflTransGen.refl ?_ ?_ ?_ (fun _ => id) rfl rfl rfl,
      Relation.ReflTransGen.refl⟩
    · rintro p' ⟨⟩
      exact hs.wf empty_wf
    · intro k
      simp only [hp,Option.getD_none,Option.some.injEq,exists_eq_left',hs.inUse k,hno k,
        reduceCtorEq,false_and,exists_false]
    · intro hc k
      have hpend := hw.pending hc k
      unfold unread at hpend ⊢
      rw [hp] at hpend
      exact (congrArg (· + _) (hs.bytesRead k)).trans hpend

theorem finishAll_stepped (n : Nat) (hw : Wf w) (hn : w.jobs.length≤n) :
    Stepped w (finishAll n w) ∧ (finishAll n w).jobs=[] ∧
      (finishAll n w).shuttingDown=w.shuttingDown := by
  induction n generalizing w with
  | zero =>
    exact ⟨(Quiet.refl w).stepped hw,List.length_eq_zero_iff.mp (Nat.le_zero.mp hn),rfl⟩
  | succ n ih =>
    rw [finishAll]
    split
    · next hjobs => exact ⟨(Quiet.refl w).stepped hw,hjobs,rfl⟩
    · next i is hjobs =>
      have hi : i∈w.jobs := hjobs ▸ List.mem_cons_self
      obtain ⟨x,hx⟩ := Option.ne_none_iff_exists'.mp ((hw.table.listed i).mp hi)
      obtain ⟨job,hjob,-⟩ := spot_job hx
      have he := finishJob_ended hw hjob .disconnected (QString.lit "Shutting down")
      obtain ⟨h1,h2,h3⟩ := ih he.wf (Nat.le_of_lt_succ (Nat.lt_of_lt_of_le he.jobs hn))
      exact ⟨he.stepped.trans h1,h2,h3.trans he.shuttingDown⟩

theorem shutdown_stepped (hw : Wf w) :
    Stepped w w.shutdown ∧ w.shutdown.jobs=[] := by
  have hw0 : Wf { w with shuttingDown := true } :=
    hw.moved rfl Relation.ReflTransGen.refl hw.pool (fun _ => Iff.rfl)
      (fun hc => hw.pending (.inr (hc.resolve_left Bool.noConfusion))) (fun _ => id) rfl rfl rfl
  obtain ⟨h1,h2,h3⟩ := finishAll_stepped w.jobs.length hw0 (Nat.le_refl _)
  have hby : (fun _ => none) =
      (finishAll w.jobs.length { w with shuttingDown := true }).jobsBySocket := by
    funext k
    cases hk : (finishAll w.jobs.length { w with shuttingDown := true }).jobsBySocket k with
    | none => rfl
    | some i =>
      have hi := h1.wf.mem_jobs (SeatTable.at_of_holder hk)
      rw [h2] at hi
      cases hi
  refine ⟨?_,h2⟩
  have hend : Wf w.shutdown ∧ Moves (finishAll w.jobs.length
      { w with shuttingDown := true }).board w.shutdown.board := by
    have htable : w.shutdown.table =
        (finishAll w.jobs.length { w with shuttingDown := true }).table := by
      unfold shutdown table
      rw [hby]
    have hboard : w.shutdown.board =
        (finishAll w.jobs.length { w with shuttingDown := true }).board := by
      unfold board
      rw [htable]
      rfl
    have hmove : Moves (finishAll w.jobs.length { w with shuttingDown := true }).board
        w.shutdown.board := by
      rw [hboard]
      exact Relation.ReflTransGen.refl
    refine ⟨h1.wf.moved htable hmove ?_ (fun k => ?_) ?_ ?_ rfl rfl rfl,hmove⟩
    · rintro p ⟨⟩
    · rw [← h1.wf.leased k]
      have hseat : (finishAll w.jobs.length { w with shuttingDown := true }).table.seat k=none := by
        show Option.map _ ((finishAll w.jobs.length _).jobsBySocket k)=none
        rw [← hby]
        rfl
      rw [hseat]
      constructor
      · rintro ⟨p,hp,-⟩
        cases hp
      · intro h
        cases h
    · rintro (hc | hc)
      · exact absurd (h3.symm.trans hc) Bool.noConfusion
      · exact absurd h2 hc
    · exact fun k hk => absurd hk List.not_mem_nil
  exact ⟨hend.1,h1.moves.trans hend.2⟩

theorem mapSocket_quiet {f : NntpSocket → NntpSocket} (w : UsenetWorker) (k : SocketId)
    (hf : ∀ p,w.pool=some p → Frame p (p.mapSocket k f)) : Quiet w (w.mapSocket k f) := by
  refine ⟨rfl,rfl,rfl,fun _ => .inl,?_,fun _ job h hf => ⟨job,h,hf⟩⟩
  show Option.Rel Frame w.pool (w.pool.map _)
  cases hp : w.pool with
  | none => exact .none
  | some p => exact .some (hf p hp)

theorem fail_stepped (hw : Wf w) (k : SocketId) : Stepped w (w.mapSocket k NntpSocket.fail) := by
  have hs : ∀ p : NntpServerPool, Steady p (p.mapSocket k NntpSocket.fail) :=
    fun p => mapSocket_steady p k (fun _ => rfl) fun _ _ => rfl
  refine ⟨hw.moved rfl Relation.ReflTransGen.refl ?_ ?_ ?_ (fun _ => id) rfl rfl rfl,
    Relation.ReflTransGen.refl⟩
  · intro p' hp'
    obtain ⟨p,hp,rfl⟩ := Option.map_eq_some_iff.mp hp'
    exact (hs p).wf (hw.pool p hp)
  · intro k'
    show (∃ p', w.pool.map _ = some p' ∧ _) ↔ _
    cases w.pool with
    | none => simp
    | some p => simp [(hs p).inUse k']
  · intro hc k'
    have hpend := hw.pending hc k'
    unfold unread at hpend ⊢
    show ((w.pool.map _).elim 0 fun p : NntpServerPool => (p.sockets k').bytesRead)+_ = _
    cases hp : w.pool with
    | none =>
      rw [hp] at hpend
      exact hpend
    | some p =>
      rw [hp] at hpend
      exact (congrArg (· + _) ((hs p).bytesRead k')).trans hpend

theorem moveTo_quiet (w : UsenetWorker) (k : SocketId) (state : SocketState) :
    Quiet w (w.mapSocket k (NntpSocket.moveTo state)) := by
  refine mapSocket_quiet w k fun p _ => mapSocket_frame p k (fun s => ?_) (fun s => ?_)
    fun hd hf => ?_
  · unfold NntpSocket.moveTo
    split_ifs <;> rfl
  · unfold NntpSocket.moveTo
    split_ifs <;> rfl
  · unfold NntpSocket.moveTo at hf ⊢
    split_ifs at hf ⊢ with hs
    · exact hs
    · exact absurd (hd hf) hs

theorem socketReady_quiet (w : UsenetWorker) (k : SocketId) : Quiet w (w.socketReady k) := by
  unfold socketReady
  cases hp : w.pool with
  | none =>
    simp only [socket?,hp,Option.map_none]
    exact Quiet.refl w
  | some p =>
    simp only [socket?,hp,Option.map_some]
    split_ifs with hc
    · exact Quiet.refl w
    · have hq : Quiet w (w.mapSocket k fun s => { s with state := .ready }) := by
        refine mapSocket_quiet w k fun p' hp' => mapSocket_frame p' k (fun _ => rfl)
          (fun _ => rfl) fun _ hf => ?_
        rw [hp] at hp'
        cases hp'
        exact absurd (.inl hf) hc
      split
      · exact hq
      · split_ifs
        · exact hq.trans (startJob_quiet _ _)
        · exact hq

theorem socketFailed_stepped (hw : Wf w) (k : SocketId) (error : NntpError) (text : QString) :
    Stepped w (w.socketFailed k error text) := by
  have hq := fail_stepped hw k
  unfold socketFailed
  split
  · exact (Quiet.refl w).stepped hw
  · split_ifs
    · exact (Quiet.refl w).stepped hw
    · dsimp only
      split
      · exact hq
      · next id hid =>
        split_ifs with hc
        · cases hjob : (w.mapSocket k NntpSocket.fail).heap id with
          | none =>
            rw [hjob] at hc
            cases hc
          | some job => exact hq.trans (finishJob_ended hq.wf hjob error text).stepped
        · exact hq

theorem step_stepped (hw : Wf w) (e : Event) : Stepped w (w.step e) := by
  cases e with
  | fetchSegment request a => exact fetchSegment_stepped hw request a
  | socketReady k => exact (socketReady_quiet w k).stepped hw
  | socketFailed k error text => exact socketFailed_stepped hw k error text
  | socketMoves k state => exact (moveTo_quiet w k state).stepped hw
  | socketRead k n => exact socketRead_stepped hw k n
  | fetcherReads id f => exact (fetcherReads_quiet w id f).stepped hw
  | fetcherFinished id error text =>
    show Stepped w (if w.fetcher? id=none then w else w.finishJob id error text)
    split_ifs with hf
    · exact (Quiet.refl w).stepped hw
    · obtain ⟨f,hf⟩ := Option.ne_none_iff_exists'.mp hf
      obtain ⟨job,hjob,-⟩ := Option.bind_eq_some_iff.mp hf
      exact (finishJob_ended hw hjob error text).stepped
  | nearlyDone id =>
    show Stepped w (if w.fetcher? id=none then w else w.onNearlyDone id)
    split_ifs
    · exact (Quiet.refl w).stepped hw
    · exact (onNearlyDone_quiet w id).stepped hw
  | setServers servers retryIntervalSec => exact setServers_stepped hw servers retryIntervalSec
  | dropClosedIdle => exact (mapPool_quiet w fun p => dropClosedIdle_frame p).stepped hw
  | capTimer => exact (mapPool_quiet w fun p => onCapTimer_frame p _).stepped hw
  | wait ms =>
    have hq : Quiet w { w with now := w.now+ms } :=
      ⟨rfl,rfl,rfl,fun _ => .inl,rel_refl Frame.refl _,fun _ job h hf => ⟨job,h,hf⟩⟩
    exact hq.stepped hw
  | shutdown => exact (shutdown_stepped hw).1

/-- No socket that somebody holds has told of its failure already. -/
def Live (w : UsenetWorker) : Prop :=
  ∀ p, w.pool = some p → ∀ k, (w.table.seat k).isSome = true → (p.sockets k).failed = false

/-- The seats that are taken were taken before, and their sockets are as they were. -/
def Kept (w w' : UsenetWorker) : Prop :=
  ∀ p', w'.pool = some p' → ∀ k, (w'.table.seat k).isSome = true → ∃ p, w.pool = some p ∧
    (w.table.seat k).isSome = true ∧ (p'.sockets k).failed = (p.sockets k).failed

theorem Live.kept (h : Live w) (hk : Kept w w') : Live w' := by
  intro p' hp' k hs
  obtain ⟨p,hp,hs',he⟩ := hk p' hp' k hs
  rw [he]
  exact h p hp k hs'

theorem Kept.refl (w : UsenetWorker) : Kept w w := fun p hp _ hs => ⟨p,hp,hs,rfl⟩

theorem kept_of_frame (hpool : Option.Rel Frame w.pool w'.pool)
    (hs : ∀ k,(w'.table.seat k).isSome=true → (w.table.seat k).isSome=true) : Kept w w' := by
  intro p' hp' k hk
  obtain ⟨p,hp,hf⟩ := rel_some hpool hp'
  exact ⟨p,hp,hs k hk,hf.failed k⟩

theorem Quiet.kept (h : Quiet w w') : Kept w w' :=
  kept_of_frame h.pool fun k hk => by rwa [h.table] at hk

theorem Ended.kept (h : Ended w w' id error) : Kept w w' := by
  intro p' hp' k hk
  obtain ⟨p,hp,he⟩ := h.failed p' hp'
  exact ⟨p,hp,(h.seats k hk).1,he k⟩

theorem socketFailed_live (hw : Wf w) (hl : Live w) (k : SocketId) (error : NntpError)
    (text : QString) : Live (w.socketFailed k error text) := by
  unfold socketFailed
  split
  · exact hl
  · split_ifs with hc
    · exact hl
    · simp only [not_or,Bool.not_eq_false] at hc
      dsimp only
      have hother : ∀ p',(w.mapSocket k NntpSocket.fail).pool=some p' → ∀ k',k'≠k →
          (w.table.seat k').isSome=true → (p'.sockets k').failed=false := by
        intro p' hp' k' hne hs
        obtain ⟨p,hp,rfl⟩ := Option.map_eq_some_iff.mp hp'
        exact (congrArg NntpSocket.failed (Function.update_of_ne hne _ _)).trans (hl p hp k' hs)
      have hw' := (fail_stepped hw k).wf
      cases hby : (w.mapSocket k NntpSocket.fail).jobsBySocket k with
      | none =>
        intro p' hp' k' hs
        refine hother p' hp' k' ?_ hs
        rintro rfl
        rw [show (w.mapSocket k' NntpSocket.fail).table.seat k'=none from by
          show Option.map _ ((w.mapSocket k' NntpSocket.fail).jobsBySocket k')=none
          rw [hby]
          rfl] at hs
        cases hs
      | some id =>
        obtain ⟨job,hjob,hwatch⟩ := hw'.watched k id hby
        simp only [hjob,Option.elim_some,hwatch,if_true]
        have he := finishJob_ended hw' hjob error text
        intro p' hp' k' hs
        obtain ⟨p,hp,hf⟩ := he.failed p' hp'
        rw [hf]
        refine hother p hp k' ?_ (he.seats k' hs).1
        rintro rfl
        exact (he.seats k' hs).2 hc.2 hby

theorem fetchOn_live (hw : Wf w) (hl : Live w) (hp : w.pool=some p) (request : UsenetFetchRequest)
    (a : Answer) (hc : a.connectFails=false) (hd : a.drainFails=false) :
    Live (w.fetchOn p request a) := by
  obtain ⟨q,hframe,⟨r,hr,he⟩ | ⟨k,host,hostJob,job,hs,hhost,hhk,hk,hf,hq⟩ |
    ⟨k,pool,job,hlease,hk,hf,-,hq⟩⟩ := fetchOn_cases hw hp request a
  · have hrel : Option.Rel Frame w.pool (some q) := hp ▸ .some hframe
    rw [he]
    exact hl.kept (kept_of_frame hrel fun _ => id)
  · have hrel : Option.Rel Frame w.pool (some q) := hp ▸ .some hframe
    refine (hl.kept (kept_of_frame hrel fun k' hk' => ?_)).kept hq.kept
    rw [followed_table hk hf hhk,SeatTable.join_seat hw.table hw.fresh_spot hs] at hk'
    by_cases he : k'=k
    · rw [he,hs]
      rfl
    · rwa [Function.update_of_ne he] at hk'
  · refine Live.kept (fun p' hp' k' hk' => ?_) hq.kept
    rw [hd] at hp'
    cases hp'
    rw [leased_table hk hf,SeatTable.lease_seat hw.table hw.fresh_spot] at hk'
    by_cases he : k'=k
    · rw [he]
      exact hlease.alive hc
    · rw [Function.update_of_ne he] at hk'
      exact ((hlease.failed k' he).trans (hframe.failed k')).trans (hl p hp k' hk')

theorem socketRead_kept (w : UsenetWorker) (k : SocketId) (n : Nat) :
    Kept w (w.socketRead k n) := by
  unfold socketRead
  split
  · exact Kept.refl w
  · next p hp =>
    split_ifs
    · exact Kept.refl w
    · intro p' hp' k' hk'
      obtain ⟨p,hp,rfl⟩ := Option.map_eq_some_iff.mp hp'
      refine ⟨p,hp,hk',?_⟩
      by_cases he : k'=k
      · subst he
        simp only [NntpServerPool.mapSocket,Function.update_self]
      · simp only [NntpServerPool.mapSocket,Function.update_of_ne he]

theorem setServers_live (hw : Wf w) (hl : Live w) (servers : List NewsServer)
    (retryIntervalSec : Int) : Live (w.setServers servers retryIntervalSec) := by
  cases hp : w.pool with
  | some p =>
    refine hl.kept (kept_of_frame ?_ fun _ => id)
    unfold setServers
    rw [hp]
    have h : Frame p { p with retryIntervalSec := retryIntervalSec } := Frame.of_eq rfl rfl rfl
    exact .some (h.trans (setServers_frame _ servers))
  | none =>
    intro p' _ k hk
    obtain ⟨p,hp',-⟩ := (hw.leased k).mp hk
    rw [hp] at hp'
    cases hp'

/-- No connection fails while the request that opens or reuses it is still leasing it. -/
def Event.Calm : Event → Prop
  | .fetchSegment _ a => a.connectFails=false ∧ a.drainFails=false
  | _ => True

theorem step_live (hw : Wf w) (hl : Live w) (e : Event) (hc : e.Calm) : Live (w.step e) := by
  cases e with
  | fetchSegment request a =>
    show Live (w.fetchSegment request a)
    unfold fetchSegment
    split
    · exact hl.kept (kept_of_frame (rel_refl Frame.refl _) fun _ => id)
    · next p hp =>
      by_cases hup : w.shuttingDown=true
      · rw [if_pos hup]
        exact hl.kept (kept_of_frame (rel_refl Frame.refl _) fun _ => id)
      · rw [if_neg hup]
        split
        · have he := finish_unplaced (.new request) hw w.pool rfl .writeFailed
          rw [show w.counted = { w.counted with pool := w.pool } from rfl,he]
          exact hl.kept (kept_of_frame (rel_refl Frame.refl _) fun _ => id)
        · exact fetchOn_live hw hl hp request a hc.1 hc.2
  | socketReady k => exact hl.kept (socketReady_quiet w k).kept
  | socketFailed k error text => exact socketFailed_live hw hl k error text
  | socketMoves k state => exact hl.kept (moveTo_quiet w k state).kept
  | socketRead k n => exact hl.kept (socketRead_kept w k n)
  | fetcherReads id f => exact hl.kept (fetcherReads_quiet w id f).kept
  | fetcherFinished id error text =>
    show Live (if w.fetcher? id=none then w else w.finishJob id error text)
    split_ifs with hf
    · exact hl
    · obtain ⟨f,hf⟩ := Option.ne_none_iff_exists'.mp hf
      obtain ⟨job,hjob,-⟩ := Option.bind_eq_some_iff.mp hf
      exact hl.kept (finishJob_ended hw hjob error text).kept
  | nearlyDone id =>
    show Live (if w.fetcher? id=none then w else w.onNearlyDone id)
    split_ifs
    · exact hl
    · exact hl.kept (onNearlyDone_quiet w id).kept
  | setServers servers retryIntervalSec => exact setServers_live hw hl servers retryIntervalSec
  | dropClosedIdle => exact hl.kept (mapPool_quiet w dropClosedIdle_frame).kept
  | capTimer => exact hl.kept (mapPool_quiet w fun p => onCapTimer_frame p _).kept
  | wait ms => exact hl.kept (kept_of_frame (rel_refl Frame.refl _) fun _ => id)
  | shutdown => rintro p ⟨⟩

end EmuleQt.Usenet.UsenetWorker
