import EmuleQt.Usenet.WorkerRuns

namespace EmuleQt.Usenet.UsenetWorker

open Framework Framework.Board Utils NntpServerPool

variable {w : UsenetWorker} {k : SocketId} {i : JobId}

def results (w : UsenetWorker) (i : JobId) : Nat :=
  w.history.results.countP fun r => decide (r.job = i)

def socketOf (w : UsenetWorker) (i : JobId) : Option SocketId := (w.heap i).bind Job.socket

def followerOf (w : UsenetWorker) (i : JobId) : Option JobId := (w.heap i).bind Job.follower

/-- Something that is not a shutdown can still bring the job its result. -/
def Answerable (w : UsenetWorker) (i : JobId) : Prop :=
  ∃ e, e≠Event.shutdown ∧ ∃ r∈(w.step e).history.results, r.job=i

structure Correct (w : UsenetWorker) : Prop where
  one_result : ∀ i < w.history.requests, w.results i + (if i ∈ w.jobs then 1 else 0) = 1
  only_requests : ∀ r ∈ w.history.results, r.job < w.history.requests
  answerable : ∀ i ∈ w.jobs, w.Answerable i
  none_left : w.shuttingDown = true → w.jobs = []
  leased : ∀ k, (∃ p, w.pool = some p ∧ p.InUse k) ↔ ∃ i, w.jobsBySocket k = some i
  current : ∀ k i, w.jobsBySocket k = some i → i ∈ w.jobs ∧ w.socketOf i = some k
  placed : ∀ i ∈ w.jobs, ∃ k, w.socketOf i = some k ∧ (w.jobsBySocket k = some i ∨
    ∃ h, w.jobsBySocket k = some h ∧ w.followerOf h = some i ∧ w.followerOf i = none)
  one_host : ∀ h f, w.followerOf h = some f → f ≠ h ∧ ∀ h', w.followerOf h' = some f → h' = h
  fate : ∀ l ∈ w.history.links,
    (w.jobsBySocket l.seat = some l.host ∧ w.followerOf l.host = some l.follower) ∨
      (∃ t ∈ w.history.takeovers, t.link = l ∧ t.Allowed) ∨
        GivenBack (w.history.results.map Finished.report) l
  heir : ∀ l ∈ w.history.links, ∀ k, w.jobsBySocket k = some l.follower →
    k = l.seat ∧ ∃ t ∈ w.history.takeovers, t.link = l ∧ t.Allowed
  balance : ∀ k, w.history.leases k =
    w.history.releases k + if (w.jobsBySocket k).isSome = true then 1 else 0
  exact : ∀ r ∈ w.history.results, r.Exact
  charged_once : ∀ k, ∀ x < w.history.charged k,
    ∃! r, r ∈ w.history.results ∧ Charges r.report k x
  charges_only : ∀ r ∈ w.history.results, ∀ k x, Charges r.report k x → x < w.history.charged k
  none_lost : ∀ k, w.jobsBySocket k = none → w.history.held k ≤ w.history.charged k
  unread : w.shuttingDown = false → ∀ k, w.unread k + w.history.charged k = w.history.heard k

theorem init_wf (index : Int) : Wf (init index) := by
  refine ⟨SeatTable.wf_empty,start_sound,?_,?_,fun _ _ => rfl,?_,?_,?_,?_⟩
  · rintro p ⟨⟩
  · intro k
    constructor
    · rintro ⟨⟩
    · rintro ⟨p,⟨⟩,-⟩
  · exact fun k hk => absurd hk List.not_mem_nil
  · rintro k h ⟨⟩
  · exact fun r hr => absurd hr List.not_mem_nil
  · exact fun t ht => absurd ht List.not_mem_nil

def Down (w : UsenetWorker) : Prop := w.shuttingDown = true → w.jobs = []

theorem quiet_down {w' : UsenetWorker} (h : Quiet w w') (hd : Down w) : Down w' := by
  intro hs
  rw [h.shuttingDown] at hs
  exact (congrArg SeatTable.jobs h.table).trans (hd hs)

theorem ended_down {w' : UsenetWorker} {error : NntpError} (h : Ended w w' i error)
    (hd : Down w) : Down w' := by
  intro hs
  rw [h.shuttingDown] at hs
  have hlt := h.jobs
  rw [hd hs] at hlt
  exact absurd hlt (Nat.not_lt_zero _)

theorem up_down (h : w.shuttingDown=false) : Down w :=
  fun hs => absurd (h.symm.trans hs) Bool.noConfusion

theorem fetchOn_up {p : NntpServerPool} (hw : Wf w) (hp : w.pool=some p)
    (hup : w.shuttingDown=false) (request : UsenetFetchRequest) (a : Answer) :
    (w.fetchOn p request a).shuttingDown=false := by
  obtain ⟨q,-,⟨r,-,he⟩ | ⟨k,host,hostJob,job,-,-,-,-,-,hq⟩ |
    ⟨k,pool,job,-,-,-,-,hq⟩⟩ := fetchOn_cases hw hp request a
  · rw [he]
    exact hup
  · exact hq.shuttingDown.trans hup
  · exact hq.shuttingDown.trans hup

theorem step_down (hw : Wf w) (hd : Down w) (e : Event) : Down (w.step e) := by
  cases e with
  | fetchSegment request a =>
    show Down (w.fetchSegment request a)
    unfold fetchSegment
    split
    · exact hd
    · next p hp =>
      by_cases hup : w.shuttingDown=true
      · rw [if_pos hup]
        exact hd
      · rw [if_neg hup]
        split
        · have he := finish_unplaced (.new request) hw w.pool rfl .writeFailed
          rw [show w.counted = { w.counted with pool := w.pool } from rfl,he]
          exact hd
        · exact up_down (fetchOn_up hw hp (by simpa using hup) request a)
  | socketReady k => exact quiet_down (socketReady_quiet w k) hd
  | socketFailed k error text =>
    have hd' : Down (w.mapSocket k NntpSocket.fail) := hd
    show Down (w.socketFailed k error text)
    unfold socketFailed
    split
    · exact hd
    · split_ifs
      · exact hd
      · dsimp only
        split
        · exact hd'
        · next id _ =>
          split_ifs with hc
          · cases hjob : (w.mapSocket k NntpSocket.fail).heap id with
            | none =>
              rw [hjob] at hc
              cases hc
            | some job => exact ended_down (finishJob_ended (fail_stepped hw k).wf hjob _ _) hd'
          · exact hd'
  | socketMoves k state => exact quiet_down (moveTo_quiet w k state) hd
  | socketRead k n =>
    show Down (w.socketRead k n)
    unfold socketRead
    split
    · exact hd
    · split_ifs <;> exact hd
  | fetcherReads id f => exact quiet_down (fetcherReads_quiet w id f) hd
  | fetcherFinished id error text =>
    show Down (if w.fetcher? id=none then w else w.finishJob id error text)
    split_ifs with hf
    · exact hd
    · obtain ⟨f,hf⟩ := Option.ne_none_iff_exists'.mp hf
      obtain ⟨job,hjob,-⟩ := Option.bind_eq_some_iff.mp hf
      exact ended_down (finishJob_ended hw hjob error text) hd
  | nearlyDone id =>
    show Down (if w.fetcher? id=none then w else w.onNearlyDone id)
    split_ifs
    · exact hd
    · exact quiet_down (onNearlyDone_quiet w id) hd
  | setServers servers retryIntervalSec => exact hd
  | dropClosedIdle => exact hd
  | capTimer => exact hd
  | wait ms => exact hd
  | shutdown => exact fun _ => (shutdown_stepped hw).2

theorem answerable_of_live (hw : Wf w) (hl : Live w) (hi : i∈w.jobs) : w.Answerable i := by
  obtain ⟨x,hx⟩ := Option.ne_none_iff_exists'.mp ((hw.table.listed i).mp hi)
  obtain ⟨job,hjob,-⟩ := spot_job hx
  obtain ⟨k,hk,hat⟩ := hw.at_cases hjob
  have hby : ∃ c s, w.jobsBySocket k=some c ∧ w.table.seat k=some ⟨c,s⟩ ∧
      (c=i ∨ s=some i) := by
    rcases hat with ⟨hby,hs⟩ | ⟨host,-,-,hby,-,-,-,-,hs⟩
    · exact ⟨i,_,hby,hs,.inl rfl⟩
    · exact ⟨host,_,hby,hs,.inr rfl⟩
  obtain ⟨c,s,hby,hs,hc⟩ := hby
  obtain ⟨p,hp,-⟩ := hw.pool_some hs
  have halive := hl p hp k (by rw [hs]; rfl)
  have hw' := (fail_stepped hw k).wf
  obtain ⟨cjob,hcjob,hwatch⟩ := hw'.watched k c hby
  have he := finishJob_ended hw' hcjob .disconnected []
  refine ⟨.socketFailed k .disconnected [],Event.noConfusion,?_⟩
  have hstep : w.step (.socketFailed k .disconnected []) =
      (w.mapSocket k NntpSocket.fail).finishJob c .disconnected [] := by
    show w.socketFailed k .disconnected []=_
    unfold socketFailed socket?
    rw [hp]
    simp only [Option.map_some,halive,Bool.false_eq_true,isFatalToConnection,reduceCtorEq,
      or_self,if_false,show (w.mapSocket k NntpSocket.fail).jobsBySocket k=some c from hby,
      hcjob,Option.elim_some,hwatch,if_true]
  rw [hstep]
  rcases hc with rfl | rfl
  · exact he.reported
  · exact he.behind rfl k i hs

theorem Wf.mem_jobs_iff (hw : Wf w) (i : JobId) : i∈w.jobs ↔ ∃ k, At w.table.seat k i := by
  constructor
  · intro hi
    obtain ⟨⟨so,fo⟩,hx⟩ := Option.ne_none_iff_exists'.mp ((hw.table.listed i).mp hi)
    obtain ⟨k,-,hat⟩ := hw.table.spot_at i so fo hx
    exact ⟨k,hat⟩
  · rintro ⟨k,hat⟩
    exact hw.mem_jobs hat

theorem results_eq (w : UsenetWorker) (i : JobId) : w.results i=w.board.jobs.count i := by
  show List.countP _ w.history.results=List.count i ((w.history.results.map _).map Report.job)
  rw [List.map_map,List.count,List.countP_map]
  exact List.countP_congr fun r _ => by simp [Finished.report]

theorem Wf.one_result (hw : Wf w) (i : JobId) (hi : i<w.history.requests) :
    w.results i+(if i∈w.jobs then 1 else 0)=1 := by
  rw [results_eq]
  by_cases hb : i∈w.board.jobs
  · have hnot : i∉w.jobs := by
      rw [hw.mem_jobs_iff]
      rintro ⟨k,hat⟩
      exact hw.sound.seated.not_both k i hat hb
    rw [if_neg hnot,List.count_eq_one_of_mem hw.sound.seated.jobs_nodup hb]
  · have hin : i∈w.jobs :=
      (hw.mem_jobs_iff i).mpr ((hw.sound.seated.somewhere i hi).resolve_left hb)
    rw [if_pos hin,List.count_eq_zero_of_not_mem hb]

theorem followerOf_eq (w : UsenetWorker) (h : JobId) :
    w.followerOf h=(w.table.spot h).bind Prod.snd := by
  show (w.heap h).bind Job.follower=((w.heap h).map _).bind Prod.snd
  cases w.heap h <;> rfl

theorem socketOf_eq (w : UsenetWorker) (h : JobId) :
    w.socketOf h=(w.table.spot h).bind Prod.fst := by
  show (w.heap h).bind Job.socket=((w.heap h).map _).bind Prod.fst
  cases w.heap h <;> rfl

theorem seat_eq (w : UsenetWorker) (k : SocketId) :
    w.table.seat k=(w.jobsBySocket k).map fun h => ⟨h,w.followerOf h⟩ := by
  show (w.jobsBySocket k).map _ = _
  simp only [followerOf_eq]

theorem Wf.placed (hw : Wf w) (i : JobId) (hi : i∈w.jobs) :
    ∃ k, w.socketOf i=some k ∧ (w.jobsBySocket k=some i ∨
      ∃ h, w.jobsBySocket k=some h ∧ w.followerOf h=some i ∧ w.followerOf i=none) := by
  obtain ⟨⟨so,fo⟩,hx⟩ := Option.ne_none_iff_exists'.mp ((hw.table.listed i).mp hi)
  obtain ⟨job,hjob,-⟩ := spot_job hx
  obtain ⟨k,hk,hat⟩ := hw.at_cases hjob
  refine ⟨k,by rw [socketOf,hjob,Option.bind_some,hk],?_⟩
  rcases hat with ⟨hby,-⟩ | ⟨host,hostJob,-,hby,hhost,-,hf,hnone,-⟩
  · exact .inl hby
  · refine .inr ⟨host,hby,?_,?_⟩
    · rw [followerOf,hhost,Option.bind_some,hf]
    · rw [followerOf,hjob,Option.bind_some,hnone]

theorem Wf.host_seat (hw : Wf w) {h f : JobId} (hf : w.followerOf h=some f) :
    ∃ k, w.table.seat k=some ⟨h,some f⟩ := by
  obtain ⟨job,hjob,hfol⟩ := Option.bind_eq_some_iff.mp hf
  obtain ⟨k,-,⟨-,hs⟩ | ⟨-,-,-,-,-,-,-,hnone,-⟩⟩ := hw.at_cases hjob
  · exact ⟨k,hfol ▸ hs⟩
  · rw [hfol] at hnone
    cases hnone

theorem Wf.one_host (hw : Wf w) (h f : JobId) (hf : w.followerOf h=some f) :
    f≠h ∧ ∀ h',w.followerOf h'=some f → h'=h := by
  obtain ⟨k,hs⟩ := hw.host_seat hf
  refine ⟨hw.table.next_ne k h f hs,fun h' hf' => ?_⟩
  obtain ⟨k',hs'⟩ := hw.host_seat hf'
  have he := hw.table.at_one (at_next hs') (at_next hs)
  subst he
  rw [hs] at hs'
  cases hs'
  rfl

theorem Wf.fate (hw : Wf w) (l : Link SocketId) (hl : l∈w.history.links) :
    (w.jobsBySocket l.seat=some l.host ∧ w.followerOf l.host=some l.follower) ∨
      (∃ t∈w.history.takeovers, t.link=l ∧ t.Allowed) ∨
        GivenBack (w.history.results.map Finished.report) l := by
  rcases hw.sound.linked.linked l hl with hs | ht | hg
  · refine .inl ⟨SeatTable.seat_holder hs,?_⟩
    rw [followerOf_eq,hw.table.holder_spot hs]
    rfl
  · obtain ⟨t,ht,he⟩ := List.mem_map.mp ht
    exact .inr (.inl ⟨t,ht,he,hw.allowed t ht⟩)
  · exact .inr (.inr hg)

theorem Wf.heir (hw : Wf w) (l : Link SocketId) (hl : l∈w.history.links) (k : SocketId)
    (hk : w.jobsBySocket k=some l.follower) :
    k=l.seat ∧ ∃ t∈w.history.takeovers, t.link=l ∧ t.Allowed := by
  have hat : At w.table.seat k l.follower := SeatTable.at_of_holder hk
  have hnot := hw.sound.seated.not_both k l.follower hat
  rcases hw.sound.linked.linked l hl with hs | ht | ⟨pre,r,post,he,hr,-⟩
  · have hkl : k=l.seat := hw.table.at_one hat (at_next hs)
    have hby : w.jobsBySocket l.seat=some l.host := SeatTable.seat_holder hs
    rw [← hkl,hk] at hby
    exact absurd (Option.some.inj hby) (hw.table.next_ne l.seat l.host l.follower hs)
  · rcases hw.sound.linked.takeover_stays l ht with hstay | hdone
    · obtain ⟨t,ht,he⟩ := List.mem_map.mp ht
      exact ⟨hw.table.at_one hat hstay,t,ht,he,hw.allowed t ht⟩
    · exact absurd hdone hnot
  · refine absurd ?_ hnot
    rw [show w.board.jobs=w.board.reports.map Report.job from rfl,he,← hr]
    exact List.mem_map_of_mem (List.mem_append_right _ List.mem_cons_self)

theorem Wf.charged_once (hw : Wf w) (k : SocketId) (x : Nat) (hx : x<w.history.charged k) :
    ∃! r, r∈w.history.results ∧ Charges r.report k x := by
  obtain ⟨_,hr,hc⟩ := hw.sound.charged.charged_by k x hx
  obtain ⟨r,hmem,rfl⟩ := List.mem_map.mp hr
  refine ⟨r,⟨hmem,hc⟩,?_⟩
  rintro r' ⟨hr',hc'⟩
  have he := hw.sound.charged.charges_one _ (List.mem_map_of_mem hr') _ hr k x hc' hc
  have hnd : (w.history.results.map fun r => r.job).Nodup := by
    have hnd := hw.sound.seated.jobs_nodup
    rw [show w.board.jobs=(w.history.results.map Finished.report).map Report.job from rfl,
      List.map_map] at hnd
    exact hnd
  exact List.inj_on_of_nodup_map hnd hr' hmem (congrArg Report.job he)

theorem correct_of (hw : Wf w) (hl : Live w) (hd : Down w) : Correct w where
  one_result := hw.one_result
  only_requests r hr := hw.sound.seated.jobs_lt r.job
    (List.mem_map_of_mem (f := Report.job) (List.mem_map_of_mem (f := Finished.report) hr))
  answerable _ := answerable_of_live hw hl
  none_left := hd
  leased k := by
    rw [← hw.leased k,seat_eq,Option.isSome_map,Option.isSome_iff_exists]
  current k i hk := by
    have hs := seat_eq w k
    rw [hk,Option.map_some] at hs
    refine ⟨hw.mem_jobs (SeatTable.at_of_holder hk),?_⟩
    rw [socketOf_eq,hw.table.holder_spot hs]
    rfl
  placed := hw.placed
  one_host := hw.one_host
  fate := hw.fate
  heir := hw.heir
  balance k := by
    have hb := hw.sound.seated.balance k
    rw [show w.board.seat k=w.table.seat k from rfl,seat_eq,Option.isSome_map] at hb
    exact hb
  exact := hw.exact
  charged_once := hw.charged_once
  charges_only r hr := hw.sound.charged.charges_lt _ (List.mem_map_of_mem hr)
  none_lost k hk := hw.sound.charged.held_charged k (by
    show w.table.seat k=none
    rw [seat_eq,hk]
    rfl)
  unread hup := hw.pending (.inl hup)

theorem after_invariant (index : Int) (events : List Event) (h : ∀ e∈events,e.Calm) :
    Wf (after index events) ∧ Live (after index events) ∧ Down (after index events) := by
  refine @run_invariant _ _ _ (fun _ e => e.Calm) (fun w => Wf w ∧ Live w ∧ Down w)
    (fun w e hw hc => ⟨(step_stepped hw.1 e).wf,step_live hw.1 hw.2.1 e hc,step_down hw.1 hw.2.2 e⟩)
    _ _ ⟨init_wf index,fun p hp => (nomatch hp),fun _ => rfl⟩ (along_of_forall _ h)

/-- Over runs in which no connection fails while it is being leased. -/
theorem after_correct (index : Int) (events : List Event) (h : ∀ e ∈ events, e.Calm) :
    Correct (after index events) := by
  obtain ⟨hw,hl,hd⟩ := after_invariant index events h
  exact correct_of hw hl hd

theorem fetchSegment_results (hw : Wf w) (request : UsenetFetchRequest) (a : Answer) (r : Finished)
    (hr : r∈(w.fetchSegment request a).history.results) :
    r∈w.history.results ∨ r.job=w.history.requests := by
  have hanswered : ∀ pool res,r∈(w.answered pool res).history.results →
      r∈w.history.results ∨ r.job=w.history.requests := by
    intro pool res hr
    refine (List.mem_append.mp hr).imp_right fun hr => ?_
    rw [List.mem_singleton.mp hr]
  unfold fetchSegment at hr
  split at hr
  · exact hanswered w.pool _ hr
  · next p hp =>
    by_cases hup : w.shuttingDown=true
    · rw [if_pos hup] at hr
      exact hanswered w.pool _ hr
    · rw [if_neg hup] at hr
      split at hr
      · have he := finish_unplaced (.new request) hw w.pool rfl .writeFailed
        rw [show w.counted = { w.counted with pool := w.pool } from rfl,he] at hr
        exact hanswered w.pool _ hr
      · obtain ⟨q,-,⟨res,-,he⟩ | ⟨k,host,hostJob,job,-,-,-,-,-,hq⟩ |
          ⟨k,pool,job,-,-,-,-,hq⟩⟩ := fetchOn_cases hw hp request a
        · rw [he] at hr
          exact hanswered (some q) res hr
        · rw [hq.history] at hr
          exact .inl hr
        · rw [hq.history] at hr
          exact .inl hr

/-- The only job waits on a socket that has told of its failure already. -/
theorem not_answerable (hw : Wf w) (hjobs : w.jobs=[i]) (hby : w.jobsBySocket k=some i)
    (hdead : (w.socket? k).elim false NntpSocket.failed=true) (hfetch : w.fetcher? i=none) :
    ¬ w.Answerable i := by
  have hin : i∈w.jobs := hjobs ▸ List.mem_singleton_self i
  obtain ⟨k',hat⟩ := (hw.mem_jobs_iff i).mp hin
  have hnone : ∀ r∈w.history.results,r.job≠i := by
    rintro r hr rfl
    exact hw.sound.seated.not_both k' r.job hat
      (List.mem_map_of_mem (f := Report.job) (List.mem_map_of_mem (f := Finished.report) hr))
  have hsame : ∀ w' : UsenetWorker, w'.history.results=w.history.results →
      ∀ r∈w'.history.results,r.job≠i := by
    intro w' he r hr
    rw [he] at hr
    exact hnone r hr
  rintro ⟨e,hne,r,hr,rfl⟩
  refine absurd rfl (?_ : r.job≠r.job)
  cases e with
  | fetchSegment request a =>
    rcases fetchSegment_results hw request a r hr with hr | hr
    · exact hnone r hr
    · exact absurd hr (Nat.ne_of_lt (hw.sound.seated.at_lt k' r.job hat))
  | socketReady k' => exact hsame _ (congrArg _ (socketReady_quiet w k').history) r hr
  | socketFailed k' error text =>
    refine hsame _ ?_ r hr
    show (w.socketFailed k' error text).history.results=_
    unfold socketFailed
    cases hs : w.socket? k' with
    | none => rfl
    | some s =>
      dsimp only
      split_ifs with hc
      · rfl
      · have hkk : k'≠k := by
          rintro rfl
          rw [hs] at hdead
          exact hc (.inl hdead)
        cases hby' : (w.mapSocket k' NntpSocket.fail).jobsBySocket k' with
        | none => rfl
        | some j =>
          have hj := hw.mem_jobs (SeatTable.at_of_holder (t := w.table) hby')
          rw [hjobs,List.mem_singleton] at hj
          subst hj
          exact absurd (hw.table.at_one (SeatTable.at_of_holder (t := w.table) hby')
            (SeatTable.at_of_holder hby)) hkk
  | socketMoves k' state => exact hsame _ rfl r hr
  | socketRead k' n =>
    refine hsame _ ?_ r hr
    show (w.socketRead k' n).history.results=_
    unfold socketRead
    split
    · rfl
    · split_ifs <;> rfl
  | fetcherReads id f => exact hsame _ (congrArg _ (fetcherReads_quiet w id f).history) r hr
  | fetcherFinished id error text =>
    refine hsame _ ?_ r hr
    have hno : w.fetcher? id=none := by
      by_cases hid : id=r.job
      · rw [hid,hfetch]
      · have hspot : w.table.spot id=none := by
          by_contra hspot
          have hin := (hw.table.listed id).mpr hspot
          rw [show w.table.jobs=w.jobs from rfl,hjobs,List.mem_singleton] at hin
          exact hid hin
        rw [fetcher?,Option.map_eq_none_iff.mp hspot]
        rfl
    show (if w.fetcher? id=none then w else w.finishJob id error text).history.results=_
    rw [if_pos hno]
  | nearlyDone id =>
    refine hsame _ ?_ r hr
    show (if w.fetcher? id=none then w else w.onNearlyDone id).history.results=_
    split_ifs
    · rfl
    · exact congrArg _ (onNearlyDone_quiet w id).history
  | setServers servers retryIntervalSec => exact hsame _ rfl r hr
  | dropClosedIdle => exact hsame _ rfl r hr
  | capTimer => exact hsame _ rfl r hr
  | wait ms => exact hsame _ rfl r hr
  | shutdown => exact absurd rfl hne

section Sample

def sampleServer : NewsServer :=
  { noServer with host := QString.lit "news", user := QString.lit "u", maxConnections := 1 }

def sampleRequest (messageId : String) : UsenetFetchRequest :=
  ⟨QString.lit "item",0,0,QString.lit messageId,0,[],false⟩

/-- An article, one pipelined behind it, the second taken over, and a shutdown. -/
def sampleRun : List Event :=
  [.setServers [sampleServer] 60,.fetchSegment (sampleRequest "a") ⟨none,false,false,[]⟩,
    .socketRead 0 30,.socketReady 0,.socketMoves 0 .commandBody,.nearlyDone 0,
    .fetchSegment (sampleRequest "b") ⟨none,false,false,[]⟩,.socketRead 0 70,
    .fetcherFinished 0 .none [],.socketRead 0 5,.shutdown]

def blockedRun : List Event :=
  [.setServers [sampleServer] 60,.fetchSegment (sampleRequest "a") ⟨none,true,false,[]⟩]

theorem after_correct_sample : Correct (after 3 sampleRun) ∧
    (after 3 sampleRun).history.results.map (fun r => (r.job, r.result.rawBytes)) =
      [(0, 100), (1, 5)] :=
  ⟨after_correct 3 sampleRun (by
    intro e he
    simp only [sampleRun,List.mem_cons,List.not_mem_nil,or_false] at he
    rcases he with rfl | rfl | rfl | rfl | rfl | rfl | rfl | rfl | rfl | rfl | rfl <;>
      simp [Event.Calm]),by decide +kernel⟩

/-- The interface the new connection is bound to is down. -/
theorem not_after_correct : ¬ ∀ index events, Correct (after index events) := by
  intro h
  have hc := h 3 blockedRun
  have hw : Wf (after 3 blockedRun) := by
    refine @run_invariant _ _ _ (fun _ _ => True) Wf
      (fun w e hw _ => (step_stepped hw e).wf) _ _ (init_wf 3) (along_true _ _ _)
  have hjobs : (after 3 blockedRun).jobs=[0] := by decide +kernel
  exact not_answerable (k := 0) hw hjobs (by decide +kernel) (by decide +kernel) (by decide +kernel)
    (hc.answerable 0 (hjobs ▸ List.mem_singleton_self 0))

end Sample

end EmuleQt.Usenet.UsenetWorker
