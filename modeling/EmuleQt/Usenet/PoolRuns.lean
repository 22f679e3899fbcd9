import EmuleQt.Framework.Run
import EmuleQt.Usenet.PoolLeases

namespace EmuleQt.Usenet

open Framework Utils Utils.QString

/-- What happens to a pool: the calls of its owner, its timer, and what the network does to a
connection. -/
inductive PoolOp
  | setServers (servers : List NewsServer)
  | acquire (now level : Int) (ignoreServers : List QString) (fails : Bool)
  | release (k : SocketId) (reusable : Bool)
  | blockServer (now : Int) (key : QString)
  | limitConnections (now : Int) (key : QString)
  | onCapTimer (now : Int)
  | moveTo (k : SocketId) (state : SocketState)
  | fail (k : SocketId)
  | dropClosedIdle

namespace NntpServerPool

def create (retryIntervalSec : Int) : NntpServerPool :=
  { empty with retryIntervalSec := retryIntervalSec }

def step (p : NntpServerPool) : PoolOp → NntpServerPool
  | .setServers servers => p.setServers servers
  | .acquire now level ignoreServers fails => (p.acquire now level ignoreServers fails).1
  | .release k reusable => p.release k reusable
  | .blockServer now key => p.blockServer now key
  | .limitConnections now key => p.limitConnections now key
  | .onCapTimer now => p.onCapTimer now
  | .moveTo k state => p.mapSocket k (NntpSocket.moveTo state)
  | .fail k => p.mapSocket k NntpSocket.fail
  | .dropClosedIdle => p.dropClosedIdle

/-- The open connections to the accounts that share a bucket by the current configuration. -/
def openIn (p : NntpServerPool) (id : QString) : Nat :=
  p.connections.countP fun l =>
    (hashValue? l.serverKey p.buckets).any fun b => decide (b.id=id)

/-- Whether a connection outlives a change of the servers. -/
def stays (p : NntpServerPool) (servers : List NewsServer) (l : Lease) : Bool :=
  l.inUse || !p.servers.any fun old => reconfigured servers old && decide (old.key = l.serverKey)

/-- No connection that outlives the change comes to spend another budget than the one it was opened
under. -/
def keepsBuckets (p : NntpServerPool) (servers : List NewsServer) : Bool :=
  p.connections.all fun l => !p.stays servers l ||
    (hashValue? l.serverKey (nntpConnectionBuckets servers)).all fun b => decide (b.id=l.bucket)

def Regular (p : NntpServerPool) : PoolOp → Prop
  | .setServers servers => p.keepsBuckets servers = true
  | _ => True

instance (p : NntpServerPool) (op : PoolOp) : Decidable (p.Regular op) :=
  match op with
  | .setServers servers => inferInstanceAs (Decidable (p.keepsBuckets servers=true))
  | .acquire .. | .release .. | .blockServer .. | .limitConnections .. | .onCapTimer ..
  | .moveTo .. | .fail .. | .dropClosedIdle => .isTrue trivial

variable {p p' : NntpServerPool} {k k' : SocketId} {now level : Int} {servers : List NewsServer}

/-- What an operation leaves of a lease. -/
structure Kept (l l' : Lease) : Prop where
  socket : l'.socket = l.socket
  serverKey : l'.serverKey = l.serverKey
  bucket : l'.bucket = l.bucket
  marked : l.retireOnRelease = true → l'.retireOnRelease = true
  idle : (l.inUse = false → l.retireOnRelease = false) →
    l'.inUse = false → l'.retireOnRelease = false

theorem Kept.refl (l : Lease) : Kept l l := ⟨rfl,rfl,rfl,id,id⟩

variable {l' : Lease} {fails : Bool} {ignoreServers : List QString}

theorem Kept.trans {l l'' : Lease} (h : Kept l l') (h' : Kept l' l'') : Kept l l'' :=
  ⟨h'.socket.trans h.socket,h'.serverKey.trans h.serverKey,h'.bucket.trans h.bucket,
    h'.marked ∘ h.marked,fun hl => h'.idle (h.idle hl)⟩

theorem dropConnections_lease {key : QString} (h : l'∈(p.dropConnections key).connections) :
    ∃ l∈p.connections, Kept l l' ∧ l'.inUse=l.inUse ∧ (l.inUse=true ∨ l.serverKey≠key) := by
  obtain ⟨l,hl,rfl⟩ := List.mem_map.mp h
  obtain ⟨hmem,hstays⟩ := List.mem_filter.mp hl
  refine ⟨l,hmem,?_⟩
  by_cases hkey : l.serverKey=key
  · have hinUse : l.inUse=true := by simpa [dropped,hkey] using hstays
    rw [if_pos hkey]
    refine ⟨⟨rfl,rfl,rfl,fun _ => rfl,?_⟩,rfl,.inl hinUse⟩
    intro _ hidle
    exact absurd hinUse (by simpa using hidle)
  · rw [if_neg hkey]
    exact ⟨Kept.refl l,rfl,.inr hkey⟩

theorem setServers_lease (h : l'∈(p.setServers servers).connections) :
    ∃ l∈p.connections, Kept l l' ∧ p.stays servers l=true := by
  have hfold : ∀ (olds : List NewsServer) (p : NntpServerPool),
      l'∈(olds.foldl (fun p old => p.dropConnections old.key) p).connections →
        ∃ l∈p.connections, Kept l l' ∧ l'.inUse=l.inUse ∧
          (l.inUse=true ∨ ∀ old∈olds,old.key≠l.serverKey) := by
    intro olds
    induction olds with
    | nil => exact fun p hl => ⟨l',hl,Kept.refl l',rfl,.inr (by simp)⟩
    | cons old olds ih =>
      intro p hl
      obtain ⟨l₁,hl₁,hkept₁,huse₁,hstay₁⟩ := ih (p.dropConnections old.key) hl
      obtain ⟨l,hmem,hkept,huse,hstay⟩ := dropConnections_lease hl₁
      refine ⟨l,hmem,hkept.trans hkept₁,huse₁.trans huse,?_⟩
      rw [huse,hkept.serverKey] at hstay₁
      rcases hstay with hinUse | hkey
      · exact .inl hinUse
      · refine hstay₁.imp_right fun hothers => ?_
        intro other hother
        rcases List.mem_cons.mp hother with rfl | hother
        · exact fun h => hkey h.symm
        · exact hothers other hother
  obtain ⟨l,hmem,hkept,-,hstay⟩ := hfold _ p h
  refine ⟨l,hmem,hkept,?_⟩
  rcases hstay with hinUse | hothers
  · rw [stays,hinUse,Bool.true_or]
  · rw [stays,Bool.or_eq_true,Bool.not_eq_true',List.any_eq_false]
    right
    intro old hold hgone
    obtain ⟨hreconfigured,hkey⟩ := Bool.and_eq_true_iff.mp hgone
    exact hothers old (List.mem_filter.mpr ⟨hold,hreconfigured⟩) (of_decide_eq_true hkey)

theorem dropClosedIdle_lease (h : l'∈p.dropClosedIdle.connections) :
    l'∈p.connections := List.mem_of_mem_filter h

/-- A connection is handed out from the idle ones, or it is opened within the limit. -/
inductive AcquireCase (p : NntpServerPool) (now level : Int) (fails : Bool) (server : NewsServer)
    (p' : NntpServerPool) (k : SocketId) : Prop
  | reused (l : Lease) (rotation : List (Int × Nat)) (idle : p.idleLease? server.key=some l)
      (socket : k=l.socket) (pool : p' = { p.reuse l.socket with rotation := rotation })
  | opened (bucket : NntpConnectionBucket) (rotation : List (Int × Nat))
      (found : hashValue? server.key p.buckets=some bucket) (socket : k=p.nextSocket)
      (room : (p.connectionsInBucket bucket.id : Int)<p.effectiveLimit now bucket)
      (pool : p' = { p.openNew server bucket.id level fails with rotation := rotation })

theorem effectiveLimit_none : p.effectiveLimit now ⟨[],0⟩≤0 := by
  unfold effectiveLimit
  split
  · exact le_refl 0
  · split_ifs
    · exact le_refl 0
    · exact min_le_left _ _

theorem acquireFrom_cases {candidates : List NewsServer} {start : Nat} (hne : candidates≠[])
    (is : List Nat) (h : p.acquireFrom now level fails candidates start is=(p', some k)) :
    ∃ server∈candidates, AcquireCase p now level fails server p' k := by
  induction is with
  | nil => simp [acquireFrom] at h
  | cons i is ih =>
    have hlt : (start+i)%candidates.length<candidates.length :=
      Nat.mod_lt _ (List.length_pos_iff.mpr hne)
    have hserver : (candidates[(start+i)%candidates.length]?).getD noServer∈candidates := by
      rw [List.getElem?_eq_getElem hlt]
      exact List.getElem_mem hlt
    rw [acquireFrom] at h
    cases hidle : p.idleLease?
        ((candidates[(start+i)%candidates.length]?).getD noServer).key with
    | some l =>
      rw [hidle] at h
      obtain ⟨hpool,hsocket⟩ := Prod.mk.inj h
      exact ⟨_,hserver,.reused l _ hidle (Option.some.inj hsocket).symm hpool.symm⟩
    | none =>
      rw [hidle] at h
      dsimp only at h
      split_ifs at h with hfull
      · exact ih h
      · obtain ⟨hpool,hsocket⟩ := Prod.mk.inj h
        cases hfound : hashValue?
            ((candidates[(start+i)%candidates.length]?).getD noServer).key p.buckets with
        | none =>
          rw [hfound,Option.getD_none] at hfull
          exact absurd (.inl effectiveLimit_none) hfull
        | some bucket =>
          rw [hfound,Option.getD_some] at hfull hpool
          refine ⟨_,hserver,.opened bucket _ hfound (Option.some.inj hsocket).symm ?_ hpool.symm⟩
          omega

theorem acquire_cases (h : p.acquire now level ignoreServers fails=(p', some k)) :
    ∃ server∈p.candidates now level ignoreServers,
      AcquireCase p.dropClosedIdle now level fails server p' k := by
  unfold acquire at h
  dsimp only at h
  split_ifs at h with hnone
  · simp at h
  · exact acquireFrom_cases hnone _ h

theorem idleLease_spec {key : QString} {l : Lease} (h : p.idleLease? key=some l) :
    l∈p.connections ∧ l.inUse=false ∧ l.serverKey=key := by
  have hfound := List.find?_some h
  simp only [Bool.and_eq_true,Bool.not_eq_true',decide_eq_true_eq] at hfound
  exact ⟨List.mem_of_find?_eq_some h,hfound.1.1,hfound.1.2⟩

theorem acquire_none (hwf : p.Wf) (h : p.acquire now level ignoreServers fails=(p', none)) :
    p'=p.dropClosedIdle := by
  unfold acquire at h
  dsimp only at h
  split_ifs at h with hnone
  · exact (Prod.mk.inj h).1.symm
  · rcases acquireFrom_spec ((dropClosedIdle_frame p).wf hwf) fails _ _ _ with hfail | hdone
    · rw [hfail] at h
      exact (Prod.mk.inj h).1.symm
    · obtain ⟨q,k,hq,-⟩ := hdone
      rw [hq] at h
      simp at h

/-- A lease that an `acquire` has made. -/
structure New (p : NntpServerPool) (l : Lease) : Prop where
  socket : l.socket = p.nextSocket
  inUse : l.inUse = true
  unmarked : l.retireOnRelease = false
  bucket : ∀ b, hashValue? l.serverKey p.buckets = some b → l.bucket = b.id

theorem setInUse_lease {u : Bool}
    (hfree : u=false → ∀ l∈p.connections,l.socket=k → l.retireOnRelease=false)
    (h : l'∈p.connections.map fun l => if l.socket=k then { l with inUse := u } else l) :
    ∃ l∈p.connections, Kept l l' := by
  obtain ⟨l,hl,rfl⟩ := List.mem_map.mp h
  refine ⟨l,hl,?_⟩
  by_cases hsocket : l.socket=k
  · rw [if_pos hsocket]
    refine ⟨rfl,rfl,rfl,id,?_⟩
    intro _ hidle
    exact hfree hidle l hl hsocket
  · rw [if_neg hsocket]
    exact Kept.refl l

theorem acquire_lease (hwf : p.Wf)
    (h : l'∈(p.acquire now level ignoreServers fails).1.connections) :
    (∃ l∈p.connections, Kept l l') ∨ p.New l' := by
  cases hacquire : p.acquire now level ignoreServers fails with
  | mk q result =>
    rw [hacquire] at h
    cases result with
    | none =>
      rw [acquire_none hwf hacquire] at h
      exact .inl ⟨l',dropClosedIdle_lease h,Kept.refl l'⟩
    | some k =>
      obtain ⟨server,-,hcase⟩ := acquire_cases hacquire
      cases hcase with
      | reused l rotation idle socket pool =>
        subst pool
        obtain ⟨l₁,hl₁,hkept⟩ := setInUse_lease (fun hu => absurd hu (by decide)) h
        exact .inl ⟨l₁,dropClosedIdle_lease hl₁,hkept⟩
      | opened bucket rotation found socket room pool =>
        subst pool
        rcases List.mem_append.mp h with hold | hnew
        · exact .inl ⟨l',dropClosedIdle_lease hold,Kept.refl l'⟩
        · rw [List.mem_singleton.mp hnew]
          refine .inr ⟨rfl,rfl,rfl,?_⟩
          intro b hb
          rw [← Option.some.inj (found.symm.trans hb)]

theorem release_lease (hwf : p.Wf) {reusable : Bool} (h : l'∈(p.release k reusable).connections) :
    ∃ l∈p.connections, Kept l l' := by
  unfold release at h
  cases hfound : p.lease? k with
  | none =>
    rw [hfound] at h
    exact ⟨l',h,Kept.refl l'⟩
  | some lease =>
    have hmem : lease∈p.connections := List.mem_of_find?_eq_some hfound
    have hsocket : lease.socket=k := by simpa using List.find?_some hfound
    rw [hfound] at h
    dsimp only at h
    split_ifs at h with hpool
    · refine setInUse_lease (fun _ l hl hk => ?_) h
      have hunmarked := (Bool.and_eq_true_iff.mp hpool).2
      rw [socket_inj hwf hl hmem (hk.trans hsocket.symm)]
      simpa using hunmarked
    · exact ⟨l',List.mem_of_mem_filter h,Kept.refl l'⟩

theorem step_lease (hwf : p.Wf) (op : PoolOp) (h : l'∈(p.step op).connections) :
    (∃ l∈p.connections, Kept l l') ∨ p.New l' := by
  have hsame : l'∈p.connections → (∃ l∈p.connections, Kept l l') ∨ p.New l' :=
    fun hl => .inl ⟨l',hl,Kept.refl l'⟩
  cases op with
  | setServers servers =>
    obtain ⟨l,hl,hkept,-⟩ := setServers_lease h
    exact .inl ⟨l,hl,hkept⟩
  | acquire now level ignoreServers fails => exact acquire_lease hwf h
  | release k reusable => exact .inl (release_lease hwf h)
  | blockServer now key =>
    change l'∈(p.blockServer now key).connections at h
    unfold blockServer at h
    split_ifs at h with hdisabled
    · exact hsame h
    · obtain ⟨l,hl,hkept,-⟩ := dropConnections_lease h
      exact .inl ⟨l,hl,hkept⟩
  | limitConnections now key =>
    change l'∈(p.limitConnections now key).connections at h
    unfold limitConnections at h
    split_ifs at h with hdisabled
    · exact hsame h
    · split at h
      · exact hsame h
      · exact hsame h
  | onCapTimer now => exact hsame h
  | moveTo k state => exact hsame h
  | fail k => exact hsame h
  | dropClosedIdle => exact hsame (dropClosedIdle_lease h)

theorem step_wf (hwf : p.Wf) (op : PoolOp) : (p.step op).Wf := by
  cases op with
  | setServers servers => exact (setServers_frame p servers).wf hwf
  | acquire now level ignoreServers fails =>
    obtain ⟨q,hframe,hnone | ⟨p',k,hsome,hleased⟩⟩ :=
      acquire_spec now level hwf ignoreServers fails
    · change (p.acquire now level ignoreServers fails).1.Wf
      rw [hnone]
      exact hframe.wf hwf
    · change (p.acquire now level ignoreServers fails).1.Wf
      rw [hsome]
      exact hleased.wf
  | release k reusable => exact (release_frame p k reusable hwf).1
  | blockServer now key => exact (blockServer_frame p now key).wf hwf
  | limitConnections now key => exact (limitConnections_frame p now key).wf hwf
  | onCapTimer now => exact (onCapTimer_frame p now).wf hwf
  | moveTo k state =>
    refine (mapSocket_steady p k (fun s => ?_) fun hdead hfailed => ?_).wf hwf
    · unfold NntpSocket.moveTo
      split_ifs <;> rfl
    · unfold NntpSocket.moveTo at hfailed ⊢
      split_ifs at hfailed ⊢ with hgone
      · exact hgone
      · exact absurd (hdead hfailed) hgone
  | fail k =>
    have hsteady : Steady p (p.mapSocket k NntpSocket.fail) :=
      mapSocket_steady p k (fun _ => rfl) fun _ _ => rfl
    exact hsteady.wf hwf
  | dropClosedIdle => exact (dropClosedIdle_frame p).wf hwf

theorem step_inUse (hwf : p.Wf) {op : PoolOp} (hop : ∀ reusable,op ≠ .release k reusable)
    (h : p.InUse k) : (p.step op).InUse k := by
  cases op with
  | setServers servers => exact ((setServers_frame p servers).inUse k).mpr h
  | acquire now level ignoreServers fails =>
    obtain ⟨q,hframe,hnone | ⟨p',k',hsome,hleased⟩⟩ :=
      acquire_spec now level hwf ignoreServers fails
    · change (p.acquire now level ignoreServers fails).1.InUse k
      rw [hnone]
      exact (hframe.inUse k).mpr h
    · change (p.acquire now level ignoreServers fails).1.InUse k
      rw [hsome]
      exact (hleased.inUse k).mpr (.inr ((hframe.inUse k).mpr h))
  | release k' reusable =>
    refine ((release_frame p k' reusable hwf).2.1 k).mpr ⟨?_,h⟩
    rintro rfl
    exact hop reusable rfl
  | blockServer now key => exact ((blockServer_frame p now key).inUse k).mpr h
  | limitConnections now key => exact ((limitConnections_frame p now key).inUse k).mpr h
  | onCapTimer now => exact h
  | moveTo k' state => exact h
  | fail k' => exact h
  | dropClosedIdle => exact ((dropClosedIdle_frame p).inUse k).mpr h

theorem step_buckets {op : PoolOp} (hop : ∀ servers,op ≠ .setServers servers) :
    (p.step op).buckets=p.buckets := by
  cases op with
  | setServers servers => exact absurd rfl (hop servers)
  | acquire now level ignoreServers fails =>
    change (p.acquire now level ignoreServers fails).1.buckets=p.buckets
    have hfrom : ∀ (q : NntpServerPool) candidates start is,
        (q.acquireFrom now level fails candidates start is).1.buckets=q.buckets := by
      intro q candidates start is
      induction is with
      | nil => rfl
      | cons i is ih =>
        rw [acquireFrom]
        dsimp only
        split
        · rfl
        · split_ifs
          · exact ih
          · rfl
    unfold acquire
    dsimp only
    split_ifs
    · rfl
    · exact hfrom _ _ _ _
  | release k reusable =>
    change (p.release k reusable).buckets=p.buckets
    unfold release
    split
    · rfl
    · split_ifs <;> rfl
  | blockServer now key =>
    change (p.blockServer now key).buckets=p.buckets
    unfold blockServer
    split_ifs <;> rfl
  | limitConnections now key =>
    change (p.limitConnections now key).buckets=p.buckets
    unfold limitConnections
    split_ifs
    · rfl
    · split <;> rfl
  | onCapTimer now => rfl
  | moveTo k state => rfl
  | fail k => rfl
  | dropClosedIdle => rfl

/-- Every lease spends the budget that its account has now. -/
def Placed (p : NntpServerPool) : Prop :=
  ∀ l ∈ p.connections, ∀ b, hashValue? l.serverKey p.buckets = some b → l.bucket = b.id

theorem step_placed (hwf : p.Wf) (hplaced : p.Placed) {op : PoolOp} (hop : p.Regular op) :
    (p.step op).Placed := by
  intro l' hl' b hb
  by_cases hset : ∃ servers, op = .setServers servers
  · obtain ⟨servers,rfl⟩ := hset
    obtain ⟨l,hl,hkept,hstays⟩ := setServers_lease hl'
    have hb : hashValue? l'.serverKey (nntpConnectionBuckets servers)=some b := hb
    have hkeeps := List.all_eq_true.mp (show p.keepsBuckets servers=true from hop) l hl
    rw [hkept.serverKey] at hb
    rw [hstays,Bool.not_true,Bool.false_or,hb,Option.all_some,decide_eq_true_eq] at hkeeps
    rw [hkept.bucket,hkeeps]
  · rw [step_buckets fun servers h => hset ⟨servers,h⟩] at hb
    rcases step_lease hwf op hl' with ⟨l,hl,hkept⟩ | hnew
    · rw [hkept.serverKey] at hb
      rw [hkept.bucket]
      exact hplaced l hl b hb
    · exact hnew.bucket b hb

end NntpServerPool

end EmuleQt.Usenet

namespace EmuleQt.Usenet.NntpServerPool

open Framework Utils Utils.QString

variable {p p' : NntpServerPool} {k : SocketId} {now level : Int}

/-- What holds of a pool at any time. -/
structure Sound (p : NntpServerPool) : Prop where
  wf : p.Wf
  idle : ∀ l ∈ p.connections, l.inUse = false → l.retireOnRelease = false

theorem step_sound (h : p.Sound) (op : PoolOp) : (p.step op).Sound := by
  refine ⟨step_wf h.wf op,?_⟩
  intro l' hl' hidle
  rcases step_lease h.wf op hl' with ⟨l,hl,hkept⟩ | hnew
  · exact hkept.idle (h.idle l hl) hidle
  · exact hnew.unmarked

/-- The connection is marked to retire, or it is gone. -/
def Marked (k : SocketId) (p : NntpServerPool) : Prop :=
  k < p.nextSocket ∧ ∀ l ∈ p.connections, l.socket = k → l.retireOnRelease = true

theorem step_nextSocket (hwf : p.Wf) (op : PoolOp) : p.nextSocket≤(p.step op).nextSocket := by
  cases op with
  | setServers servers => exact (setServers_frame p servers).nextSocket.ge
  | acquire now level ignoreServers fails =>
    change p.nextSocket≤(p.acquire now level ignoreServers fails).1.nextSocket
    cases hacquire : p.acquire now level ignoreServers fails with
    | mk q result =>
      cases result with
      | none => rw [acquire_none hwf hacquire,(dropClosedIdle_frame p).nextSocket]
      | some k =>
        obtain ⟨server,-,hcase⟩ := acquire_cases hacquire
        cases hcase with
        | reused l rotation idle socket pool =>
          subst pool
          exact le_refl p.nextSocket
        | opened bucket rotation found socket room pool =>
          subst pool
          exact Nat.le_succ p.nextSocket
  | release k reusable => exact (release_frame p k reusable hwf).2.2.2.2.ge
  | blockServer now key => exact (blockServer_frame p now key).nextSocket.ge
  | limitConnections now key => exact (limitConnections_frame p now key).nextSocket.ge
  | onCapTimer now => exact le_refl p.nextSocket
  | moveTo k state => exact le_refl p.nextSocket
  | fail k => exact le_refl p.nextSocket
  | dropClosedIdle => exact le_refl p.nextSocket

theorem step_marked (hwf : p.Wf) (h : Marked k p) (op : PoolOp) : Marked k (p.step op) := by
  refine ⟨h.1.trans_le (step_nextSocket hwf op),?_⟩
  intro l' hl' hsocket
  rcases step_lease hwf op hl' with ⟨l,hl,hkept⟩ | hnew
  · exact hkept.marked (h.2 l hl (hkept.socket.symm.trans hsocket))
  · have hlt := h.1
    rw [← hsocket,hnew.socket] at hlt
    exact absurd hlt (Nat.lt_irrefl _)

/-- The open connections of an account's bucket keep to its limit and to a cap that is active. -/
def Within (p : NntpServerPool) (now : Int) (key : QString) : Prop :=
  ∃ b, hashValue? key p.buckets = some b ∧ (p.openIn b.id : Int) ≤ b.limit ∧
    ∀ cap, hashValue? b.id p.caps = some cap → now < cap.untilMs → (p.openIn b.id : Int) ≤ cap.limit

/-- What an `acquire` may do in a state. -/
structure AcquireSafe (p : NntpServerPool) (now level : Int) (ignoreServers : List QString)
    (fails : Bool) : Prop where
  opens : ∀ l∈(p.acquire now level ignoreServers fails).1.connections,
    (∀ old∈p.connections, old.socket≠l.socket) →
      (p.acquire now level ignoreServers fails).1.Within now l.serverKey
  handsOut : ∀ k, (p.acquire now level ignoreServers fails).2=some k → ¬ p.InUse k ∧
    ∃ l∈(p.acquire now level ignoreServers fails).1.connections, l.socket=k ∧ l.inUse=true ∧
      p.levelOf l.serverKey=level ∧ l.serverKey∉ignoreServers ∧
      p.isServerBlocked now l.serverKey=false

theorem candidates_spec {ignoreServers : List QString} {server : NewsServer}
    (h : server∈p.candidates now level ignoreServers) :
    p.levelOf server.key=level ∧ server.key∉ignoreServers ∧
      p.isServerBlocked now server.key=false := by
  have hspec := (List.mem_filter.mp h).2
  simp only [Bool.and_eq_true,decide_eq_true_eq,Bool.not_eq_true',List.contains_eq_mem,
    decide_eq_false_iff_not] at hspec
  exact ⟨hspec.1.1.2,hspec.1.2,hspec.2⟩

theorem openIn_le (hplaced : p.Placed) (id : QString) : p.openIn id≤p.connectionsInBucket id := by
  refine List.countP_mono_left fun l hl hopen => ?_
  cases hb : hashValue? l.serverKey p.buckets with
  | none => simp [hb] at hopen
  | some b =>
    rw [hb,Option.any_some,decide_eq_true_eq] at hopen
    rw [decide_eq_true_eq,hplaced l hl b hb,hopen]

theorem dropClosedIdle_placed (hplaced : p.Placed) : p.dropClosedIdle.Placed :=
  fun l hl b hb => hplaced l (dropClosedIdle_lease hl) b hb

theorem openNew_within (hplaced : p.Placed) {server : NewsServer} {bucket : NntpConnectionBucket}
    {fails : Bool} (found : hashValue? server.key p.buckets=some bucket)
    (room : (p.connectionsInBucket bucket.id : Int)<p.effectiveLimit now bucket)
    (rotation : List (Int × Nat)) :
    ({ p.openNew server bucket.id level fails with rotation := rotation } :
      NntpServerPool).Within now server.key := by
  have hopen : ({ p.openNew server bucket.id level fails with rotation := rotation } :
      NntpServerPool).openIn bucket.id≤p.connectionsInBucket bucket.id+1 := by
    change (p.connections++[_]).countP _ ≤ _
    rw [List.countP_append]
    exact Nat.add_le_add (openIn_le hplaced bucket.id) List.countP_le_length
  refine ⟨bucket,found,?_,?_⟩
  · have hlimit : p.effectiveLimit now bucket≤bucket.limit := by
      unfold effectiveLimit
      split
      · exact le_refl _
      · split_ifs
        · exact le_refl _
        · exact min_le_left _ _
    omega
  · intro cap hcap hactive
    have hcap : hashValue? bucket.id p.caps=some cap := hcap
    have hlimit : p.effectiveLimit now bucket≤cap.limit := by
      unfold effectiveLimit
      rw [hcap]
      dsimp only
      rw [if_neg (not_le.mpr hactive)]
      exact min_le_right _ _
    omega

theorem acquire_safe (h : p.Sound) (hplaced : p.Placed) (now level : Int)
    (ignoreServers : List QString) (fails : Bool) :
    p.AcquireSafe now level ignoreServers fails := by
  cases hacquire : p.acquire now level ignoreServers fails with
  | mk q result =>
    cases result with
    | none =>
      refine ⟨?_,by simp [hacquire]⟩
      intro l hl hnew
      rw [hacquire,acquire_none h.wf hacquire] at hl
      exact absurd rfl (hnew l (dropClosedIdle_lease hl))
    | some k =>
      obtain ⟨server,hserver,hcase⟩ := acquire_cases hacquire
      have hgranted := candidates_spec hserver
      cases hcase with
      | reused l rotation idle socket pool =>
        obtain ⟨hl,hfree,hkey⟩ := idleLease_spec idle
        have hmem : l∈p.connections := dropClosedIdle_lease hl
        refine ⟨?_,?_⟩
        · intro l' hl' hnew
          rw [hacquire,pool] at hl'
          obtain ⟨l₁,hl₁,hkept⟩ := setInUse_lease (fun hu => absurd hu (by decide)) hl'
          exact absurd hkept.socket.symm (hnew l₁ (dropClosedIdle_lease hl₁))
        · intro k' hk'
          rw [hacquire] at hk'
          obtain rfl : k=k' := Option.some.inj hk'
          rw [hacquire,pool,socket]
          refine ⟨?_,{ l with inUse := true },List.mem_map.mpr ⟨l,hl,if_pos rfl⟩,rfl,rfl,?_⟩
          · rintro ⟨l',hl',hsocket,huse⟩
            rw [socket_inj h.wf hl' hmem hsocket,hfree] at huse
            exact Bool.false_ne_true huse
          · rw [hkey]
            exact hgranted
      | opened bucket rotation found socket room pool =>
        refine ⟨?_,?_⟩
        · intro l' hl' hnew
          rw [hacquire,pool] at hl' ⊢
          rcases List.mem_append.mp hl' with hold | hlast
          · exact absurd rfl (hnew l' (dropClosedIdle_lease hold))
          · rw [List.mem_singleton.mp hlast]
            exact openNew_within (dropClosedIdle_placed hplaced) found room rotation
        · intro k' hk'
          rw [hacquire] at hk'
          obtain rfl : k=k' := Option.some.inj hk'
          rw [hacquire,pool,socket]
          refine ⟨?_,_,List.mem_append_right _ (List.mem_singleton.mpr rfl),rfl,rfl,hgranted⟩
          rintro ⟨l',hl',hsocket,-⟩
          exact absurd hsocket (Nat.ne_of_lt (h.wf.lt l' hl'))

/-- The pool after a run from its creation. -/
def after (retryIntervalSec : Int) (ops : List PoolOp) : NntpServerPool :=
  run step (create retryIntervalSec) ops

/-- What holds of a run and of every call in it. -/
structure RunSafe (retryIntervalSec : Int) (ops : List PoolOp) : Prop where
  acquires : ∀ before now level ignoreServers fails rest,
    ops=before ++ .acquire now level ignoreServers fails::rest →
      (after retryIntervalSec before).AcquireSafe now level ignoreServers fails
  once : ∀ before now level ignoreServers fails between now' level' ignoreServers' fails' rest k,
    ops=before ++ .acquire now level ignoreServers fails ::
        (between ++ .acquire now' level' ignoreServers' fails'::rest) →
      ((after retryIntervalSec before).acquire now level ignoreServers fails).2=some k →
        ((after retryIntervalSec
          (before ++ .acquire now level ignoreServers fails::between)).acquire
            now' level' ignoreServers' fails').2=some k →
          ∃ reusable, .release k reusable∈between
  retired : ∀ before rest, ops=before++rest →
    ∀ l∈(after retryIntervalSec before).connections, l.retireOnRelease=true →
      l.inUse=true ∧ ∀ l'∈(after retryIntervalSec ops).connections,
        l'.socket=l.socket → l'.inUse=true

theorem create_sound (retryIntervalSec : Int) : (create retryIntervalSec).Sound := by
  refine ⟨⟨List.nodup_nil,?_,?_,fun _ _ => rfl⟩,?_⟩
  · intro l hl
    exact absurd hl List.not_mem_nil
  · intro k hk
    exact absurd hk (by simp [create,empty])
  · intro l hl
    exact absurd hl List.not_mem_nil

theorem after_sound (retryIntervalSec : Int) (ops : List PoolOp) :
    (after retryIntervalSec ops).Sound :=
  @run_invariant _ _ step (fun _ _ => True) Sound (fun _ op h _ => step_sound h op) _ _
    (create_sound retryIntervalSec) (along_true step _ ops)

theorem after_placed {retryIntervalSec : Int} {ops : List PoolOp}
    (hok : Along step Regular (create retryIntervalSec) ops) :
    (after retryIntervalSec ops).Placed := by
  have hinv : (after retryIntervalSec ops).Sound ∧ (after retryIntervalSec ops).Placed :=
    @run_invariant _ _ step Regular (fun p => p.Sound ∧ p.Placed)
      (fun _ op h hop => ⟨step_sound h.1 op,step_placed h.1.wf h.2 hop⟩) _ _
      ⟨create_sound retryIntervalSec,fun l hl => absurd hl List.not_mem_nil⟩ hok
  exact hinv.2

/-- A pool keeps to the limits of its budgets in every run in which no connection changes its
budget; it hands out what was asked for, to one holder at a time, and never again what is to
retire. -/
theorem pool_runs_safe (retryIntervalSec : Int) (ops : List PoolOp)
    (hok : Along step Regular (create retryIntervalSec) ops) : RunSafe retryIntervalSec ops := by
  refine ⟨?_,?_,?_⟩
  · intro before now level ignoreServers fails rest hops
    rw [hops,along_append] at hok
    exact acquire_safe (after_sound retryIntervalSec before) (after_placed hok.1) now level
      ignoreServers fails
  · intro before now level ignoreServers fails between now' level' ignoreServers' fails' rest k hops
      hfirst hagain
    by_contra hnone
    have hsplit : ops=(before ++ .acquire now level ignoreServers fails::between) ++
        .acquire now' level' ignoreServers' fails'::rest := by
      rw [hops,List.append_assoc,List.cons_append]
    rw [hsplit,along_append] at hok
    have hbefore := ((along_append step Regular _ before _).mp hok.1).1
    have hfirstSafe := acquire_safe (after_sound retryIntervalSec before) (after_placed hbefore)
      now level ignoreServers fails
    have hagainSafe := acquire_safe (after_sound retryIntervalSec _) (after_placed hok.1)
      now' level' ignoreServers' fails'
    obtain ⟨-,l,hl,hsocket,huse,-⟩ := hfirstSafe.handsOut k hfirst
    -- the socket stays out while nothing releases it
    have hkept : ((after retryIntervalSec before).step
        (.acquire now level ignoreServers fails)).Sound ∧
      ((after retryIntervalSec before).step (.acquire now level ignoreServers fails)).InUse k :=
      ⟨step_sound (after_sound retryIntervalSec before) _,l,hl,hsocket,huse⟩
    have hunreleased : Along step (fun _ op => ∀ reusable,op ≠ .release k reusable)
        ((after retryIntervalSec before).step (.acquire now level ignoreServers fails)) between :=
      along_of_forall _ fun op hop reusable hrelease => hnone ⟨reusable,hrelease ▸ hop⟩
    have hout := @run_invariant _ _ step (fun _ op => ∀ reusable,op ≠ .release k reusable)
      (fun p => p.Sound ∧ p.InUse k)
      (fun _ op h hop => ⟨step_sound h.1 op,step_inUse h.1.wf hop h.2⟩) _ _ hkept hunreleased
    refine (hagainSafe.handsOut k hagain).1 ?_
    rw [after,run_append,run_cons]
    exact hout.2
  · intro before rest hops l hl hmarked
    have hsound := after_sound retryIntervalSec before
    have huse : l.inUse=true := by
      cases hidle : l.inUse with
      | true => rfl
      | false => exact absurd hmarked (by simp [hsound.idle l hl hidle])
    refine ⟨huse,?_⟩
    have hstart : Marked l.socket (after retryIntervalSec before) := by
      refine ⟨hsound.wf.lt l hl,?_⟩
      intro other hother hsocket
      rw [socket_inj hsound.wf hother hl hsocket]
      exact hmarked
    have hend : (after retryIntervalSec ops).Sound ∧
        Marked l.socket (after retryIntervalSec ops) := by
      rw [hops,after,run_append]
      exact @run_invariant _ _ step (fun _ _ => True) (fun p => p.Sound ∧ Marked l.socket p)
        (fun _ op h _ => ⟨step_sound h.1 op,step_marked h.1.wf h.2 op⟩) _ _
        ⟨hsound,hstart⟩ (along_true step _ rest)
    intro l' hl' hsocket
    cases hidle : l'.inUse with
    | true => rfl
    | false => exact absurd (hend.2.2 l' hl' hsocket) (by simp [hend.1.idle l' hl' hidle])

/-- An account of one connection, alone or in a group. -/
def soleServer (group : Int) : NewsServer :=
  ⟨lit "news",563,.implicit,lit "me",[],0,group,[],1,.strict,true⟩

/-- The account joins a group between two calls, while its connection is out. -/
def soleRun (group : Int) : List PoolOp :=
  [.setServers [soleServer 0],.acquire 0 0 [] false,.setServers [soleServer group],
    .acquire 1 0 [] false]

/-- The second call finds the limit reached when the account stays alone. -/
theorem soleRun_safe : Along step Regular (create 60) (soleRun 0) ∧ RunSafe 60 (soleRun 0) ∧
    (after 60 (soleRun 0)).connections.length = 1 := by
  have hok : Along step Regular (create 60) (soleRun 0) := by decide +kernel
  exact ⟨hok,pool_runs_safe 60 (soleRun 0) hok,by decide +kernel⟩

/-- In the group its connection is counted under the old budget, and a second one is opened where
the limit is one. -/
theorem soleRun_exceeds :
    hashValue? (soleServer 1).key (after 60 (soleRun 1)).buckets = some ⟨lit "g1", 1⟩ ∧
      (after 60 (soleRun 1)).openIn (lit "g1") = 2 ∧ ¬ RunSafe 60 (soleRun 1) := by
  have hbucket : hashValue? (soleServer 1).key (after 60 (soleRun 1)).buckets =
      some ⟨lit "g1",1⟩ := by decide +kernel
  have hopen : (after 60 (soleRun 1)).openIn (lit "g1")=2 := by decide +kernel
  refine ⟨hbucket,hopen,?_⟩
  intro h
  have hsafe := h.acquires [.setServers [soleServer 0],.acquire 0 0 [] false,
    .setServers [soleServer 1]] 1 0 [] false [] rfl
  have hlease : (⟨1,(soleServer 1).key,lit "g1",0,true,false⟩ : Lease) ∈
      (after 60 (soleRun 1)).connections := by decide +kernel
  have hnew : ∀ old∈(after 60 [.setServers [soleServer 0],.acquire 0 0 [] false,
      .setServers [soleServer 1]]).connections, old.socket≠1 := by decide +kernel
  obtain ⟨b,hb,hlimit,-⟩ := hsafe.opens _ hlease hnew
  obtain rfl : b=⟨lit "g1",1⟩ := Option.some.inj (hb.symm.trans hbucket)
  change ((after 60 (soleRun 1)).openIn (lit "g1") : Int)≤1 at hlimit
  rw [hopen] at hlimit
  exact absurd hlimit (by decide)

end EmuleQt.Usenet.NntpServerPool
