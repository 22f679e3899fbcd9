import EmuleQt.Usenet.NntpServerPool

namespace EmuleQt.Usenet.NntpServerPool

open Framework Utils

variable {p p' p'' : NntpServerPool} {k k' : SocketId} {key : QString} {now level : Int}

def InUse (p : NntpServerPool) (k : SocketId) : Prop :=
  ∃ l ∈ p.connections, l.socket = k ∧ l.inUse = true

structure Wf (p : NntpServerPool) : Prop where
  nodup : (p.connections.map Lease.socket).Nodup
  lt : ∀ l∈p.connections, l.socket<p.nextSocket
  dead : ∀ k, (p.sockets k).failed=true → (p.sockets k).state = .disconnected
  unread : ∀ k, p.nextSocket≤k → (p.sockets k).bytesRead=0

/-- The leases that are out, and what has been read from each socket, are as before. -/
structure Frame (p p' : NntpServerPool) : Prop where
  wf : p.Wf → p'.Wf
  inUse : ∀ k, p'.InUse k ↔ p.InUse k
  bytesRead : ∀ k, (p'.sockets k).bytesRead = (p.sockets k).bytesRead
  failed : ∀ k, (p'.sockets k).failed = (p.sockets k).failed
  nextSocket : p'.nextSocket = p.nextSocket

/-- As a frame, but connections may fail. -/
structure Steady (p p' : NntpServerPool) : Prop where
  wf : p.Wf → p'.Wf
  inUse : ∀ k, p'.InUse k ↔ p.InUse k
  bytesRead : ∀ k, (p'.sockets k).bytesRead = (p.sockets k).bytesRead

theorem Steady.refl (p : NntpServerPool) : Steady p p := ⟨id,fun _ => Iff.rfl,fun _ => rfl⟩

theorem Frame.refl (p : NntpServerPool) : Frame p p :=
  ⟨id,fun _ => Iff.rfl,fun _ => rfl,fun _ => rfl,rfl⟩

theorem Frame.trans (h : Frame p p') (h' : Frame p' p'') : Frame p p'' :=
  ⟨h'.wf ∘ h.wf,fun k => (h'.inUse k).trans (h.inUse k),
    fun k => (h'.bytesRead k).trans (h.bytesRead k),fun k => (h'.failed k).trans (h.failed k),
    h'.nextSocket.trans h.nextSocket⟩

theorem Frame.of_eq (hc : p'.connections=p.connections) (hs : p'.sockets=p.sockets)
    (hn : p'.nextSocket=p.nextSocket) : Frame p p' := by
  refine ⟨fun h => ⟨?_,?_,?_,?_⟩,?_,?_,?_,hn⟩
  · rw [hc]
    exact h.nodup
  · rw [hc,hn]
    exact h.lt
  · rw [hs]
    exact h.dead
  · rw [hs,hn]
    exact h.unread
  · intro k
    simp only [InUse,hc]
  · intro k
    rw [hs]
  · intro k
    rw [hs]

theorem retire_socket (ks : List SocketId) (k : SocketId) :
    (p.retire ks).sockets k=p.sockets k ∨ (p.retire ks).sockets k=(p.sockets k).abort := by
  by_cases h : k∈ks
  · exact .inr (if_pos h)
  · exact .inl (if_neg h)

theorem retire_bytesRead (ks : List SocketId) (k : SocketId) :
    ((p.retire ks).sockets k).bytesRead=(p.sockets k).bytesRead := by
  rcases retire_socket (p := p) ks k with h | h
  · rw [h]
  · rw [h]
    rfl

theorem retire_failed (ks : List SocketId) (k : SocketId) :
    ((p.retire ks).sockets k).failed=(p.sockets k).failed := by
  rcases retire_socket (p := p) ks k with h | h
  · rw [h]
  · rw [h]
    rfl

theorem retire_unread (ks : List SocketId)
    (h : ∀ k,p.nextSocket≤k → (p.sockets k).bytesRead=0) (k : SocketId)
    (hk : p.nextSocket≤k) : ((p.retire ks).sockets k).bytesRead=0 := by
  rw [retire_bytesRead]
  exact h k hk

theorem retire_dead (ks : List SocketId)
    (h : ∀ k,(p.sockets k).failed=true → (p.sockets k).state = .disconnected) (k : SocketId)
    (hk : ((p.retire ks).sockets k).failed=true) :
    ((p.retire ks).sockets k).state = .disconnected := by
  rw [retire_failed] at hk
  rcases retire_socket (p := p) ks k with he | he <;> rw [he]
  · exact h k hk
  · rfl

theorem Frame.retire (ks : List SocketId) (keep : Lease → Bool) (f : Lease → Lease)
    (hkeep : ∀ l,l.inUse=true → keep l=true)
    (hf : ∀ l,(f l).socket=l.socket ∧ (f l).inUse=l.inUse) :
    Frame p { p.retire ks with connections := (p.connections.filter keep).map f } := by
  refine ⟨fun h => ⟨?_,?_,retire_dead ks h.dead,retire_unread ks h.unread⟩,?_,
    retire_bytesRead ks,retire_failed ks,rfl⟩
  · have hmap : ((p.connections.filter keep).map f).map Lease.socket =
        (p.connections.filter keep).map Lease.socket := by
      rw [List.map_map]
      exact List.map_congr_left fun l _ => (hf l).1
    rw [hmap]
    exact h.nodup.sublist (List.filter_sublist.map _)
  · intro l hl
    obtain ⟨l',hl',rfl⟩ := List.mem_map.mp hl
    rw [(hf l').1]
    exact h.lt l' (List.mem_of_mem_filter hl')
  · intro k
    constructor
    · rintro ⟨l,hl,hk,hu⟩
      obtain ⟨l',hl',rfl⟩ := List.mem_map.mp hl
      exact ⟨l',List.mem_of_mem_filter hl',(hf l').1 ▸ hk,(hf l').2 ▸ hu⟩
    · rintro ⟨l,hl,hk,hu⟩
      refine ⟨f l,List.mem_map.mpr ⟨l,List.mem_filter.mpr ⟨hl,hkeep l hu⟩,rfl⟩,?_,?_⟩
      · rw [(hf l).1,hk]
      · rw [(hf l).2,hu]

theorem dropConnections_frame (p : NntpServerPool) (key : QString) :
    Frame p (p.dropConnections key) := by
  refine Frame.retire _ _ _ (fun l hl => ?_) (fun l => ?_)
  · simp [dropped,hl]
  · split_ifs <;> exact ⟨rfl,rfl⟩

theorem dropClosedIdle_frame (p : NntpServerPool) : Frame p p.dropClosedIdle := by
  have h := Frame.retire (p := p)
    ((p.connections.filter fun l => !l.inUse && !(p.sockets l.socket).isReady).map Lease.socket)
    (fun l => !(!l.inUse && !(p.sockets l.socket).isReady)) id
    (fun l hl => by simp [hl]) (fun _ => ⟨rfl,rfl⟩)
  rw [List.map_id] at h
  exact h

theorem setServers_frame (p : NntpServerPool) (servers : List NewsServer) :
    Frame p (p.setServers servers) := by
  have hfold : ∀ (olds : List NewsServer) (p : NntpServerPool),
      Frame p (olds.foldl (fun p old => p.dropConnections old.key) p) := by
    intro olds
    induction olds with
    | nil => exact Frame.refl
    | cons old olds ih => exact fun p => (dropConnections_frame p old.key).trans (ih _)
  exact (hfold _ p).trans (Frame.of_eq rfl rfl rfl)

theorem blockServer_frame (p : NntpServerPool) (now : Int) (key : QString) :
    Frame p (p.blockServer now key) := by
  unfold blockServer
  split_ifs
  · exact Frame.refl p
  · have h : Frame p { p with
        blockedUntil := hashInsert key (now/1000+p.retryIntervalSec) p.blockedUntil } :=
      Frame.of_eq rfl rfl rfl
    exact h.trans (dropConnections_frame _ key)

theorem limitConnections_frame (p : NntpServerPool) (now : Int) (key : QString) :
    Frame p (p.limitConnections now key) := by
  unfold limitConnections
  split_ifs
  · exact Frame.refl p
  · split
    · exact Frame.refl p
    · exact Frame.of_eq rfl rfl rfl

theorem onCapTimer_frame (p : NntpServerPool) (now : Int) : Frame p (p.onCapTimer now) :=
  Frame.of_eq rfl rfl rfl

/-- What a lease of a socket changes. -/
structure Leased (p p' : NntpServerPool) (k : SocketId) (fails : Bool) : Prop where
  wf : p'.Wf
  free : ¬ p.InUse k
  inUse : ∀ k', p'.InUse k' ↔ k' = k ∨ p.InUse k'
  bytesRead : ∀ k', (p'.sockets k').bytesRead = (p.sockets k').bytesRead
  failed : ∀ k', k' ≠ k → (p'.sockets k').failed = (p.sockets k').failed
  alive : fails = false → (p'.sockets k).failed = false

theorem socket_inj (h : p.Wf) {l l' : Lease} (hl : l∈p.connections) (hl' : l'∈p.connections)
    (he : l.socket=l'.socket) : l=l' :=
  List.inj_on_of_nodup_map h.nodup hl hl' he

theorem mem_setInUse {u : Bool} {l : Lease} (h : l∈p.connections.map fun l =>
    if l.socket=k then { l with inUse := u } else l) : ∃ l'∈p.connections,
      l'.socket=l.socket ∧ l.inUse=if l.socket=k then u else l'.inUse := by
  obtain ⟨l',hl',rfl⟩ := List.mem_map.mp h
  refine ⟨l',hl',?_⟩
  split_ifs with h1 <;> simp_all

theorem setInUse_map (u : Bool) : (p.connections.map fun l =>
    if l.socket=k then { l with inUse := u } else l).map Lease.socket =
      p.connections.map Lease.socket := by
  rw [List.map_map]
  refine List.map_congr_left fun l _ => ?_
  rw [Function.comp_apply]
  split_ifs <;> rfl

theorem inUse_setInUse {u : Bool} (hk : ∃ l∈p.connections, l.socket=k) (hp' : p'.connections =
    p.connections.map fun l => if l.socket=k then { l with inUse := u } else l) (k' : SocketId) :
    p'.InUse k' ↔ if k'=k then u=true else p.InUse k' := by
  unfold InUse
  rw [hp']
  constructor
  · rintro ⟨l,hl,rfl,hu⟩
    obtain ⟨l',hl',hs,hin⟩ := mem_setInUse hl
    rw [hin] at hu
    split_ifs at hu ⊢ with h1
    · exact hu
    · exact ⟨l',hl',hs,hu⟩
  · intro h
    split_ifs at h with h1
    · obtain ⟨l,hl,hlk⟩ := hk
      refine ⟨_,List.mem_map.mpr ⟨l,hl,rfl⟩,?_,?_⟩ <;> rw [if_pos hlk]
      · exact hlk.trans h1.symm
      · exact h
    · obtain ⟨l,hl,hlk,hu⟩ := h
      refine ⟨l,List.mem_map.mpr ⟨l,hl,?_⟩,hlk,hu⟩
      rw [if_neg (by rw [hlk]; exact h1)]

theorem setInUse_wf {u : Bool} (h : p.Wf) (hp' : p'.connections =
    p.connections.map fun l => if l.socket=k then { l with inUse := u } else l)
    (hs : p'.sockets=p.sockets) (hn : p'.nextSocket=p.nextSocket) : p'.Wf := by
  refine ⟨?_,?_,?_,?_⟩
  · rw [hp',setInUse_map]
    exact h.nodup
  · rw [hp',hn]
    intro l hl
    obtain ⟨l',hl',he,-⟩ := mem_setInUse hl
    rw [← he]
    exact h.lt l' hl'
  · rw [hs]
    exact h.dead
  · rw [hs,hn]
    exact h.unread

theorem mapSocket_steady {f : NntpSocket → NntpSocket} (p : NntpServerPool) (k : SocketId)
    (hb : ∀ s,(f s).bytesRead=s.bytesRead)
    (hd : ((p.sockets k).failed=true → (p.sockets k).state = .disconnected) →
      (f (p.sockets k)).failed=true → (f (p.sockets k)).state = .disconnected) :
    Steady p (p.mapSocket k f) := by
  have hbytes : ∀ k',((p.mapSocket k f).sockets k').bytesRead=(p.sockets k').bytesRead := by
    intro k'
    by_cases he : k'=k
    · subst he
      simp only [mapSocket,Function.update_self,hb]
    · simp only [mapSocket,Function.update_of_ne he]
  refine ⟨fun h => ⟨h.nodup,h.lt,fun k' hk' => ?_,fun k' hk' => ?_⟩,fun k' => Iff.rfl,hbytes⟩
  · by_cases he : k'=k
    · subst he
      simp only [mapSocket,Function.update_self] at hk' ⊢
      exact hd (h.dead k') hk'
    · simp only [mapSocket,Function.update_of_ne he] at hk' ⊢
      exact h.dead _ hk'
  · rw [hbytes]
    exact h.unread k' hk'

theorem mapSocket_frame {f : NntpSocket → NntpSocket} (p : NntpServerPool) (k : SocketId)
    (hb : ∀ s,(f s).bytesRead=s.bytesRead) (hf : ∀ s,(f s).failed=s.failed)
    (hd : ((p.sockets k).failed=true → (p.sockets k).state = .disconnected) →
      (f (p.sockets k)).failed=true → (f (p.sockets k)).state = .disconnected) :
    Frame p (p.mapSocket k f) := by
  have hs := mapSocket_steady p k hb hd
  refine ⟨hs.wf,hs.inUse,hs.bytesRead,fun k' => ?_,rfl⟩
  by_cases he : k'=k
  · subst he
    simp only [mapSocket,Function.update_self,hf]
  · simp only [mapSocket,Function.update_of_ne he]

theorem release_frame (p : NntpServerPool) (k : SocketId) (reusable : Bool) (h : p.Wf) :
    (p.release k reusable).Wf ∧
      (∀ k',(p.release k reusable).InUse k' ↔ k'≠k ∧ p.InUse k') ∧
      (∀ k',((p.release k reusable).sockets k').bytesRead=(p.sockets k').bytesRead) ∧
      (∀ k',((p.release k reusable).sockets k').failed=(p.sockets k').failed) ∧
      (p.release k reusable).nextSocket=p.nextSocket := by
  unfold release
  cases hl : p.lease? k with
  | none =>
    refine ⟨h,fun k' => ⟨fun hk' => ⟨?_,hk'⟩,And.right⟩,fun _ => rfl,fun _ => rfl,rfl⟩
    rintro rfl
    obtain ⟨l,hm,hs,-⟩ := hk'
    have hno := List.find?_eq_none.mp hl l hm
    simp [hs] at hno
  | some l =>
    have hm : l∈p.connections := List.mem_of_find?_eq_some hl
    have hlk : l.socket=k := by simpa using List.find?_some hl
    dsimp only
    split_ifs with hr
    · refine ⟨setInUse_wf h rfl rfl rfl,fun k' => ?_,fun _ => rfl,fun _ => rfl,rfl⟩
      rw [inUse_setInUse ⟨l,hm,hlk⟩ rfl k']
      split_ifs with he <;> simp [he]
    · refine ⟨⟨?_,?_,retire_dead _ h.dead,retire_unread _ h.unread⟩,fun k' => ?_,
        retire_bytesRead _,retire_failed _,rfl⟩
      · exact h.nodup.sublist (List.filter_sublist.map _)
      · exact fun l' hl' => h.lt l' (List.mem_of_mem_filter hl')
      · simp only [InUse,List.mem_filter,decide_eq_true_eq]
        constructor
        · rintro ⟨l',⟨hl',hne⟩,rfl,hu⟩
          exact ⟨hne,l',hl',rfl,hu⟩
        · rintro ⟨hne,l',hl',rfl,hu⟩
          exact ⟨l',⟨hl',hne⟩,rfl,hu⟩

theorem reuse_leased {l : Lease} {rotation : List (Int × Nat)} (h : p.Wf)
    (hl : p.idleLease? key=some l) (fails : Bool) :
    Leased p { p.reuse l.socket with rotation := rotation } l.socket fails := by
  have hm : l∈p.connections := List.mem_of_find?_eq_some hl
  have hp := List.find?_some hl
  simp only [Bool.and_eq_true,Bool.not_eq_true',decide_eq_true_eq] at hp
  have hready : (p.sockets l.socket).state = .ready := by simpa [NntpSocket.isReady] using hp.2
  refine ⟨setInUse_wf h rfl rfl rfl,?_,fun k' => ?_,fun _ => rfl,fun _ _ => rfl,fun _ => ?_⟩
  · rintro ⟨l',hl',he,hu⟩
    rw [socket_inj h hl' hm he] at hu
    rw [hp.1.1] at hu
    cases hu
  · rw [inUse_setInUse ⟨l,hm,rfl⟩ rfl k']
    split_ifs with he <;> simp [he]
  · show (p.sockets l.socket).failed=false
    by_contra hf
    have hdead := h.dead l.socket (by simpa using hf)
    rw [hready] at hdead
    cases hdead

theorem openNew_leased {server : NewsServer} {bucket : QString} {rotation : List (Int × Nat)}
    (h : p.Wf) (fails : Bool) :
    Leased p { p.openNew server bucket level fails with rotation := rotation } p.nextSocket
      fails := by
  have hfree : ¬ p.InUse p.nextSocket := by
    rintro ⟨l,hl,he,-⟩
    exact absurd he (Nat.ne_of_lt (h.lt l hl))
  have hnew : (NntpSocket.connectToServer server fails).bytesRead=0 := by
    cases fails <;> rfl
  have hbytes : ∀ k,(Function.update p.sockets p.nextSocket
      (NntpSocket.connectToServer server fails) k).bytesRead=(p.sockets k).bytesRead := by
    intro k
    by_cases he : k=p.nextSocket
    · subst he
      rw [Function.update_self,hnew,h.unread p.nextSocket (Nat.le_refl _)]
    · rw [Function.update_of_ne he]
  refine ⟨⟨?_,?_,?_,fun k hk => ?_⟩,hfree,fun k' => ?_,hbytes,fun k' hk' => ?_,?_⟩
  · show ((p.connections++[_]).map Lease.socket).Nodup
    rw [List.map_append,List.nodup_append]
    refine ⟨h.nodup,by simp,?_⟩
    intro a ha b hb
    obtain ⟨l,hl,rfl⟩ := List.mem_map.mp ha
    simp only [List.map_cons,List.map_nil,List.mem_singleton] at hb
    rw [hb]
    exact Nat.ne_of_lt (h.lt l hl)
  · intro l hl
    rcases List.mem_append.mp hl with hl | hl
    · exact Nat.lt_succ_of_lt (h.lt l hl)
    · rw [List.mem_singleton.mp hl]
      exact Nat.lt_succ_self _
  · intro k hk
    simp only [openNew,Function.update_apply] at hk ⊢
    split_ifs at hk ⊢ with he
    · unfold NntpSocket.connectToServer at hk ⊢
      cases fails with
      | true => rfl
      | false => cases hk
    · exact h.dead k hk
  · exact (hbytes k).trans (h.unread k (Nat.le_of_succ_le hk))
  · simp only [InUse,openNew,List.mem_append,List.mem_singleton]
    constructor
    · rintro ⟨l,hl | rfl,rfl,hu⟩
      · exact .inr ⟨l,hl,rfl,hu⟩
      · exact .inl rfl
    · rintro (rfl | ⟨l,hl,hk,hu⟩)
      · exact ⟨_,.inr rfl,rfl,rfl⟩
      · exact ⟨l,.inl hl,hk,hu⟩
  · exact congrArg NntpSocket.failed (Function.update_of_ne hk' _ _)
  · rintro rfl
    show (Function.update p.sockets p.nextSocket _ p.nextSocket).failed=false
    rw [Function.update_self]
    rfl

theorem acquireFrom_spec (h : p.Wf) (fails : Bool) (candidates : List NewsServer) (start : Nat)
    (is : List Nat) :
    p.acquireFrom now level fails candidates start is=(p, none) ∨
      ∃ p' k, p.acquireFrom now level fails candidates start is=(p', some k) ∧
        Leased p p' k fails := by
  induction is with
  | nil => exact .inl rfl
  | cons i is ih =>
    rw [acquireFrom]
    dsimp only
    split
    · next l hl => exact .inr ⟨_,_,rfl,reuse_leased h hl fails⟩
    · split_ifs
      · exact ih
      · exact .inr ⟨_,_,rfl,openNew_leased h fails⟩

theorem acquire_spec (now level : Int) (h : p.Wf) (ignoreServers : List QString) (fails : Bool) :
    ∃ q, Frame p q ∧ (p.acquire now level ignoreServers fails=(q, none) ∨
      ∃ p' k, p.acquire now level ignoreServers fails=(p', some k) ∧ Leased q p' k fails) := by
  refine ⟨p.dropClosedIdle,dropClosedIdle_frame p,?_⟩
  unfold acquire
  dsimp only
  split_ifs
  · exact .inl rfl
  · exact acquireFrom_spec ((dropClosedIdle_frame p).wf h) _ _ _ _

end EmuleQt.Usenet.NntpServerPool
