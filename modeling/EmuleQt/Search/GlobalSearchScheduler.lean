import Mathlib.Data.List.Count
import Mathlib.Data.List.Nodup
import Mathlib.Data.List.Range
import Mathlib.Data.Nat.ModEq

namespace EmuleQt.Search

/-- What the sweep reads of a server. -/
structure Server where
  serverId : UInt32
  failedCount : UInt32
  disabled : Bool

def Server.isDeadFor (srv : Server) (deadServerRetries : UInt32) : Bool :=
  srv.disabled || (decide (0 < deadServerRetries) && decide (deadServerRetries ≤ srv.failedCount))

/-- The servers in list order; a `Server *` into the list is a position in it. -/
structure ServerList where
  servers : List Server
  searchServerPos : Nat

namespace ServerList

variable (list : ServerList)

def serverCount : Nat := list.servers.length

/-- The position of the cursor once `nextSearchServer` has looked at it. -/
def searchStart : Nat := if list.serverCount≤list.searchServerPos then 0 else list.searchServerPos

def nextSearchServer : ServerList × Option Nat :=
  if list.serverCount = 0 then (list, none)
  else ({ list with searchServerPos := (list.searchStart + 1) % list.serverCount },
    some list.searchStart)

/-- Neither the connected server nor a dead one. -/
def worthAsking (connected : Option Server) (deadServerRetries : UInt32) (i : Nat) : Bool :=
  list.servers[i]?.any fun toask =>
    (connected.all fun c => decide (toask.serverId≠c.serverId)) &&
      !toask.isDeadFor deadServerRetries

end ServerList

open ServerList

variable (connected : Option Server) (deadServerRetries : UInt32)

/-- The loop of `nextGlobalSearchTarget`, `examined` being what its condition has counted to. -/
def examineFrom (list : ServerList) (examined : UInt32) : ServerList × UInt32 × Option Nat :=
  if examined<UInt32.ofNat list.serverCount then
    match list.nextSearchServer.2 with
    | none => (list.nextSearchServer.1, examined, none)
    | some i =>
      if list.worthAsking connected deadServerRetries i then
        (list.nextSearchServer.1, examined, some i)
      else examineFrom list.nextSearchServer.1 (examined+1)
  else (list, examined, none)
termination_by (UInt32.ofNat list.serverCount).toNat-examined.toNat
decreasing_by
  have hlt : examined.toNat<(UInt32.ofNat list.serverCount).toNat := by
    rw [← UInt32.lt_iff_toNat_lt]
    assumption
  have hsame : list.nextSearchServer.1.serverCount=list.serverCount := by
    unfold nextSearchServer
    split <;> rfl
  have hbound := (UInt32.ofNat list.serverCount).toNat_lt
  rw [hsame,UInt32.toNat_add]
  simp only [UInt32.toNat_one]
  omega

def nextGlobalSearchTarget (list : ServerList) (examined : UInt32) :
    ServerList × UInt32 × Option Nat :=
  examineFrom connected deadServerRetries list (examined + 1)

/-- The servers that call after call returns, until one returns null. -/
inductive Sweep : ServerList → UInt32 → List Nat → Prop
  | done {list list' examined examined'}
      (h : nextGlobalSearchTarget connected deadServerRetries list examined =
        (list', examined', none)) : Sweep list examined []
  | ask {list list' examined examined' i asked}
      (h : nextGlobalSearchTarget connected deadServerRetries list examined =
        (list', examined', some i))
      (rest : Sweep list' examined' asked) : Sweep list examined (i :: asked)

variable {connected deadServerRetries} {list list' : ServerList} {examined examined' : UInt32}
  {i j : Nat}

namespace ServerList

/-- The servers the next `k` moves of the cursor pass. -/
def passed (list : ServerList) : Nat → List Nat
  | 0 => []
  | k + 1 => list.searchStart :: passed list.nextSearchServer.1 k

@[simp] theorem nextSearchServer_servers (list : ServerList) :
    list.nextSearchServer.1.servers=list.servers := by
  unfold nextSearchServer
  split <;> rfl

@[simp] theorem nextSearchServer_serverCount (list : ServerList) :
    list.nextSearchServer.1.serverCount=list.serverCount := by
  rw [serverCount,nextSearchServer_servers,serverCount]

theorem worthAsking_congr (h : list'.servers=list.servers) :
    list'.worthAsking connected deadServerRetries=list.worthAsking connected deadServerRetries := by
  funext i
  rw [worthAsking,worthAsking,h]

theorem nextSearchServer_pos (h : 0<list.serverCount) : list.nextSearchServer =
    ({ list with searchServerPos := (list.searchStart+1)%list.serverCount },
      some list.searchStart) :=
  if_neg h.ne'

theorem searchStart_lt (h : 0<list.serverCount) : list.searchStart<list.serverCount := by
  unfold searchStart
  split <;> omega

theorem nextSearchServer_start (h : 0<list.serverCount) :
    list.nextSearchServer.1.searchStart=(list.searchStart+1)%list.serverCount := by
  have hlt := Nat.mod_lt (list.searchStart+1) h
  rw [nextSearchServer_pos h]
  exact if_neg (not_le.mpr hlt)

theorem passed_eq (h : 0<list.serverCount) (k : Nat) : list.passed k =
    (List.range k).map fun i => (list.searchStart+i)%list.serverCount := by
  induction k generalizing list with
  | zero => rfl
  | succ k ih =>
    have hnext : 0<list.nextSearchServer.1.serverCount := by
      rw [nextSearchServer_serverCount]
      exact h
    have hhead : (list.searchStart+0)%list.serverCount=list.searchStart :=
      Nat.mod_eq_of_lt (searchStart_lt h)
    rw [passed,ih hnext,List.range_succ_eq_map,List.map_cons,List.map_map,hhead,
      nextSearchServer_serverCount,nextSearchServer_start h]
    refine congrArg _ (List.map_congr_left fun i _ => ?_)
    rw [Nat.mod_add_mod,Function.comp_apply,Nat.succ_eq_add_one,Nat.add_assoc,Nat.add_comm 1]

end ServerList

/-- What is left of the pass when the loop's condition has counted to `examined`. -/
def remaining (list : ServerList) (examined : UInt32) : Nat :=
  (UInt32.ofNat list.serverCount).toNat - examined.toNat

theorem remaining_succ (h : examined<UInt32.ofNat list.serverCount) :
    remaining list examined=remaining list (examined+1)+1 := by
  have hlt := UInt32.lt_iff_toNat_lt.mp h
  have hbound := (UInt32.ofNat list.serverCount).toNat_lt
  rw [remaining,remaining,UInt32.toNat_add]
  simp only [UInt32.toNat_one]
  omega

theorem serverCount_pos (h : examined<UInt32.ofNat list.serverCount) : 0<list.serverCount := by
  refine Nat.pos_of_ne_zero fun hzero => ?_
  rw [hzero] at h
  exact absurd h (UInt32.not_lt_zero)

theorem passed_succ (h : examined<UInt32.ofNat list.serverCount) :
    list.passed (remaining list examined)=list.searchStart ::
      list.nextSearchServer.1.passed (remaining list.nextSearchServer.1 (examined+1)) := by
  rw [remaining_succ h,passed,remaining,remaining,nextSearchServer_serverCount]

theorem examineFrom_spec {r : Option Nat} (list : ServerList) (examined : UInt32)
    (h : examineFrom connected deadServerRetries list examined=(list', examined', r)) :
    list'.servers=list.servers ∧
    (list.passed (remaining list examined)).filter
        (list.worthAsking connected deadServerRetries) =
      r.toList++if r=none then [] else (list'.passed (remaining list' (examined'+1))).filter
        (list.worthAsking connected deadServerRetries) := by
  fun_induction examineFrom connected deadServerRetries list examined with
  | case1 list examined hlt hnone =>
    rw [nextSearchServer_pos (serverCount_pos hlt)] at hnone
    cases hnone
  | case2 list examined hlt i hi hworth =>
    obtain ⟨rfl,rfl,rfl⟩ : list.nextSearchServer.1=list' ∧ examined=examined' ∧ some i=r := by
      simpa only [Prod.mk.injEq] using h
    rw [nextSearchServer_pos (serverCount_pos hlt)] at hi
    obtain rfl := Option.some.inj hi
    refine ⟨nextSearchServer_servers list,?_⟩
    rw [passed_succ hlt,List.filter_cons_of_pos hworth,if_neg (Option.some_ne_none _)]
    rfl
  | case3 list examined hlt i hi hworth ih =>
    rw [nextSearchServer_pos (serverCount_pos hlt)] at hi
    obtain rfl := Option.some.inj hi
    obtain ⟨hservers,hfilter⟩ := ih h
    rw [worthAsking_congr (nextSearchServer_servers list)] at hfilter
    refine ⟨hservers.trans (nextSearchServer_servers list),?_⟩
    rw [passed_succ hlt,List.filter_cons_of_neg hworth,hfilter]
  | case4 list examined hge =>
    obtain ⟨rfl,rfl,rfl⟩ : list=list' ∧ examined=examined' ∧ none=r := by
      simpa only [Prod.mk.injEq] using h
    have hzero : remaining list examined=0 :=
      Nat.sub_eq_zero_of_le (not_lt.mp (fun hlt => hge (UInt32.lt_iff_toNat_lt.mpr hlt)))
    exact ⟨rfl,by rw [hzero]; rfl⟩

/-- The servers worth asking among those the pass has still to examine, in its order. -/
def targets (connected : Option Server) (deadServerRetries : UInt32) (list : ServerList)
    (examined : UInt32) : List Nat :=
  (list.passed (remaining list (examined + 1))).filter
    (list.worthAsking connected deadServerRetries)

theorem Sweep.eq_targets {asked : List Nat}
    (h : Sweep connected deadServerRetries list examined asked) :
    asked=targets connected deadServerRetries list examined := by
  induction h with
  | done h => exact (examineFrom_spec _ _ h).2.symm
  | ask h rest ih =>
    obtain ⟨hservers,hfilter⟩ := examineFrom_spec _ _ h
    rw [targets,worthAsking_congr hservers] at ih
    rw [targets,hfilter,ih]
    rfl

theorem sweep_targets (list : ServerList) (examined : UInt32) :
    Sweep connected deadServerRetries list examined
      (targets connected deadServerRetries list examined) := by
  generalize hk : (targets connected deadServerRetries list examined).length=k
  induction k generalizing list examined with
  | zero =>
    rcases h : nextGlobalSearchTarget connected deadServerRetries list examined with ⟨list',e,r⟩
    have hfilter := (examineFrom_spec _ _ h).2
    have hnil := List.length_eq_zero_iff.mp hk
    rw [hnil]
    cases r with
    | none => exact .done h
    | some i => exact absurd (hfilter.symm.trans hnil) (List.cons_ne_nil _ _)
  | succ k ih =>
    rcases h : nextGlobalSearchTarget connected deadServerRetries list examined with ⟨list',e,r⟩
    obtain ⟨hservers,hfilter⟩ := examineFrom_spec _ _ h
    cases r with
    | none =>
      have hnil : targets connected deadServerRetries list examined=[] := hfilter
      rw [hnil] at hk
      cases hk
    | some i =>
      have hcons : targets connected deadServerRetries list examined =
          i::targets connected deadServerRetries list' e := by
        rw [targets,targets,worthAsking_congr hservers]
        exact hfilter
      rw [hcons] at hk ⊢
      exact .ask h (ih list' e (Nat.succ.inj hk))

theorem sweep_iff {asked : List Nat} : Sweep connected deadServerRetries list examined asked ↔
    asked=targets connected deadServerRetries list examined :=
  ⟨Sweep.eq_targets,fun h => h ▸ sweep_targets list examined⟩

theorem passed_nodup {k : Nat} (h : k≤list.serverCount) : (list.passed k).Nodup := by
  rcases Nat.eq_zero_or_pos list.serverCount with hzero | hpos
  · obtain rfl : k=0 := by omega
    exact List.nodup_nil
  rw [passed_eq hpos]
  refine List.Nodup.map_on (fun i hi j hj heq => ?_) List.nodup_range
  have hi := List.mem_range.mp hi
  have hj := List.mem_range.mp hj
  have hmod := Nat.ModEq.add_left_cancel' list.searchStart heq
  exact hmod.eq_of_lt_of_lt (by omega) (by omega)

/-- A sweep asks, once each, the servers worth asking among all but the last of the rotation. -/
theorem sweep_correct (connected : Option Server) (deadServerRetries : UInt32)
    (list : ServerList) :
    ∃ asked, (∀ asked', Sweep connected deadServerRetries list 0 asked' ↔ asked' = asked) ∧
      asked.Nodup ∧ ∀ i, i ∈ asked ↔ list.worthAsking connected deadServerRetries i = true ∧
        ∃ k, k + 1 < list.serverCount % 2 ^ 32 ∧
          i = (list.searchStart + k) % list.serverCount := by
  have hleft : remaining list 1=list.serverCount%2^32-1 := by
    rw [remaining,UInt32.toNat_ofNat']
    rfl
  have hle : list.serverCount%2^32≤list.serverCount := Nat.mod_le _ _
  refine ⟨targets connected deadServerRetries list 0,fun _ => sweep_iff,
    (passed_nodup (by rw [UInt32.zero_add,hleft]; omega)).filter _,fun i => ?_⟩
  rw [targets,List.mem_filter,UInt32.zero_add,hleft,and_comm]
  refine and_congr_right fun _ => ?_
  rcases Nat.eq_zero_or_pos list.serverCount with hzero | hpos
  · rw [hzero]
    exact iff_of_false List.not_mem_nil fun ⟨k,hk,_⟩ => absurd hk (by omega)
  rw [passed_eq hpos]
  constructor
  · intro hi
    obtain ⟨k,hk,rfl⟩ := List.mem_map.mp hi
    have hk := List.mem_range.mp hk
    exact ⟨k,by omega,rfl⟩
  · rintro ⟨k,hk,rfl⟩
    exact List.mem_map_of_mem (List.mem_range.mpr (by omega))

/-- Two live servers and no connection: the second is never asked. -/
theorem not_sweep_all : ¬ ∀ connected deadServerRetries list asked,
    Sweep connected deadServerRetries list 0 asked → ∀ i, i < list.serverCount →
      list.worthAsking connected deadServerRetries i = true → i ∈ asked := by
  intro h
  have hmem := h none 3 ⟨[⟨1,0,false⟩,⟨2,0,false⟩],0⟩ _ (sweep_targets _ _) 1 (by decide)
    (by decide)
  exact absurd hmem (by decide)

end EmuleQt.Search
