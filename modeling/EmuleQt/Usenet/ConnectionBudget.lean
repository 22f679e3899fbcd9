import EmuleQt.Math.EvenSplit
import EmuleQt.Usenet.NntpServerPool

namespace EmuleQt.Usenet

open Framework Math Utils Utils.QString

/-- `applyServers`: a row that allows no connections is ignored. -/
def applyServers (servers : List NewsServer) : List NewsServer :=
  servers.filter fun s => !(s.usable && decide (s.maxConnections ≤ 0))

/-- The limit of each bucket. -/
def distinctLimits (buckets : List (QString × NntpConnectionBucket))
    (limitOf : NntpConnectionBucket → Int) : List (QString × Int) :=
  buckets.foldl (fun (h : List (QString × Int)) b => hashInsert b.2.id (limitOf b.2) h) []

def sumLimits (limits : List (QString × Int)) : Int := (limits.map fun e => max 0 e.2).sum

def totalConnections (servers : List NewsServer) : Int :=
  sumLimits (distinctLimits (nntpConnectionBuckets servers) NntpConnectionBucket.limit)

def NntpServerPool.capacity (p : NntpServerPool) (now : Int) : Int :=
  sumLimits (distinctLimits p.buckets (p.effectiveLimit now))

/-- Every row, with its part of the connections. -/
def slice (workerCount i : Nat) (servers : List NewsServer) : List NewsServer :=
  servers.map fun s => { s with maxConnections := share workerCount i s.maxConnections }

/-- The accounts a worker can lease on. -/
def heldServers (ladder : List Int) (slice : List NewsServer) : List QString :=
  (slice.filter fun s => s.usable &&
    decide (0<((hashValue? s.key (nntpConnectionBuckets slice)).getD ⟨[],0⟩).limit) &&
    ladder.contains s.level).map NewsServer.key

/-- What the queue knows of its accounts and of what each worker holds of them. -/
structure ServerPlan where
  servers : List NewsServer
  ladder : List Int
  workerServers : List (List QString)

/-- `applyServers`, then `startWorkers`. -/
def startWorkers (workerCount : Nat) (servers : List NewsServer) : ServerPlan :=
  let servers := applyServers servers
  let ladder := nntpLevelLadder servers
  { servers, ladder
    workerServers := (List.range workerCount).map fun i =>
      heldServers ladder (slice workerCount i servers) }

def workerCanServe (q : ServerPlan) (w rung : Int) (ignore : List QString) : Bool :=
  if w < 0 ∨ w ≥ q.workerServers.length then true
  else if rung < 0 ∨ rung ≥ q.ladder.length then false
  else
    let held := q.workerServers.getD w.toNat []
    let userLevel := q.ladder.getD rung.toNat 0
    q.servers.any fun s => s.usable && decide (s.level = userLevel) && held.contains s.key &&
      !ignore.contains s.key

section Hash

variable {α β κ : Type*}

/-- The values of a hash are changed. -/
def mapValues (f : α → β) (h : List (κ × α)) : List (κ × β) := h.map fun e => (e.1, f e.2)

theorem foldl_mapValues {γ : Type*} {f : α → β} {fill : List (κ × α) → γ → List (κ × α)}
    {fill' : List (κ × β) → γ → List (κ × β)} (xs : List γ)
    (h : ∀ hash x,fill' (mapValues f hash) x=mapValues f (fill hash x)) :
    xs.foldl fill' []=mapValues f (xs.foldl fill []) :=
  @List.foldl_hom _ _ _ (mapValues f) fill fill' xs [] h

variable [DecidableEq κ]

theorem mapValues_insert (f : α → β) (k : κ) (v : α) (h : List (κ × α)) :
    mapValues f (hashInsert k v h)=hashInsert k (f v) (mapValues f h) := by
  unfold hashInsert mapValues
  induction h with
  | nil => rfl
  | cons e h ih =>
    rw [upsert,List.map_cons,upsert]
    split_ifs with hkey
    · rfl
    · rw [List.map_cons,ih]

theorem hashValue?_mapValues (f : α → β) (k : κ) (h : List (κ × α)) :
    hashValue? k (mapValues f h)=(hashValue? k h).map f := by
  unfold hashValue? mapValues
  induction h with
  | nil => rfl
  | cons e h ih =>
    rw [List.map_cons,lookupKey_cons,lookupKey_cons]
    split_ifs with hkey
    · rfl
    · exact ih

end Hash

section Slices

variable {workerCount : Nat} (i : Nat) (servers : List NewsServer)

theorem slice_ladder : nntpLevelLadder (slice workerCount i servers)=nntpLevelLadder servers := by
  unfold nntpLevelLadder slice
  rw [List.filter_map,List.map_map]
  rfl

theorem slice_groupLimits (hcount : 0<workerCount) :
    groupLimits (slice workerCount i servers) =
      mapValues (share workerCount i) (groupLimits servers) := by
  unfold groupLimits slice
  rw [List.foldl_map]
  refine foldl_mapValues _ ?_
  intro limits s
  change (if s.usable=false ∨ s.group≤0 then _ else _)=_
  split_ifs with hskip
  · rfl
  · dsimp only
    rw [mapValues_insert,hashValue?_mapValues]
    cases hashValue? s.group limits with
    | none => rfl
    | some l =>
      dsimp only [Option.map_some]
      rw [share_min hcount]

/-- A bucket with the part of its limit. -/
def NntpConnectionBucket.shared (workerCount i : Nat) (b : NntpConnectionBucket) :
    NntpConnectionBucket := ⟨b.id, share workerCount i b.limit⟩

theorem slice_buckets (hcount : 0<workerCount) :
    nntpConnectionBuckets (slice workerCount i servers) =
      mapValues (NntpConnectionBucket.shared workerCount i) (nntpConnectionBuckets servers) := by
  unfold nntpConnectionBuckets
  rw [slice_groupLimits i servers hcount]
  generalize groupLimits servers=limits
  unfold slice
  rw [List.foldl_map]
  refine foldl_mapValues _ ?_
  intro out s
  change (if s.usable=false then _ else if s.group>0 then _ else _)=_
  split_ifs with hskip hgroup
  · rfl
  · rw [mapValues_insert,hashValue?_mapValues]
    cases hashValue? s.group limits with
    | none => simp [NntpConnectionBucket.shared]; rfl
    | some l => rfl
  · rw [mapValues_insert]
    rfl

theorem slice_distinctLimits (hcount : 0<workerCount) :
    distinctLimits (nntpConnectionBuckets (slice workerCount i servers))
        NntpConnectionBucket.limit =
      mapValues (share workerCount i)
        (distinctLimits (nntpConnectionBuckets servers) NntpConnectionBucket.limit) := by
  rw [slice_buckets i servers hcount]
  unfold distinctLimits
  rw [mapValues,List.foldl_map]
  refine foldl_mapValues _ ?_
  intro h b
  exact (mapValues_insert (share workerCount i) b.2.id b.2.limit h).symm

end Slices

section Limits

variable {servers : List NewsServer}

/-- All values of a hash. -/
def AllValues {α κ : Type*} (P : α → Prop) (h : List (κ × α)) : Prop := ∀ e∈h, P e.2

theorem foldl_allValues {α β κ : Type*} {P : α → Prop} (f : List (κ × α) → β → List (κ × α))
    (xs : List β) (h : List (κ × α)) (hh : AllValues P h)
    (hf : ∀ h,∀ x∈xs,AllValues P h → AllValues P (f h x)) : AllValues P (xs.foldl f h) := by
  induction xs generalizing h with
  | nil => exact hh
  | cons x xs ih =>
    exact ih (f h x) (hf h x List.mem_cons_self hh) fun h y hy => hf h y (List.mem_cons_of_mem x hy)

theorem allValues_insert {α κ : Type*} [DecidableEq κ] {P : α → Prop} {k : κ} {v : α}
    {h : List (κ × α)} (hv : P v) (hh : AllValues P h) : AllValues P (hashInsert k v h) := by
  intro e he
  obtain rfl | he := mem_hashInsert he
  · exact hv
  · exact hh e he

theorem applied_maxConnections {s : NewsServer} (hs : s∈applyServers servers)
    (husable : s.usable=true) : 0 ≤ s.maxConnections := by
  have hkept := (List.mem_filter.mp hs).2
  rw [husable] at hkept
  simp only [Bool.true_and,Bool.not_eq_true',decide_eq_false_iff_not] at hkept
  omega

theorem groupLimits_nonneg :
    AllValues (fun n : Int => 0≤n) (groupLimits (applyServers servers)) := by
  refine foldl_allValues _ _ _ (fun e he => absurd he List.not_mem_nil) ?_
  intro limits s hs hlimits
  split_ifs with hskip
  · exact hlimits
  · have hrow : 0 ≤ s.maxConnections :=
      applied_maxConnections hs (by simpa using (not_or.mp hskip).1)
    apply allValues_insert ?_ hlimits
    cases hfound : hashValue? s.group limits with
    | none => exact hrow
    | some l => exact le_min (hlimits _ (hashValue?_mem hfound)) hrow

theorem buckets_nonneg :
    AllValues (fun b : NntpConnectionBucket => 0≤b.limit)
      (nntpConnectionBuckets (applyServers servers)) := by
  refine foldl_allValues _ _ _ (fun e he => absurd he List.not_mem_nil) ?_
  intro out s hs hout
  split_ifs with hskip hgroup
  · exact hout
  · apply allValues_insert ?_ hout
    cases hfound : hashValue? s.group (groupLimits (applyServers servers)) with
    | none => exact Int.le_refl 0
    | some l => exact groupLimits_nonneg _ (hashValue?_mem hfound)
  · exact allValues_insert (applied_maxConnections hs (by simpa using hskip)) hout

end Limits

theorem slice_limit_sum {workerCount : Nat} (hcount : 0<workerCount) (servers : List NewsServer)
    {key : QString} {bucket : NntpConnectionBucket}
    (h : hashValue? key (nntpConnectionBuckets (applyServers servers))=some bucket) :
    ((List.range workerCount).map fun i => (hashValue? key
      (nntpConnectionBuckets (slice workerCount i (applyServers servers)))).elim 0
        NntpConnectionBucket.limit).sum=bucket.limit := by
  have hshare : ∀ i,(hashValue? key
      (nntpConnectionBuckets (slice workerCount i (applyServers servers)))).elim 0
        NntpConnectionBucket.limit=share workerCount i bucket.limit := by
    intro i
    rw [slice_buckets i _ hcount,hashValue?_mapValues,h]
    rfl
  rw [List.map_congr_left fun i _ => hshare i,share_sum hcount]
  exact max_eq_right (buckets_nonneg _ (hashValue?_mem h))

theorem slice_capacity_sum {workerCount : Nat} (hcount : 0<workerCount)
    (servers : List NewsServer) :
    ((List.range workerCount).map fun i =>
      totalConnections (slice workerCount i servers)).sum=totalConnections servers := by
  unfold totalConnections sumLimits
  generalize hlimits : distinctLimits (nntpConnectionBuckets servers)
    NntpConnectionBucket.limit=limits
  have hslice : ∀ i,(distinctLimits (nntpConnectionBuckets (slice workerCount i servers))
      NntpConnectionBucket.limit).map (fun e => max 0 e.2) =
        limits.map fun e => share workerCount i e.2 := by
    intro i
    rw [slice_distinctLimits i _ hcount,hlimits,mapValues,List.map_map]
    apply List.map_congr_left
    intro e _
    exact max_eq_right share_nonneg
  rw [List.map_congr_left fun i _ => congrArg List.sum (hslice i),sum_sum_comm]
  exact congrArg List.sum (List.map_congr_left fun e _ => share_sum hcount e.2)

theorem mem_heldServers {workerCount i : Nat} (hcount : 0<workerCount)
    {servers : List NewsServer} {s : NewsServer} (hs : s∈servers) (husable : s.usable=true)
    {bucket : NntpConnectionBucket}
    (hbucket : hashValue? s.key (nntpConnectionBuckets servers)=some bucket)
    (hpos : 0<share workerCount i bucket.limit) :
    s.key∈heldServers (nntpLevelLadder servers) (slice workerCount i servers) := by
  let part : NewsServer := { s with maxConnections := share workerCount i s.maxConnections }
  have hkey : part.key=s.key := rfl
  have hpart : part.usable=true := husable
  have hlevel : s.level∈nntpLevelLadder servers := by
    unfold nntpLevelLadder
    rw [List.mem_insertionSort,List.mem_dedup]
    exact List.mem_map_of_mem (List.mem_filter.mpr ⟨hs,husable⟩)
  have hlimit : 0<((hashValue? part.key
      (nntpConnectionBuckets (slice workerCount i servers))).getD ⟨[],0⟩).limit := by
    rw [slice_buckets i _ hcount,hashValue?_mapValues,hkey,hbucket]
    exact hpos
  refine List.mem_map.mpr ⟨part,List.mem_filter.mpr ⟨List.mem_map_of_mem hs,?_⟩,hkey⟩
  rw [hpart,decide_eq_true hlimit]
  exact List.contains_iff_mem.mpr hlevel

/-- The slices have the ladder of the queue, share every bucket's limit and the total out exactly,
and wherever an account with budget may be asked, some worker can ask it. -/
theorem startWorkers_shares (workerCount : Nat) (hcount : 0 < workerCount)
    (servers : List NewsServer) :
    let q := startWorkers workerCount servers
    let part := fun i => slice workerCount i q.servers
    (∀ i,nntpLevelLadder (part i)=q.ladder) ∧
    (∀ key bucket,hashValue? key (nntpConnectionBuckets q.servers)=some bucket →
      ((List.range workerCount).map fun i =>
        (hashValue? key (nntpConnectionBuckets (part i))).elim 0
          NntpConnectionBucket.limit).sum=bucket.limit) ∧
    (∀ (pool : Nat → NntpServerPool) (now : Int),
      ((List.range workerCount).map fun i => ((pool i).setServers (part i)).capacity now).sum =
        totalConnections q.servers) ∧
    ∀ (rung : Nat) (ignore : List QString) (s : NewsServer) (bucket : NntpConnectionBucket),
      s∈q.servers → s.usable=true → q.ladder[rung]? = some s.level → s.key∉ignore →
      hashValue? s.key (nntpConnectionBuckets q.servers)=some bucket → 0<bucket.limit →
      ∃ w<workerCount, workerCanServe q w rung ignore=true := by
  intro q part
  refine ⟨fun i => slice_ladder i q.servers,?_,?_,?_⟩
  · intro key bucket hbucket
    exact slice_limit_sum hcount servers hbucket
  · intro pool now
    exact slice_capacity_sum hcount q.servers
  · intro rung ignore s bucket hs husable hrung hignore hbucket hlimit
    obtain ⟨i,hi,hpos⟩ := exists_share_pos hcount hlimit
    have hheld := mem_heldServers hcount hs husable hbucket hpos
    obtain ⟨hrungs,hlevel⟩ := List.getElem?_eq_some_iff.mp hrung
    have hlength : q.workerServers.length=workerCount := by
      simp [q,startWorkers]
    have hworker : q.workerServers.getD i [] =
        heldServers q.ladder (slice workerCount i q.servers) := by
      simp [q,startWorkers,hi]
    refine ⟨i,hi,?_⟩
    unfold workerCanServe
    rw [if_neg (by omega),if_neg (by omega)]
    refine List.any_eq_true.mpr ⟨s,hs,?_⟩
    have huser : s.level=q.ladder.getD (rung : Int).toNat 0 := by
      rw [Int.toNat_natCast,List.getD_eq_getElem?_getD,hrung]
      rfl
    have hcan : (q.workerServers.getD (i : Int).toNat []).contains s.key=true := by
      rw [Int.toNat_natCast,hworker]
      exact List.contains_iff_mem.mpr hheld
    have hasked : ignore.contains s.key=false := by
      simpa using hignore
    rw [husable,decide_eq_true huser,hcan,hasked]
    rfl

/-- One account of three connections that is reached by two names. -/
def twoNames : List NewsServer :=
  [{ noServer with host := lit "a", group := 1, maxConnections := 3 },
    { noServer with host := lit "b", group := 1, maxConnections := 5 }]

theorem startWorkers_shares_two :
    0 < 2 ∧ nntpLevelLadder (slice 2 1 (startWorkers 2 twoNames).servers) =
        (startWorkers 2 twoNames).ladder ∧
      ((List.range 2).map fun i => (NntpServerPool.empty.setServers
        (slice 2 i (startWorkers 2 twoNames).servers)).capacity 0).sum =
          totalConnections (startWorkers 2 twoNames).servers := by
  have hcount : 0<2 := by decide
  have hshares := startWorkers_shares 2 hcount twoNames
  exact ⟨hcount,hshares.1 1,hshares.2.2.1 (fun _ => .empty) 0⟩

end EmuleQt.Usenet
