import EmuleQt.Client.DeadSourceKey
import EmuleQt.Framework.Run

namespace EmuleQt.Client

open Crypto Framework Net Protocol
open DeadSourceKey

/-- In the nanoseconds of the steady clock. -/
def minutes (n : Int) : Int := n * 60000000000

def kCleanupInterval : Int := minutes 60
def kBlockTimeGlobal : Int := minutes 15
def kBlockTimeLocal : Int := minutes 45
def kBlockTimeFwGlobal : Int := minutes 30
def kBlockTimeFwLocal : Int := minutes 45

/-- The sources with the times their blocks end at. -/
structure DeadSourceList where
  sources : List (DeadSourceKey × Int)
  lastCleanUp : Int
  globalList : Bool

namespace DeadSourceList

def init (globalList : Bool) (now : Int) : DeadSourceList := ⟨[], now, globalList⟩

def blockTime (globalList lowID : Bool) : Int :=
  if lowID then if globalList then kBlockTimeFwGlobal else kBlockTimeFwLocal
  else if globalList then kBlockTimeGlobal else kBlockTimeLocal

def cleanUp (now : Int) (l : DeadSourceList) : DeadSourceList :=
  { l with lastCleanUp := now, sources := l.sources.filter fun e => decide (now < e.2) }

variable (H : Hashing DeadSourceKey Int)

def addDeadSource (key : DeadSourceKey) (lowID : Bool) (now cleanUpNow : Int)
    (l : DeadSourceList) : DeadSourceList :=
  let added := { l with sources := H.set key (now + blockTime l.globalList lowID) l.sources }
  if l.lastCleanUp + kCleanupInterval ≤ now then added.cleanUp cleanUpNow else added

def removeDeadSource (key : DeadSourceKey) (l : DeadSourceList) : DeadSourceList :=
  { l with sources := H.erase key l.sources }

def isDeadSource (key : DeadSourceKey) (now : Int) (l : DeadSourceList) : Bool :=
  match H.find key l.sources with
  | none => false
  | some e => decide (now < e.2)

/-- The calls, with what the clock says in them. -/
inductive DeadSourceCall
  | add (key : DeadSourceKey) (lowID : Bool) (now cleanUpNow : Int)
  | remove (key : DeadSourceKey)

def DeadSourceCall.key : DeadSourceCall → DeadSourceKey
  | .add key _ _ _ => key
  | .remove key => key

def step (l : DeadSourceList) : DeadSourceCall → DeadSourceList
  | .add key lowID now cleanUpNow => l.addDeadSource H key lowID now cleanUpNow
  | .remove key => l.removeDeadSource H key

variable {H} {K : Set DeadSourceKey} {l : DeadSourceList} {k k' : DeadSourceKey} {stop : Int}

def blockedUntil (H : Hashing DeadSourceKey Int) (k : DeadSourceKey) (l : DeadSourceList) :
    Option Int := H.value k l.sources

theorem isDeadSource_eq (h : H.LawfulOn K) (hl : H.Keyed K l.sources) (hk : k∈K) (now : Int) :
    l.isDeadSource H k now=(l.blockedUntil H k).any fun stop => decide (now<stop) := by
  unfold isDeadSource blockedUntil
  rw [← h.find_eq hl hk]
  cases H.find k l.sources <;> rfl

theorem step_keyed (h : H.LawfulOn K) (hl : H.Keyed K l.sources) (c : DeadSourceCall)
    (hc : c.key∈K) : H.Keyed K (l.step H c).sources := by
  cases c with
  | add key lowID now cleanUpNow =>
    have hset := h.set_keyed (v := now+blockTime l.globalList lowID) hl hc
    unfold step addDeadSource
    dsimp only
    split_ifs
    · exact hset.sublist List.filter_sublist
    · exact hset
  | remove key => exact hl.sublist (List.eraseP_sublist)

theorem step_globalList (l : DeadSourceList) (c : DeadSourceCall) :
    (l.step H c).globalList=l.globalList := by
  cases c with
  | add key lowID now cleanUpNow =>
    unfold step addDeadSource
    dsimp only
    split_ifs <;> rfl
  | remove key => rfl

theorem blockedUntil_add (h : H.LawfulOn K) (hl : H.Keyed K l.sources) (hk : k∈K) (hk' : k'∈K)
    {lowID : Bool} {now cleanUpNow : Int}
    (hstop : (if H.same k' k=true then some (now+blockTime l.globalList lowID)
      else l.blockedUntil H k')=some stop) (hclean : cleanUpNow<stop) :
    (l.addDeadSource H k lowID now cleanUpNow).blockedUntil H k'=some stop := by
  have hset : H.value k' (H.set k (now+blockTime l.globalList lowID) l.sources)=some stop :=
    (h.value_set hl hk hk').trans hstop
  unfold addDeadSource
  split_ifs
  · have hkeyed := h.set_keyed (v := now+blockTime l.globalList lowID) hl hk
    have hfilter := h.value_filter hkeyed hk' fun e => decide (cleanUpNow<e)
    rw [hset,Option.filter_some,if_pos (decide_eq_true hclean)] at hfilter
    exact hfilter
  · exact hset

/-- A call that takes no block of the key away or ends it earlier, by a clock that has not come
to `now` yet. -/
def Keeps (H : Hashing DeadSourceKey Int) (globalList : Bool) (k : DeadSourceKey) (stop now : Int) :
    DeadSourceCall → Prop
  | .add key lowID addNow cleanUpNow => cleanUpNow ≤ now ∧
      (H.same k key = true → stop ≤ addNow + blockTime globalList lowID)
  | .remove key => H.same k key = false

/-- The block of a key lasts. -/
structure Blocked (H : Hashing DeadSourceKey Int) (K : Set DeadSourceKey) (globalList : Bool)
    (k : DeadSourceKey) (stop : Int) (l : DeadSourceList) : Prop where
  keyed : H.Keyed K l.sources
  list : l.globalList = globalList
  until_stop : ∃ stop', l.blockedUntil H k = some stop' ∧ stop ≤ stop'

theorem step_blocked (h : H.LawfulOn K) {globalList : Bool} {now : Int} (hk : k∈K)
    (hnow : now<stop) (hl : Blocked H K globalList k stop l) (c : DeadSourceCall)
    (hc : c.key∈K ∧ Keeps H globalList k stop now c) :
    Blocked H K globalList k stop (l.step H c) := by
  obtain ⟨hkeyed,hlist,stop',huntil,hle⟩ := hl
  obtain ⟨hcK,hkeeps⟩ := hc
  refine ⟨step_keyed h hkeyed c hcK,(step_globalList l c).trans hlist,?_⟩
  cases c with
  | add key lowID addNow cleanUpNow =>
    obtain ⟨hclean,hend⟩ := hkeeps
    change key∈K at hcK
    by_cases hsame : H.same k key=true
    · have hlate := hend hsame
      refine ⟨addNow+blockTime globalList lowID,?_,hlate⟩
      apply blockedUntil_add h hkeyed hcK hk
      · rw [if_pos hsame,hlist]
      · omega
    · refine ⟨stop',?_,hle⟩
      apply blockedUntil_add h hkeyed hcK hk
      · rw [if_neg hsame,huntil]
      · omega
  | remove key =>
    refine ⟨stop',?_,hle⟩
    change key∈K at hcK
    have herase := h.value_erase hkeyed hcK hk
    rw [show H.same k key=false from hkeeps,if_neg Bool.false_ne_true] at herase
    exact herase.trans huntil

theorem run_keyed (h : H.LawfulOn K) (hl : H.Keyed K l.sources) {calls : List DeadSourceCall}
    (hcalls : ∀ c∈calls,c.key∈K) : H.Keyed K (run (step H) l calls).sources :=
  @run_invariant _ _ (step H) (fun _ c => c.key∈K) (fun l => H.Keyed K l.sources)
    (fun _ c hl hc => step_keyed h hl c hc) _ _ hl (along_of_forall _ hcalls)

theorem run_globalList (l : DeadSourceList) (calls : List DeadSourceCall) :
    (run (step H) l calls).globalList=l.globalList := by
  induction calls generalizing l with
  | nil => rfl
  | cons c calls ih => rw [run_cons,ih,step_globalList]

theorem isDeadSource_after_add (h : H.LawfulOn K) (hl : H.Keyed K l.sources) {a : DeadSourceKey}
    (ha : a∈K) (hk : k∈K) (hsame : H.same k a=true) {lowID : Bool}
    {addNow cleanUpNow now : Int} {after : List DeadSourceCall} (hclean : cleanUpNow≤now)
    (hnow : now<addNow+blockTime l.globalList lowID) (hafter : ∀ c∈after,c.key∈K ∧
      Keeps H l.globalList k (addNow+blockTime l.globalList lowID) now c) :
    (run (step H) (l.addDeadSource H a lowID addNow cleanUpNow) after).isDeadSource H k now =
      true := by
  have hstart : Blocked H K l.globalList k (addNow+blockTime l.globalList lowID)
      (l.addDeadSource H a lowID addNow cleanUpNow) := by
    refine ⟨step_keyed h hl (.add a lowID addNow cleanUpNow) ha,
      step_globalList l (.add a lowID addNow cleanUpNow),_,?_,le_refl _⟩
    apply blockedUntil_add h hl ha hk
    · exact if_pos hsame
    · omega
  have hend : Blocked H K l.globalList k (addNow+blockTime l.globalList lowID)
      (run (step H) (l.addDeadSource H a lowID addNow cleanUpNow) after) :=
    @run_invariant _ _ (step H) (fun _ c => c.key∈K ∧ Keeps H l.globalList k _ now c)
      (Blocked H K l.globalList k _) (fun _ c hl hc => step_blocked h hk hnow hl c hc) _ _ hstart
      (along_of_forall _ hafter)
  obtain ⟨hkeyed,-,stop',huntil,hle⟩ := hend
  rw [isDeadSource_eq h hkeyed hk,huntil]
  exact decide_eq_true (by omega)

theorem isDeadSource_after_remove (h : H.LawfulOn K) (hl : H.Keyed K l.sources) (hk : k∈K)
    (hk' : k'∈K) (hsame : H.same k' k=true) (now : Int) :
    (l.removeDeadSource H k).isDeadSource H k' now=false := by
  have hkeyed : H.Keyed K (l.removeDeadSource H k).sources := step_keyed h hl (.remove k) hk
  have herase : (l.removeDeadSource H k).blockedUntil H k'=none :=
    (h.value_erase hl hk hk').trans (if_pos hsame)
  rw [isDeadSource_eq h hkeyed hk',herase]
  rfl

/-- The keys of a low ID, with the same user hash, and those of a high ID. -/
def lowKey (userID : UInt32) : DeadSourceKey :=
  ⟨⟨List.replicate 16 1,List.length_replicate⟩,.none,.none,userID,0,0⟩

def highKey (port kadPort : UInt16) : DeadSourceKey :=
  ⟨Digest.zero 16,.none,.none,0x01020304,port,kadPort⟩

/-- Usable keys are equal and have two hashes, and the table loses the block; and keys that share
one port each with a third are not equal, and the block of the third covers one only. -/
theorem deadSources_forget :
    (Usable (lowKey 5) ∧ Usable (lowKey 6) ∧ Same (lowKey 5) (lowKey 6) ∧
      stdHash UInt32.toUInt64 (lowKey 5) ≠ stdHash UInt32.toUInt64 (lowKey 6) ∧
      ((init true 0).addDeadSource (hashing UInt32.toUInt64 fun _ => 13) (lowKey 5) true 0 0).isDeadSource
        (hashing UInt32.toUInt64 fun _ => 13) (lowKey 6) 1 = false) ∧
    (Usable (highKey 4662 4672) ∧ Usable (highKey 4662 5000) ∧ Usable (highKey 4700 5000) ∧
      Same (highKey 4662 4672) (highKey 4662 5000) ∧ Same (highKey 4662 5000) (highKey 4700 5000) ∧
      ¬ Same (highKey 4662 4672) (highKey 4700 5000) ∧
      (((init true 0).addDeadSource (hashing UInt32.toUInt64 fun _ => 13) (highKey 4662 4672) false
        0 0).addDeadSource (hashing UInt32.toUInt64 fun _ => 13) (highKey 4662 5000) false
          1 1).isDeadSource (hashing UInt32.toUInt64 fun _ => 13) (highKey 4700 5000) 2 = false) := by
  decide

/-- The table gets what it needs of the keys exactly where their identities do not get in each
other's way; and then blocks last as long as they should, for every key that is equal. -/
theorem deadSources_kept (hash32 : UInt32 → UInt64)
    (buckets : List (DeadSourceKey × Int) → Nat) {K : Set DeadSourceKey}
    (hK : ∀ k ∈ K, Usable k) :
    ((hashing hash32 buckets).LawfulOn K ↔ Coherent hash32 K) ∧
    (Coherent hash32 K → ∀ (globalList : Bool) (start : Int) (before : List DeadSourceCall),
      (∀ c ∈ before, c.key ∈ K) → ∀ a ∈ K, ∀ k ∈ K, Same k a →
      (∀ lowID addNow cleanUpNow now after, cleanUpNow ≤ now →
        now < addNow + blockTime globalList lowID →
        (∀ c ∈ after, c.key ∈ K ∧ Keeps (hashing hash32 buckets) globalList k
          (addNow + blockTime globalList lowID) now c) →
        (run (step (hashing hash32 buckets)) (init globalList start)
          (before ++ .add a lowID addNow cleanUpNow :: after)).isDeadSource
            (hashing hash32 buckets) k now = true) ∧
      ∀ now, (run (step (hashing hash32 buckets)) (init globalList start)
        (before ++ [.remove a])).isDeadSource (hashing hash32 buckets) k now = false) := by
  refine ⟨⟨lawful_coherent,coherent_lawful hK⟩,?_⟩
  intro hcoherent globalList start before hbefore a ha k hk hsame
  have hlawful := @coherent_lawful _ _ _ buckets hK hcoherent
  have hkeyed := run_keyed hlawful (l := init globalList start) Hashing.keyed_nil hbefore
  have hlist : (run (step (hashing hash32 buckets)) (init globalList start) before).globalList =
      globalList := run_globalList _ _
  refine ⟨?_,?_⟩
  · intro lowID addNow cleanUpNow now after hclean hnow hafter
    rw [run_append,run_cons]
    apply isDeadSource_after_add hlawful hkeyed ha hk (decide_eq_true hsame) hclean
    · rw [hlist]
      exact hnow
    · rw [hlist]
      exact hafter
  · intro now
    rw [run_append]
    exact isDeadSource_after_remove hlawful hkeyed ha hk (decide_eq_true hsame) now

theorem deadSources_kept_pair :
    (∀ k ∈ ({highKey 4662 4672, highKey 4662 5000} : Set DeadSourceKey), Usable k) ∧
      ((hashing UInt32.toUInt64 fun _ : List (DeadSourceKey × Int) => 13).LawfulOn
        {highKey 4662 4672, highKey 4662 5000} ↔
        Coherent UInt32.toUInt64 {highKey 4662 4672, highKey 4662 5000}) := by
  have husable : ∀ k∈({highKey 4662 4672, highKey 4662 5000} : Set DeadSourceKey), Usable k := by
    rintro k (rfl | rfl) <;> decide
  exact ⟨husable,(deadSources_kept UInt32.toUInt64 (fun _ => 13) husable).1⟩

end DeadSourceList

end EmuleQt.Client
