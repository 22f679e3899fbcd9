import EmuleQt.Framework.AgedTable
import EmuleQt.Kademlia.Contact
import EmuleQt.Framework.Run

namespace EmuleQt.Kademlia

open Framework

def kMaxTrackedNodes : Nat := 10000
def kMaxProblematicNodes : Nat := 10000
def kMaxBannedIPs : Nat := 1000
def kMinIDChangeInterval : Int := 3600
def kMaxBanTime : Int := 24 * 3600
def kMaxProblematicTime : Int := 5 * 60
def kCleanupInterval : Int := 600
def kNodeMaxAge : Int := 3600
def kBanMaxAge : Int := 3600
def kProblemMaxAge : Int := 300
def KADEMLIA_VERSION8_49b : UInt8 := 8

namespace SafeKad

structure NodeAddress where
  ip : UInt32
  port : UInt16
  deriving DecidableEq

/-- The address first, then the port. -/
def NodeAddress.rank (n : NodeAddress) : Nat := n.ip.toNat * 2 ^ 16 + n.port.toNat

theorem NodeAddress.rank_injective : Function.Injective NodeAddress.rank := by
  intro a b h
  obtain ⟨ip,port⟩ := a
  obtain ⟨ip',port'⟩ := b
  simp only [rank] at h
  have hport := port.toNat_lt
  have hport' := port'.toNat_lt
  have hips : ip=ip' := UInt32.toNat_inj.mp (by omega)
  have hports : port=port' := UInt16.toNat_inj.mp (by omega)
  rw [hips,hports]

structure Tracked where
  lastID : KadUInt128
  lastIDChange : Int
  lastReferenced : Int
  idVerified : Bool
  node : NodeAddress
  deriving DecidableEq

structure Problematic where
  failed : Int
  lastReferenced : Int
  node : NodeAddress
  deriving DecidableEq

structure Banned where
  banned : Int
  lastReferenced : Int
  ip : UInt32
  deriving DecidableEq

def trackedAge : Aging NodeAddress Tracked :=
  ⟨Tracked.node,Tracked.lastReferenced,NodeAddress.rank,NodeAddress.rank_injective⟩

def problematicAge : Aging NodeAddress Problematic :=
  ⟨Problematic.node,Problematic.lastReferenced,NodeAddress.rank,NodeAddress.rank_injective⟩

def bannedAge : Aging UInt32 Banned :=
  ⟨Banned.ip,Banned.lastReferenced,UInt32.toNat,fun _ _ => UInt32.toNat_inj.mp⟩

/-- What a call finds outside the tables: whether they are in use, whether there is memory for a
record, and the readings of the clock in their order. -/
structure Env where
  disabled : Bool
  allocates : Bool
  clock : Nat → Int

/-- A call within the call, where `n` readings have been taken. -/
def Env.after (n : Nat) (env : Env) : Env := { env with clock := fun i => env.clock (n + i) }

end SafeKad

structure SafeKad where
  trackedNodes : AgedTable SafeKad.NodeAddress SafeKad.Tracked
  problematicNodes : AgedTable SafeKad.NodeAddress SafeKad.Problematic
  bannedIPs : AgedTable UInt32 SafeKad.Banned
  lastCleanup : Int

namespace SafeKad

def create (now : Int) : SafeKad := ⟨.empty, .empty, .empty, now⟩

def cleanup (now : Int) (s : SafeKad) : SafeKad where
  trackedNodes := s.trackedNodes.evict trackedAge kNodeMaxAge now
  problematicNodes := s.problematicNodes.evict problematicAge kProblemMaxAge now
  bannedIPs := s.bannedIPs.evict bannedAge kBanMaxAge now
  lastCleanup := now

def isBanned (env : Env) (ip : UInt32) (s : SafeKad) : Bool × SafeKad :=
  if env.disabled then (false, s)
  else
    match s.bannedIPs.find bannedAge ip with
    | none => (false, s)
    | some banned =>
      let now := env.clock 0
      if now - banned.banned > kMaxBanTime then
        (false, { s with bannedIPs := s.bannedIPs.drop bannedAge banned })
      else
        (true, { s with
          bannedIPs := s.bannedIPs.touch bannedAge banned { banned with lastReferenced := now } })

/-- The oldest ban makes way. -/
def evictOldestBan (s : SafeKad) : SafeKad :=
  match s.bannedIPs.index with
  | [] => s
  | oldest::_ =>
    match s.bannedIPs.find bannedAge oldest.2 with
    | none => s
    | some banned => { s with bannedIPs := s.bannedIPs.drop bannedAge banned }

def recordBan (now : Int) (banned : Banned) (s : SafeKad) : SafeKad :=
  { s with
    bannedIPs := s.bannedIPs.touch bannedAge banned
      { banned with banned := now, lastReferenced := now } }

def banIP (env : Env) (ip : UInt32) (s : SafeKad) : SafeKad :=
  if env.disabled then s
  else
    let now := env.clock 0
    match s.bannedIPs.find bannedAge ip with
    | some banned => s.recordBan now banned
    | none =>
      let s := if s.bannedIPs.nodes.length ≥ kMaxBannedIPs then s.cleanup (env.clock 1) else s
      let s := if s.bannedIPs.nodes.length ≥ kMaxBannedIPs then s.evictOldestBan else s
      if s.bannedIPs.nodes.length ≥ kMaxBannedIPs then s
      else if env.allocates then s.recordBan now ⟨0, 0, ip⟩
      else s

/-- The record takes the ID over, or the ID changed too soon and the address is banned. -/
def referTracked (env : Env) (now : Int) (ip : UInt32) (id : KadUInt128) (verified : Bool)
    (tracked : Tracked) (s : SafeKad) : SafeKad :=
  let refer (t : Tracked) : SafeKad :=
    { s with
      trackedNodes := s.trackedNodes.touch trackedAge tracked
        { t with lastReferenced := now, idVerified := t.idVerified || verified } }
  if id≠tracked.lastID ∧ ¬ (tracked.idVerified ∧ ¬ verified) then
    if now-tracked.lastIDChange<kMinIDChangeInterval ∧ verified then
      banIP env ip { s with trackedNodes := s.trackedNodes.drop trackedAge tracked }
    else refer { tracked with lastID := id, lastIDChange := now }
  else refer tracked

def trackNode (env : Env) (ip : UInt32) (port : UInt16) (id : KadUInt128) (verified : Bool)
    (s : SafeKad) : SafeKad :=
  if env.disabled then s
  else
    let (banned, s) := s.isBanned env ip
    if banned then s
    else
      let now := env.clock 1
      match s.trackedNodes.find trackedAge ⟨ip, port⟩ with
      | some tracked => s.referTracked (env.after 3) now ip id verified tracked
      | none =>
        let s := if s.trackedNodes.nodes.length ≥ kMaxTrackedNodes then s.cleanup (env.clock 2)
          else s
        if s.trackedNodes.nodes.length ≥ kMaxTrackedNodes then s
        else if env.allocates then
          s.referTracked (env.after 3) now ip id verified ⟨id, now, 0, verified, ⟨ip, port⟩⟩
        else s

def referProblematic (now : Int) (prob : Problematic) (s : SafeKad) : SafeKad :=
  { s with
    problematicNodes := s.problematicNodes.touch problematicAge prob
      { prob with lastReferenced := now } }

def trackProblematicNode (env : Env) (ip : UInt32) (port : UInt16) (s : SafeKad) : SafeKad :=
  if env.disabled then s
  else
    let (banned, s) := s.isBanned env ip
    if banned then s
    else
      let now := env.clock 1
      match s.problematicNodes.find problematicAge ⟨ip, port⟩ with
      | some prob => s.referProblematic now prob
      | none =>
        let s := if s.problematicNodes.nodes.length ≥ kMaxProblematicNodes then
            s.cleanup (env.clock 2)
          else s
        if s.problematicNodes.nodes.length ≥ kMaxProblematicNodes then s
        else if env.allocates then s.referProblematic now ⟨now, 0, ⟨ip, port⟩⟩
        else s

def isBadNode (env : Env) (ip : UInt32) (port : UInt16) (id : KadUInt128) (kadVersion : UInt8)
    (verified onePerIP : Bool) (s : SafeKad) : Bool × SafeKad :=
  if env.disabled then (false, s)
  else
    let now := env.clock 0
    let s := if now - s.lastCleanup > kCleanupInterval then s.cleanup (env.clock 1) else s
    let found := s.trackedNodes.find trackedAge ⟨ip, port⟩
    let (banned, s) := s.isBanned (env.after 2) ip
    if banned then
      match found with
      | some p => (true, { s with trackedNodes := s.trackedNodes.drop trackedAge p })
      | none => (true, s)
    else
      match found with
      | some tracked =>
        let s := { s with
          trackedNodes := s.trackedNodes.touch trackedAge tracked
            { tracked with lastReferenced := now } }
        if tracked.lastID ≠ id then
          if (tracked.idVerified ∨ kadVersion < KADEMLIA_VERSION8_49b) ∧ ¬ verified then (true, s)
          else
            let s := s.trackNode (env.after 3) ip port id verified
            s.isBanned (env.after 9) ip
        else (false, s)
      | none =>
        if onePerIP ∧ s.trackedNodes.nodes.any fun t => decide (t.node.ip = ip) then (true, s)
        else (false, s.trackNode (env.after 3) ip port id verified)

def isProblematic (env : Env) (ip : UInt32) (port : UInt16) (s : SafeKad) : Bool × SafeKad :=
  if env.disabled then (false, s)
  else
    match s.problematicNodes.find problematicAge ⟨ip, port⟩ with
    | none => s.isBanned (env.after 1) ip
    | some prob =>
      let now := env.clock 0
      if now - prob.failed > kMaxProblematicTime then
        isBanned (env.after 1) ip
          { s with problematicNodes := s.problematicNodes.drop problematicAge prob }
      else (true, s.referProblematic now prob)

def shutdownCleanup (env : Env) (_ : SafeKad) : SafeKad := create (env.clock 0)

inductive Op
  | trackNode (ip : UInt32) (port : UInt16) (id : KadUInt128) (verified : Bool)
  | trackProblematicNode (ip : UInt32) (port : UInt16)
  | banIP (ip : UInt32)
  | isBadNode (ip : UInt32) (port : UInt16) (id : KadUInt128) (kadVersion : UInt8)
      (verified onePerIP : Bool)
  | isBanned (ip : UInt32)
  | isProblematic (ip : UInt32) (port : UInt16)
  | shutdownCleanup

/-- One call from outside. -/
def step (s : SafeKad) (call : Env × Op) : SafeKad :=
  match call.2 with
  | .trackNode ip port id verified => s.trackNode call.1 ip port id verified
  | .trackProblematicNode ip port => s.trackProblematicNode call.1 ip port
  | .banIP ip => s.banIP call.1 ip
  | .isBadNode ip port id kadVersion verified onePerIP =>
    (s.isBadNode call.1 ip port id kadVersion verified onePerIP).2
  | .isBanned ip => (s.isBanned call.1 ip).2
  | .isProblematic ip port => (s.isProblematic call.1 ip port).2
  | .shutdownCleanup => s.shutdownCleanup call.1

end SafeKad

open Framework

namespace SafeKad

/-- A property of the table of problematic nodes that a call made in `env` cannot end. -/
structure Keeps (P : AgedTable NodeAddress Problematic → Prop) (env : Env) : Prop where
  evict : ∀ i t, t.Consistent problematicAge → P t →
    P (t.evict problematicAge kProblemMaxAge (env.clock i))
  refer : ∀ i t (prob : Problematic),
    (∀ r, t.find problematicAge prob.node = some r → r = prob) → P t →
    P (t.touch problematicAge prob { prob with lastReferenced := env.clock i })
  drop : ∀ i t (prob : Problematic), t.find problematicAge prob.node = some prob →
    env.clock i - prob.failed > kMaxProblematicTime → P t → P (t.drop problematicAge prob)

/-- The readings are taken in the problem period from `t` on. -/
def Env.Within (t : Int) (env : Env) : Prop :=
  ∀ i, t ≤ env.clock i ∧ env.clock i ≤ t + kMaxProblematicTime

/-- The node has a record of having failed at `t`. -/
def Failing (t : Int) (node : NodeAddress) (nodes : AgedTable NodeAddress Problematic) : Prop :=
  ∃ prob, nodes.find problematicAge node = some prob ∧ prob.failed = t ∧ t ≤ prob.lastReferenced

section Keeps

variable {P : AgedTable NodeAddress Problematic → Prop} {env : Env}

theorem Keeps.after (h : Keeps P env) (n : Nat) : Keeps P (env.after n) :=
  ⟨fun i => h.evict (n+i),fun i => h.refer (n+i),fun i => h.drop (n+i)⟩

theorem keeps_true (env : Env) : Keeps (fun _ => True) env :=
  ⟨fun _ _ _ _ => trivial,fun _ _ _ _ _ => trivial,fun _ _ _ _ _ _ => trivial⟩

theorem keeps_failing {t : Int} {node : NodeAddress} (h : env.Within t) :
    Keeps (Failing t node) env where
  evict := by
    intro i nodes hcons hfailing
    obtain ⟨prob,hfound,hfailed,href⟩ := hfailing
    refine ⟨prob,AgedTable.find_evict hcons hfound ?_,hfailed,href⟩
    have hclock := (h i).2
    change env.clock i-prob.lastReferenced≤300
    unfold kMaxProblematicTime at hclock
    omega
  refer := by
    intro i nodes p hp hfailing
    obtain ⟨prob,hfound,hfailed,href⟩ := hfailing
    by_cases hnode : p.node=node
    · obtain rfl : prob=p := hp prob (hnode ▸ hfound)
      refine ⟨{ prob with lastReferenced := env.clock i },?_,hfailed,(h i).1⟩
      rw [AgedTable.find_touch]
      exact if_pos hnode
    · refine ⟨prob,?_,hfailed,href⟩
      rw [AgedTable.find_touch]
      exact (if_neg hnode).trans hfound
  drop := by
    intro i nodes p hp hexpired hfailing
    obtain ⟨prob,hfound,hfailed,href⟩ := hfailing
    by_cases hnode : p.node=node
    · have hsame : some prob=some p := by rw [← hfound,← hnode,hp]
      obtain rfl := Option.some.inj hsame
      have hclock := (h i).2
      omega
    · exact ⟨prob,(AgedTable.find_drop_ne hnode).trans hfound,hfailed,href⟩

end Keeps

/-- Every index lists its table, no table is over its cap, and `P` holds of the problematic
nodes. -/
structure Sound (P : AgedTable NodeAddress Problematic → Prop) (s : SafeKad) : Prop where
  tracked : s.trackedNodes.Consistent trackedAge
  problematic : s.problematicNodes.Consistent problematicAge
  banned : s.bannedIPs.Consistent bannedAge
  trackedCap : s.trackedNodes.nodes.length ≤ kMaxTrackedNodes
  problematicCap : s.problematicNodes.nodes.length ≤ kMaxProblematicNodes
  bannedCap : s.bannedIPs.nodes.length ≤ kMaxBannedIPs
  kept : P s.problematicNodes

variable {P : AgedTable NodeAddress Problematic → Prop} {env : Env} {s : SafeKad} {ip : UInt32}
  {port : UInt16} {id : KadUInt128} {verified : Bool} {now : Int}

theorem create_sound (now : Int) : (create now).Sound fun _ => True :=
  ⟨AgedTable.empty_consistent _,AgedTable.empty_consistent _,AgedTable.empty_consistent _,
    Nat.zero_le _,Nat.zero_le _,Nat.zero_le _,trivial⟩

theorem Sound.cleanup (hs : s.Sound P) (hk : Keeps P env) (i : Nat) :
    (s.cleanup (env.clock i)).Sound P :=
  ⟨hs.tracked.evict,hs.problematic.evict,hs.banned.evict,
    Nat.le_trans (AgedTable.evict_length_le hs.tracked) hs.trackedCap,
    Nat.le_trans (AgedTable.evict_length_le hs.problematic) hs.problematicCap,
    Nat.le_trans (AgedTable.evict_length_le hs.banned) hs.bannedCap,
    hk.evict i _ hs.problematic hs.kept⟩

theorem Sound.cleanup_if (hs : s.Sound P) (hk : Keeps P env) (i : Nat) (full : Prop)
    [Decidable full] : (if full then s.cleanup (env.clock i) else s).Sound P := by
  split_ifs with h
  · exact hs.cleanup hk i
  · exact hs

theorem Sound.isBanned (hs : s.Sound P) : (s.isBanned env ip).2.Sound P := by
  unfold SafeKad.isBanned
  split_ifs with hdisabled
  · exact hs
  cases hfound : s.bannedIPs.find bannedAge ip with
  | none => exact hs
  | some banned =>
    have hself := AgedTable.find_self hfound
    dsimp only
    split_ifs with hexpired
    · exact ⟨hs.tracked,hs.problematic,hs.banned.drop hself,hs.trackedCap,hs.problematicCap,
        Nat.le_trans (AgedTable.drop_length_le _ _) hs.bannedCap,hs.kept⟩
    · refine ⟨hs.tracked,hs.problematic,hs.banned.touch rfl ?_,hs.trackedCap,
        hs.problematicCap,Nat.le_trans (AgedTable.touch_length_of_find hself) hs.bannedCap,hs.kept⟩
      intro r hr
      exact Option.some.inj (hr.symm.trans hself)

theorem Sound.recordBan (hs : s.Sound P) (banned : Banned)
    (h : s.bannedIPs.find bannedAge banned.ip=some banned ∨
      s.bannedIPs.find bannedAge banned.ip=none ∧ s.bannedIPs.nodes.length<kMaxBannedIPs) :
    (s.recordBan now banned).Sound P := by
  refine ⟨hs.tracked,hs.problematic,hs.banned.touch rfl ?_,hs.trackedCap,hs.problematicCap,
    ?_,hs.kept⟩
  · intro r hr
    obtain hold | ⟨hnone,-⟩ := h
    · exact Option.some.inj (hr.symm.trans hold)
    · exact absurd (hr.symm.trans hnone) (by simp)
  · obtain hold | ⟨-,hroom⟩ := h
    · exact Nat.le_trans (AgedTable.touch_length_of_find hold) hs.bannedCap
    · exact Nat.le_trans (AgedTable.touch_length_le _ _ _) hroom

theorem Sound.evictOldestBan (hs : s.Sound P) : s.evictOldestBan.Sound P := by
  unfold SafeKad.evictOldestBan
  cases hindex : s.bannedIPs.index with
  | nil => exact hs
  | cons oldest rest =>
    dsimp only
    cases hfound : s.bannedIPs.find bannedAge oldest.2 with
    | none => exact hs
    | some banned =>
      exact ⟨hs.tracked,hs.problematic,hs.banned.drop (AgedTable.find_self hfound),hs.trackedCap,
        hs.problematicCap,Nat.le_trans (AgedTable.drop_length_le _ _) hs.bannedCap,hs.kept⟩

theorem evictOldestBan_find_none (h : s.bannedIPs.find bannedAge ip=none) :
    s.evictOldestBan.bannedIPs.find bannedAge ip=none := by
  unfold SafeKad.evictOldestBan
  cases hindex : s.bannedIPs.index with
  | nil => exact h
  | cons oldest rest =>
    dsimp only
    cases hfound : s.bannedIPs.find bannedAge oldest.2 with
    | none => exact h
    | some banned =>
      have hne : bannedAge.key banned≠ip :=
        AgedTable.find_none h banned (AgedTable.find_mem hfound).1
      exact (AgedTable.find_drop_ne hne).trans h

theorem Sound.banIP (hs : s.Sound P) (hk : Keeps P env) : (s.banIP env ip).Sound P := by
  unfold SafeKad.banIP
  by_cases hdisabled : env.disabled=true
  · rw [if_pos hdisabled]
    exact hs
  rw [if_neg hdisabled]
  cases hfound : s.bannedIPs.find bannedAge ip with
  | some banned =>
    exact hs.recordBan banned (Or.inl (AgedTable.find_self hfound))
  | none =>
    dsimp only
    have hclean := hs.cleanup_if hk 1 (s.bannedIPs.nodes.length≥kMaxBannedIPs)
    have hnone : (if s.bannedIPs.nodes.length≥kMaxBannedIPs then s.cleanup (env.clock 1)
        else s).bannedIPs.find bannedAge ip=none := by
      split_ifs with hfull
      · exact AgedTable.find_evict_none hs.banned hfound
      · exact hfound
    generalize (if s.bannedIPs.nodes.length≥kMaxBannedIPs then s.cleanup (env.clock 1) else s)
      = s' at hclean hnone ⊢
    have hevicted : (if s'.bannedIPs.nodes.length≥kMaxBannedIPs then s'.evictOldestBan
        else s').Sound P := by
      split_ifs with hfull
      · exact hclean.evictOldestBan
      · exact hclean
    have hstill : (if s'.bannedIPs.nodes.length≥kMaxBannedIPs then s'.evictOldestBan
        else s').bannedIPs.find bannedAge ip=none := by
      split_ifs with hfull
      · exact evictOldestBan_find_none hnone
      · exact hnone
    generalize (if s'.bannedIPs.nodes.length≥kMaxBannedIPs then s'.evictOldestBan else s')
      = s'' at hevicted hstill ⊢
    split_ifs with hfull hmemory
    · exact hevicted
    · exact hevicted.recordBan ⟨0,0,ip⟩ (Or.inr ⟨hstill,Nat.lt_of_not_le hfull⟩)
    · exact hevicted

theorem Sound.touchTracked (hs : s.Sound P) {old new : Tracked} (hnode : old.node=new.node)
    (h : s.trackedNodes.find trackedAge old.node=some old ∨
      s.trackedNodes.find trackedAge old.node=none ∧
        s.trackedNodes.nodes.length<kMaxTrackedNodes) :
    SafeKad.Sound P { s with trackedNodes := s.trackedNodes.touch trackedAge old new } := by
  refine ⟨hs.tracked.touch hnode ?_,hs.problematic,hs.banned,?_,hs.problematicCap,
    hs.bannedCap,hs.kept⟩
  · intro r hr
    have hr' : s.trackedNodes.find trackedAge old.node=some r := by
      rw [hnode]
      exact hr
    obtain hold | ⟨hnone,-⟩ := h
    · exact Option.some.inj (hr'.symm.trans hold)
    · exact absurd (hr'.symm.trans hnone) (by simp)
  · obtain hold | ⟨-,hroom⟩ := h
    · have hnew : s.trackedNodes.find trackedAge (trackedAge.key new)=some old := by
        rw [← hold,hnode]
        rfl
      exact Nat.le_trans (AgedTable.touch_length_of_find hnew) hs.trackedCap
    · exact Nat.le_trans (AgedTable.touch_length_le _ _ _) hroom

theorem Sound.dropTracked (hs : s.Sound P) {old : Tracked}
    (h : s.trackedNodes.find trackedAge old.node=some old) :
    SafeKad.Sound P { s with trackedNodes := s.trackedNodes.drop trackedAge old } :=
  ⟨hs.tracked.drop h,hs.problematic,hs.banned,
    Nat.le_trans (AgedTable.drop_length_le _ _) hs.trackedCap,hs.problematicCap,hs.bannedCap,
    hs.kept⟩

theorem Sound.referTracked (hs : s.Sound P) (hk : Keeps P env) {tracked : Tracked}
    (h : s.trackedNodes.find trackedAge tracked.node=some tracked ∨
      s.trackedNodes.find trackedAge tracked.node=none ∧
        s.trackedNodes.nodes.length<kMaxTrackedNodes ∧ tracked.lastID=id) :
    (s.referTracked env now ip id verified tracked).Sound P := by
  have hroom : s.trackedNodes.find trackedAge tracked.node=some tracked ∨
      s.trackedNodes.find trackedAge tracked.node=none ∧
        s.trackedNodes.nodes.length<kMaxTrackedNodes := h.imp_right fun h => ⟨h.1,h.2.1⟩
  unfold SafeKad.referTracked
  dsimp only
  split_ifs with hchanged hsoon
  · obtain hold | ⟨-,-,hid⟩ := h
    · exact (hs.dropTracked hold).banIP hk
    · exact absurd hid.symm hchanged.1
  · exact hs.touchTracked rfl hroom
  · exact hs.touchTracked rfl hroom

theorem Sound.trackNode (hs : s.Sound P) (hk : Keeps P env) :
    (s.trackNode env ip port id verified).Sound P := by
  unfold SafeKad.trackNode
  have hban : (s.isBanned env ip).2.Sound P := hs.isBanned
  generalize s.isBanned env ip=r at hban ⊢
  by_cases hdisabled : env.disabled=true
  · rw [if_pos hdisabled]
    exact hs
  rw [if_neg hdisabled]
  dsimp only
  by_cases hbanned : r.1=true
  · rw [if_pos hbanned]
    exact hban
  rw [if_neg hbanned]
  cases hfound : r.2.trackedNodes.find trackedAge ⟨ip,port⟩ with
  | some tracked =>
    exact hban.referTracked (hk.after 3) (Or.inl (AgedTable.find_self hfound))
  | none =>
    dsimp only
    have hclean := hban.cleanup_if hk 2 (r.2.trackedNodes.nodes.length≥kMaxTrackedNodes)
    have hnone : (if r.2.trackedNodes.nodes.length≥kMaxTrackedNodes then
        r.2.cleanup (env.clock 2) else r.2).trackedNodes.find trackedAge ⟨ip,port⟩=none := by
      split_ifs with hfull
      · exact AgedTable.find_evict_none hban.tracked hfound
      · exact hfound
    generalize (if r.2.trackedNodes.nodes.length≥kMaxTrackedNodes then
      r.2.cleanup (env.clock 2) else r.2)=s' at hclean hnone ⊢
    split_ifs with hfull hmemory
    · exact hclean
    · exact hclean.referTracked (hk.after 3)
        (Or.inr ⟨hnone,Nat.lt_of_not_le hfull,rfl⟩)
    · exact hclean

theorem Sound.referProblematic (hs : s.Sound P) (hk : Keeps P env) (i : Nat) {prob : Problematic}
    (h : s.problematicNodes.find problematicAge prob.node=some prob ∨
      s.problematicNodes.find problematicAge prob.node=none ∧
        s.problematicNodes.nodes.length<kMaxProblematicNodes) :
    (s.referProblematic (env.clock i) prob).Sound P := by
  have hold : ∀ r,s.problematicNodes.find problematicAge prob.node=some r → r=prob := by
    intro r hr
    obtain hold | ⟨hnone,-⟩ := h
    · exact Option.some.inj (hr.symm.trans hold)
    · exact absurd (hr.symm.trans hnone) (by simp)
  refine ⟨hs.tracked,hs.problematic.touch rfl hold,hs.banned,hs.trackedCap,?_,hs.bannedCap,
    hk.refer i _ prob hold hs.kept⟩
  obtain hold | ⟨-,hroom⟩ := h
  · exact Nat.le_trans (AgedTable.touch_length_of_find hold) hs.problematicCap
  · exact Nat.le_trans (AgedTable.touch_length_le _ _ _) hroom

theorem Sound.trackProblematicNode (hs : s.Sound P) (hk : Keeps P env) :
    (s.trackProblematicNode env ip port).Sound P := by
  unfold SafeKad.trackProblematicNode
  have hban : (s.isBanned env ip).2.Sound P := hs.isBanned
  generalize s.isBanned env ip=r at hban ⊢
  by_cases hdisabled : env.disabled=true
  · rw [if_pos hdisabled]
    exact hs
  rw [if_neg hdisabled]
  dsimp only
  by_cases hbanned : r.1=true
  · rw [if_pos hbanned]
    exact hban
  rw [if_neg hbanned]
  cases hfound : r.2.problematicNodes.find problematicAge ⟨ip,port⟩ with
  | some prob =>
    exact hban.referProblematic hk 1 (Or.inl (AgedTable.find_self hfound))
  | none =>
    dsimp only
    have hclean := hban.cleanup_if hk 2 (r.2.problematicNodes.nodes.length≥kMaxProblematicNodes)
    have hnone : (if r.2.problematicNodes.nodes.length≥kMaxProblematicNodes then
        r.2.cleanup (env.clock 2) else r.2).problematicNodes.find problematicAge ⟨ip,port⟩ =
          none := by
      split_ifs with hfull
      · exact AgedTable.find_evict_none hban.problematic hfound
      · exact hfound
    generalize (if r.2.problematicNodes.nodes.length≥kMaxProblematicNodes then
      r.2.cleanup (env.clock 2) else r.2)=s' at hclean hnone ⊢
    split_ifs with hfull hmemory
    · exact hclean
    · exact hclean.referProblematic hk 1 (Or.inr ⟨hnone,Nat.lt_of_not_le hfull⟩)
    · exact hclean

theorem isBanned_trackedNodes (s : SafeKad) (env : Env) (ip : UInt32) :
    (s.isBanned env ip).2.trackedNodes=s.trackedNodes := by
  unfold SafeKad.isBanned
  split_ifs with hdisabled
  · rfl
  cases s.bannedIPs.find bannedAge ip with
  | none => rfl
  | some banned =>
    dsimp only
    split_ifs <;> rfl

theorem Sound.isBadNode (hs : s.Sound P) (hk : Keeps P env) (kadVersion : UInt8)
    (onePerIP : Bool) :
    (s.isBadNode env ip port id kadVersion verified onePerIP).2.Sound P := by
  unfold SafeKad.isBadNode
  by_cases hdisabled : env.disabled=true
  · rw [if_pos hdisabled]
    exact hs
  rw [if_neg hdisabled]
  dsimp only
  have hclean := hs.cleanup_if hk 1 (env.clock 0-s.lastCleanup>kCleanupInterval)
  generalize (if env.clock 0-s.lastCleanup>kCleanupInterval then s.cleanup (env.clock 1)
    else s)=s' at hclean ⊢
  have hban : (s'.isBanned (env.after 2) ip).2.Sound P := hclean.isBanned
  have hsame := isBanned_trackedNodes s' (env.after 2) ip
  generalize s'.isBanned (env.after 2) ip=r at hban hsame ⊢
  rw [← hsame]
  cases hfound : r.2.trackedNodes.find trackedAge ⟨ip,port⟩ with
  | none =>
    dsimp only
    split_ifs with hbanned hother
    · exact hban
    · exact hban
    · exact hban.trackNode (hk.after 3)
  | some tracked =>
    have hself : r.2.trackedNodes.find trackedAge tracked.node=some tracked :=
      AgedTable.find_self hfound
    have htouch := hban.touchTracked
      (show tracked.node = { tracked with lastReferenced := env.clock 0 }.node from rfl)
      (Or.inl hself)
    dsimp only
    split_ifs with hbanned hchanged hdenied
    · exact hban.dropTracked hself
    · exact htouch
    · exact (htouch.trackNode (hk.after 3)).isBanned
    · exact htouch

theorem Sound.isProblematic (hs : s.Sound P) (hk : Keeps P env) :
    (s.isProblematic env ip port).2.Sound P := by
  unfold SafeKad.isProblematic
  split_ifs with hdisabled
  · exact hs
  cases hfound : s.problematicNodes.find problematicAge ⟨ip,port⟩ with
  | none => exact hs.isBanned
  | some prob =>
    have hself : s.problematicNodes.find problematicAge prob.node=some prob :=
      AgedTable.find_self hfound
    dsimp only
    split_ifs with hexpired
    · apply Sound.isBanned
      exact ⟨hs.tracked,hs.problematic.drop hself,hs.banned,hs.trackedCap,
        Nat.le_trans (AgedTable.drop_length_le _ _) hs.problematicCap,hs.bannedCap,
        hk.drop 0 _ prob hself hexpired hs.kept⟩
    · exact hs.referProblematic hk 0 (Or.inl hself)

theorem Sound.step (hs : s.Sound P) {call : Env × Op} (hk : Keeps P call.1)
    (hrunning : call.2 ≠ .shutdownCleanup) : (SafeKad.step s call).Sound P := by
  obtain ⟨env,op⟩ := call
  cases op with
  | trackNode ip port id verified => exact hs.trackNode hk
  | trackProblematicNode ip port => exact hs.trackProblematicNode hk
  | banIP ip => exact hs.banIP hk
  | isBadNode ip port id kadVersion verified onePerIP => exact hs.isBadNode hk kadVersion onePerIP
  | isBanned ip => exact hs.isBanned
  | isProblematic ip port => exact hs.isProblematic hk
  | shutdownCleanup => exact absurd rfl hrunning

theorem step_sound (hs : s.Sound fun _ => True) (call : Env × Op) :
    (SafeKad.step s call).Sound fun _ => True := by
  by_cases hend : call.2 = .shutdownCleanup
  · unfold SafeKad.step
    rw [hend]
    exact create_sound _
  · exact hs.step (keeps_true call.1) hend

theorem run_sound (start : Int) (calls : List (Env × Op)) :
    Sound (fun _ => True) (run step (create start) calls) :=
  @run_invariant _ _ step (fun _ _ => True) (Sound fun _ => True)
    (fun _ call hs _ => step_sound hs call) _ calls (create_sound start) (along_true step _ calls)

theorem Sound.run (hs : s.Sound P) (calls : List (Env × Op))
    (hcalls : ∀ call∈calls,Keeps P call.1 ∧ call.2 ≠ .shutdownCleanup) :
    Sound P (Framework.run SafeKad.step s calls) :=
  run_invariant (fun _ _ hs hok => hs.step hok.1 hok.2) hs (along_of_forall s hcalls)

/-- Fewer records than the cap are left when those unreferenced for long have gone. -/
def RoomForProblematic (now : Int) (s : SafeKad) : Prop :=
  (s.problematicNodes.nodes.countP fun r => decide (now-r.lastReferenced≤kProblemMaxAge)) <
    kMaxProblematicNodes

theorem isBanned_problematicNodes (s : SafeKad) (env : Env) (ip : UInt32) :
    (s.isBanned env ip).2.problematicNodes=s.problematicNodes := by
  unfold SafeKad.isBanned
  split_ifs with hdisabled
  · rfl
  cases s.bannedIPs.find bannedAge ip with
  | none => rfl
  | some banned =>
    dsimp only
    split_ifs <;> rfl

theorem trackProblematicNode_failing (hs : s.Sound P) (henabled : env.disabled=false)
    (hunbanned : (s.isBanned env ip).1=false) (hmemory : env.allocates=true)
    (hfirst : s.problematicNodes.find problematicAge ⟨ip,port⟩=none)
    (hroom : s.RoomForProblematic (env.clock 2)) :
    Failing (env.clock 1) ⟨ip,port⟩ (s.trackProblematicNode env ip port).problematicNodes := by
  have hsame := isBanned_problematicNodes s env ip
  unfold SafeKad.trackProblematicNode
  generalize s.isBanned env ip=r at hunbanned hsame ⊢
  rw [if_neg (by simp [henabled])]
  dsimp only
  rw [if_neg (by simp [hunbanned]),hsame,hfirst]
  have hfits : ¬ (if s.problematicNodes.nodes.length≥kMaxProblematicNodes then
      r.2.cleanup (env.clock 2) else r.2).problematicNodes.nodes.length ≥
        kMaxProblematicNodes := by
    split_ifs with hfull
    · have hleft : (r.2.cleanup (env.clock 2)).problematicNodes.nodes =
          s.problematicNodes.nodes.filter
            fun p => decide (env.clock 2-p.lastReferenced≤kProblemMaxAge) := by
        unfold cleanup
        rw [hsame]
        exact AgedTable.evict_nodes hs.problematic
      rw [hleft,← List.countP_eq_length_filter]
      exact Nat.not_le_of_lt hroom
    · rw [hsame]
      exact hfull
  rw [if_neg hfits,if_pos hmemory]
  refine ⟨⟨env.clock 1,env.clock 1,⟨ip,port⟩⟩,?_,rfl,Int.le_refl _⟩
  unfold referProblematic
  rw [AgedTable.find_touch]
  exact if_pos rfl

theorem isProblematic_of_failing {t : Int} (henabled : env.disabled=false)
    (hwithin : env.Within t) (h : Failing t ⟨ip,port⟩ s.problematicNodes) :
    (s.isProblematic env ip port).1=true := by
  obtain ⟨prob,hfound,hfailed,-⟩ := h
  have hclock := (hwithin 0).2
  unfold SafeKad.isProblematic
  rw [if_neg (by simp [henabled]),hfound]
  dsimp only
  rw [if_neg (by omega)]

/-- In every state of every run the indexes list their tables and the caps hold, and a first report
that finds room makes its node problematic for the whole period. -/
theorem run_tables (start : Int) (calls : List (Env × Op)) :
    let s := Framework.run step (create start) calls
    (s.trackedNodes.Consistent trackedAge ∧ s.problematicNodes.Consistent problematicAge ∧
      s.bannedIPs.Consistent bannedAge) ∧
    (s.trackedNodes.nodes.length≤kMaxTrackedNodes ∧
      s.problematicNodes.nodes.length≤kMaxProblematicNodes ∧
      s.bannedIPs.nodes.length≤kMaxBannedIPs) ∧
    ∀ (env : Env) (ip : UInt32) (port : UInt16), env.disabled=false →
      (s.isBanned env ip).1=false → env.allocates=true →
      s.problematicNodes.find problematicAge ⟨ip,port⟩=none →
      s.RoomForProblematic (env.clock 2) →
      ∀ later : List (Env × Op),
        (∀ call∈later,call.1.Within (env.clock 1) ∧ call.2 ≠ .shutdownCleanup) →
        ∀ env' : Env, env'.disabled=false → env'.Within (env.clock 1) →
          ((Framework.run step (s.trackProblematicNode env ip port) later).isProblematic env' ip
            port).1=true := by
  intro s
  have hs : s.Sound fun _ => True := run_sound start calls
  refine ⟨⟨hs.tracked,hs.problematic,hs.banned⟩,
    ⟨hs.trackedCap,hs.problematicCap,hs.bannedCap⟩,?_⟩
  intro env ip port henabled hunbanned hmemory hfirst hroom later hlater env' henabled' hwithin'
  have hfailing := trackProblematicNode_failing hs henabled hunbanned hmemory hfirst hroom
  have hreported : (s.trackProblematicNode env ip port).Sound (Failing (env.clock 1) ⟨ip,port⟩) :=
    { hs.trackProblematicNode (keeps_true env) with kept := hfailing }
  have hafter := hreported.run later fun call hcall =>
    ⟨keeps_failing (hlater call hcall).1,(hlater call hcall).2⟩
  exact isProblematic_of_failing henabled' hwithin' hafter.kept

/-- A call that finds the time `t`. -/
def envAt (t : Int) : Env := ⟨false,true,fun _ => t⟩

/-- Reports of `n` nodes. -/
def reports (n : Nat) : List (Env × Op) :=
  (List.range n).map fun i => (envAt 0, .trackProblematicNode (UInt32.ofNat i) 4672)

def reported (i : Nat) : Problematic := ⟨0, 0, ⟨UInt32.ofNat i, 4672⟩⟩

theorem isBanned_of_empty (h : s.bannedIPs = .empty) : s.isBanned env ip=(false, s) := by
  unfold SafeKad.isBanned
  rw [h]
  split_ifs with hdisabled
  · rfl
  · rfl

theorem find_reported {n m : Nat} (hn : n ≤ m) (hm : m≤kMaxProblematicNodes)
    (h : s.problematicNodes.nodes=(List.range n).reverse.map reported) :
    s.problematicNodes.find problematicAge ⟨UInt32.ofNat m,4672⟩=none := by
  unfold AgedTable.find lookupKey
  rw [h]
  apply List.find?_eq_none.mpr
  intro prob hprob
  obtain ⟨i,hi,rfl⟩ := List.mem_map.mp hprob
  have hlt : i<n := List.mem_range.mp (List.mem_reverse.mp hi)
  have hm' : m≤10000 := hm
  simp only [decide_eq_true_eq]
  intro hnode
  have hip : UInt32.ofNat i=UInt32.ofNat m := congrArg NodeAddress.ip hnode
  have hnum := congrArg UInt32.toNat hip
  rw [UInt32.toNat_ofNat',UInt32.toNat_ofNat'] at hnum
  omega

theorem reports_kept (n : Nat) (hn : n≤kMaxProblematicNodes) :
    (Framework.run step (create 0) (reports n)).problematicNodes.nodes =
        (List.range n).reverse.map reported ∧
      (Framework.run step (create 0) (reports n)).bannedIPs = .empty := by
  induction n with
  | zero => exact ⟨rfl,rfl⟩
  | succ n ih =>
    obtain ⟨hnodes,hbanned⟩ := ih (by omega)
    have hrun : Framework.run step (create 0) (reports (n+1)) =
        (Framework.run step (create 0) (reports n)).trackProblematicNode (envAt 0)
          (UInt32.ofNat n) 4672 := by
      unfold reports
      rw [List.range_succ,List.map_append,run_append]
      rfl
    rw [hrun]
    generalize Framework.run step (create 0) (reports n)=s at hnodes hbanned
    have hnone := find_reported (Nat.le_refl n) (by omega) hnodes
    have hroom : ¬ s.problematicNodes.nodes.length≥kMaxProblematicNodes := by
      rw [hnodes,List.length_map,List.length_reverse,List.length_range]
      omega
    have hkept : s.trackProblematicNode (envAt 0) (UInt32.ofNat n) 4672 =
        s.referProblematic 0 ⟨0,0,⟨UInt32.ofNat n,4672⟩⟩ := by
      unfold SafeKad.trackProblematicNode
      rw [isBanned_of_empty hbanned]
      simp [envAt,hnone,hroom]
    rw [hkept]
    refine ⟨?_,hbanned⟩
    rw [List.range_succ,List.reverse_append,List.map_append,← hnodes]
    exact congrArg (reported n :: ·) (AgedTable.filter_of_find_none hnone)

theorem report_full (hs : s.Sound P) (hbanned : s.bannedIPs = .empty)
    (hnodes : s.problematicNodes.nodes=(List.range kMaxProblematicNodes).reverse.map reported) :
    ((s.trackProblematicNode (envAt 0) (UInt32.ofNat kMaxProblematicNodes) 4672).isProblematic
      (envAt 0) (UInt32.ofNat kMaxProblematicNodes) 4672).1=false := by
  have hnone := find_reported (Nat.le_refl kMaxProblematicNodes) (Nat.le_refl _) hnodes
  have hlength : s.problematicNodes.nodes.length=kMaxProblematicNodes := by
    rw [hnodes,List.length_map,List.length_reverse,List.length_range]
  have hclean : (s.cleanup 0).problematicNodes.nodes=s.problematicNodes.nodes := by
    refine (AgedTable.evict_nodes hs.problematic).trans (List.filter_eq_self.mpr ?_)
    intro prob hprob
    rw [hnodes] at hprob
    obtain ⟨i,-,rfl⟩ := List.mem_map.mp hprob
    rfl
  have hleft : (s.cleanup 0).bannedIPs = .empty := by
    unfold cleanup
    rw [hbanned]
    rfl
  have hreport : s.trackProblematicNode (envAt 0) (UInt32.ofNat kMaxProblematicNodes) 4672 =
      s.cleanup 0 := by
    unfold SafeKad.trackProblematicNode
    rw [isBanned_of_empty hbanned]
    simp [envAt,hnone,hclean,hlength]
  have hmissing : (s.cleanup 0).problematicNodes.find problematicAge
      ⟨UInt32.ofNat kMaxProblematicNodes,4672⟩=none :=
    AgedTable.find_evict_none hs.problematic hnone
  unfold SafeKad.isProblematic
  rw [hreport,hmissing,isBanned_of_empty hleft]
  rfl

/-- Ten thousand reports leave no room for another, and a second report of a node is of no use when
the period of the first is over. -/
theorem report_dropped :
    let node := UInt32.ofNat kMaxProblematicNodes
    let s := Framework.run step (create 0) (reports kMaxProblematicNodes)
    let again := Framework.run step (create 0) [(envAt 0, .trackProblematicNode 7 4672),
      (envAt 200, .trackProblematicNode 7 4672)]
    ((s.isBanned (envAt 0) node).1=false ∧
      ((s.trackProblematicNode (envAt 0) node 4672).isProblematic (envAt 0) node 4672).1 =
        false) ∧
    (again.isProblematic (envAt 400) 7 4672).1=false := by
  obtain ⟨hnodes,hbanned⟩ := reports_kept kMaxProblematicNodes (Nat.le_refl _)
  refine ⟨⟨?_,?_⟩,by decide⟩
  · rw [isBanned_of_empty hbanned]
  · exact report_full (run_sound 0 _) hbanned hnodes

end SafeKad

end EmuleQt.Kademlia
