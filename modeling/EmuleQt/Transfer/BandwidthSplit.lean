import EmuleQt.Math.EvenSplit

namespace EmuleQt.Transfer

open Math

/-- What one consumer asks of the shared line. -/
structure EngineDemand where
  active : Bool
  rateBytesPerSec : Int
  recentBytesPerSec : Int

/-- Two engines as one consumer. -/
def EngineDemand.combine (a b : EngineDemand) : EngineDemand :=
  ⟨a.active || b.active, a.rateBytesPerSec + b.rateBytesPerSec,
    a.recentBytesPerSec + b.recentBytesPerSec⟩

/-- What a split remembers between ticks; a cap of 0 is one not published yet. -/
structure PairState where
  firstReserveKb : Int := 0
  secondReserveKb : Int := 0
  firstCapKb : Int := 0
  secondCapKb : Int := 0

/-- A ceiling divided between two sides, 0 = unlimited. -/
structure PairSplit where
  ceilingKb : Int := 0
  firstCapKb : Int := 0
  secondCapKb : Int := 0

namespace EngineDemand

def avgKb (d : EngineDemand) : Int := max 0 d.rateBytesPerSec / 1024

def recentKb (d : EngineDemand) : Int := max 0 d.recentBytesPerSec / 1024

end EngineDemand

/-- What a side holds back from the other. -/
def reserve (d : EngineDemand) (floorKb prevReserveKb prevCapKb : Int) : Int :=
  if d.active then
    let minKb := min floorKb (max 1 (max 32 (floorKb / 16)))
    let want := max (d.avgKb + d.avgKb / 4) minKb
    let want :=
      if 0 < prevCapKb ∧ prevCapKb * 9 ≤ max d.avgKb d.recentKb * 10 then
        max want (prevReserveKb * 2)
      else want
    min want floorKb
  else 0

/-- The share of the second side while both are busy. -/
def secondFloorKb (ceiling secondSharePercent : Int) : Int :=
  max 1 (min (ceiling*max 1 (min secondSharePercent 99)/100) (max 1 (ceiling-1)))

def firstFloorKb (ceiling secondSharePercent : Int) : Int :=
  max 1 (ceiling-secondFloorKb ceiling secondSharePercent)

/-- The split and what the state is after it; `none` = stateless. -/
def computePairSplit (ceilingKb secondSharePercent : Int) (first second : EngineDemand)
    (state : Option PairState) : PairSplit × Option PairState :=
  let ceiling := max 0 ceilingKb
  if ceiling = 0 then ({}, state.map fun _ => {})
  else
    let prev := state.getD {}
    let firstReserve :=
      reserve first (firstFloorKb ceiling secondSharePercent) prev.firstReserveKb prev.firstCapKb
    let secondReserve :=
      reserve second (secondFloorKb ceiling secondSharePercent) prev.secondReserveKb
        prev.secondCapKb
    let firstCap := max 1 (ceiling - secondReserve)
    let secondCap := max 1 (ceiling - firstReserve)
    (⟨ceiling, firstCap, secondCap⟩,
      state.map fun _ => ⟨firstReserve, secondReserve, firstCap, secondCap⟩)

/-- The download line divided between the engines; −1 = the raw ceiling. -/
structure DownloadPlan where
  ed2kBudgetKb : Int := -1
  usenetCapKb : Int := 0
  btCapKb : Int := 0

structure DownloadPlanState where
  bt : PairState
  usenet : PairState

def planDownload (ceilingKb usenetSharePercent btSharePercent : Int)
    (ed2k usenet bt : EngineDemand) (state : DownloadPlanState) :
    DownloadPlan × DownloadPlanState :=
  let (outer, btState) :=
    computePairSplit ceilingKb btSharePercent (ed2k.combine usenet) bt (some state.bt)
  let (inner, usenetState) :=
    computePairSplit outer.firstCapKb usenetSharePercent ed2k usenet (some state.usenet)
  (⟨if 0 < outer.ceilingKb ∧ (usenet.active || bt.active) then inner.firstCapKb else -1,
      inner.secondCapKb, outer.secondCapKb⟩,
    ⟨btState.getD {}, usenetState.getD {}⟩)

variable {d first second : EngineDemand} {ceiling percent floorKb prevReserveKb prevCapKb : Int}

/-! # One tick -/

theorem secondFloorKb_pos (ceiling percent : Int) : 1 ≤ secondFloorKb ceiling percent :=
  le_max_left _ _

theorem firstFloorKb_pos (ceiling percent : Int) : 1≤firstFloorKb ceiling percent :=
  le_max_left _ _

theorem floors_add (h : 2≤ceiling) (percent : Int) :
    firstFloorKb ceiling percent+secondFloorKb ceiling percent=ceiling := by
  unfold firstFloorKb secondFloorKb
  omega

theorem floors_one (percent : Int) : firstFloorKb 1 percent=1 ∧ secondFloorKb 1 percent=1 := by
  unfold firstFloorKb secondFloorKb
  omega

theorem reserve_le (hfloor : 0≤floorKb) : reserve d floorKb prevReserveKb prevCapKb≤floorKb := by
  unfold reserve
  split_ifs
  · exact min_le_right _ _
  · exact min_le_right _ _
  · exact hfloor

theorem reserve_pos (hactive : d.active=true) (hfloor : 1≤floorKb) :
    1≤reserve d floorKb prevReserveKb prevCapKb := by
  unfold reserve
  rw [if_pos hactive]
  dsimp only
  split_ifs <;> omega

theorem reserve_idle (hidle : d.active=false) : reserve d floorKb prevReserveKb prevCapKb=0 := by
  unfold reserve
  simp [hidle]

theorem reserve_nonneg (hfloor : 1≤floorKb) : 0≤reserve d floorKb prevReserveKb prevCapKb := by
  cases hactive : d.active with
  | true => exact Int.le_trans (by decide) (reserve_pos hactive hfloor)
  | false => exact (reserve_idle hactive).ge

/-- The side is active and uses at least 90 percent of its cap, in whole KB/s of the busier of
the two measures. -/
def Presses (d : EngineDemand) (capKb : Int) : Prop :=
  d.active=true ∧ capKb*9 ≤ max d.avgKb d.recentKb*10

theorem reserve_doubles (h : Presses d prevCapKb) (hcap : 0<prevCapKb) :
    min floorKb (2*prevReserveKb)≤reserve d floorKb prevReserveKb prevCapKb := by
  unfold reserve
  rw [if_pos h.1]
  dsimp only
  rw [if_pos ⟨hcap,h.2⟩]
  omega

variable {state : Option PairState} {prev : PairState}

/-- The state a tick leaves behind. -/
def PairState.next (ceiling percent : Int) (prev : PairState) (demands : EngineDemand × EngineDemand) :
    PairState :=
  (computePairSplit ceiling percent demands.1 demands.2 (some prev)).2.getD {}

theorem computePairSplit_eq (h : 1≤ceiling) (percent : Int) (first second : EngineDemand)
    (state : Option PairState) : ∃ firstReserve secondReserve,
    firstReserve=reserve first (firstFloorKb ceiling percent) (state.getD {}).firstReserveKb
      (state.getD {}).firstCapKb ∧
    secondReserve=reserve second (secondFloorKb ceiling percent) (state.getD {}).secondReserveKb
      (state.getD {}).secondCapKb ∧
    (computePairSplit ceiling percent first second state).1 =
      ⟨ceiling,max 1 (ceiling-secondReserve),max 1 (ceiling-firstReserve)⟩ ∧
    (computePairSplit ceiling percent first second state).2 =
      state.map fun _ => ⟨firstReserve,secondReserve,max 1 (ceiling-secondReserve),
        max 1 (ceiling-firstReserve)⟩ := by
  have hmax : max 0 ceiling=ceiling := by omega
  have hne : ceiling≠0 := by omega
  unfold computePairSplit
  rw [hmax]
  rw [if_neg hne]
  exact ⟨_,_,rfl,rfl,rfl,rfl⟩

/-- What one split promises. -/
structure SplitSound (ceiling percent : Int) (first second : EngineDemand)
    (split : PairSplit) (state : Option PairState) : Prop where
  firstCap : 1 ≤ split.firstCapKb ∧ split.firstCapKb≤ceiling
  secondCap : 1 ≤ split.secondCapKb ∧ split.secondCapKb≤ceiling
  firstShare : first.active=true → firstFloorKb ceiling percent ≤ split.firstCapKb
  secondShare : second.active=true → secondFloorKb ceiling percent ≤ split.secondCapKb
  firstReserve : ∀ s∈state, 0 ≤ s.firstReserveKb ∧
    s.firstReserveKb≤firstFloorKb ceiling percent
  secondReserve : ∀ s∈state, 0 ≤ s.secondReserveKb ∧
    s.secondReserveKb ≤ secondFloorKb ceiling percent
  firstLends : first.active=false → split.secondCapKb=ceiling
  secondLends : second.active=false → split.firstCapKb=ceiling

theorem computePairSplit_sound (h : 2≤ceiling) (percent : Int) (first second : EngineDemand)
    (state : Option PairState) :
    SplitSound ceiling percent first second
      (computePairSplit ceiling percent first second state).1
      (computePairSplit ceiling percent first second state).2 := by
  have hfirst := firstFloorKb_pos ceiling percent
  have hsecond := secondFloorKb_pos ceiling percent
  have hsum := floors_add h percent
  have hone : 1≤ceiling := by omega
  obtain ⟨r₁,r₂,hr₁,hr₂,hsplit,hstate⟩ :=
    computePairSplit_eq hone percent first second state
  have hr₁pos : 0≤r₁ := by
    rw [hr₁]
    exact reserve_nonneg hfirst
  have hr₂pos : 0≤r₂ := by
    rw [hr₂]
    exact reserve_nonneg hsecond
  have hr₁le : r₁≤firstFloorKb ceiling percent := by
    rw [hr₁]
    exact reserve_le (Int.le_trans (by decide) hfirst)
  have hr₂le : r₂ ≤ secondFloorKb ceiling percent := by
    rw [hr₂]
    exact reserve_le (Int.le_trans (by decide) hsecond)
  rw [hsplit,hstate]
  refine ⟨?_,?_,?_,?_,?_,?_,?_,?_⟩
  · dsimp only
    omega
  · dsimp only
    omega
  · intro _
    dsimp only
    omega
  · intro _
    dsimp only
    omega
  · intro s hs
    obtain ⟨_,-,rfl⟩ := Option.mem_map.mp hs
    exact ⟨hr₁pos,hr₁le⟩
  · intro s hs
    obtain ⟨_,-,rfl⟩ := Option.mem_map.mp hs
    exact ⟨hr₂pos,hr₂le⟩
  · intro hidle
    have hzero : r₁=0 := hr₁.trans (reserve_idle hidle)
    dsimp only
    omega
  · intro hidle
    have hzero : r₂=0 := hr₂.trans (reserve_idle hidle)
    dsimp only
    omega

open Math

variable {ceiling percent : Int}

/-- The states of a split between ticks; the `n`-th tick divides `ceilings n`. -/
def PairRun (ceilings : ℕ → Int) (percent : Int) (demands : ℕ → EngineDemand × EngineDemand)
    (states : ℕ → PairState) : Prop :=
  ∀ n, states (n+1)=(states n).next (ceilings n) percent (demands n)

/-- Both sides press their caps in the tick. -/
def BothPress (demands : EngineDemand × EngineDemand) (prev : PairState) : Prop :=
  Presses demands.1 prev.firstCapKb ∧ Presses demands.2 prev.secondCapKb

/-- Both sides hold back their whole share. -/
def Settled (ceiling percent : Int) (s : PairState) : Prop :=
  s.firstReserveKb = firstFloorKb ceiling percent ∧
    s.secondReserveKb = secondFloorKb ceiling percent

theorem next_eq (h : 1≤ceiling) (percent : Int) (prev : PairState)
    (demands : EngineDemand × EngineDemand) :
    (prev.next ceiling percent demands).firstReserveKb =
      reserve demands.1 (firstFloorKb ceiling percent) prev.firstReserveKb prev.firstCapKb ∧
    (prev.next ceiling percent demands).secondReserveKb =
      reserve demands.2 (secondFloorKb ceiling percent) prev.secondReserveKb prev.secondCapKb ∧
    (prev.next ceiling percent demands).firstCapKb =
      max 1 (ceiling-(prev.next ceiling percent demands).secondReserveKb) ∧
    (prev.next ceiling percent demands).secondCapKb =
      max 1 (ceiling-(prev.next ceiling percent demands).firstReserveKb) := by
  obtain ⟨r₁,r₂,hr₁,hr₂,-,hstate⟩ :=
    computePairSplit_eq h percent demands.1 demands.2 (some prev)
  unfold PairState.next
  rw [hstate]
  exact ⟨hr₁,hr₂,rfl,rfl⟩

theorem split_caps_eq (h : 1≤ceiling) (percent : Int) (prev : PairState)
    (demands : EngineDemand × EngineDemand) :
    (computePairSplit ceiling percent demands.1 demands.2 (some prev)).1 =
      ⟨ceiling,(prev.next ceiling percent demands).firstCapKb,
        (prev.next ceiling percent demands).secondCapKb⟩ := by
  obtain ⟨r₁,r₂,-,-,hsplit,hstate⟩ :=
    computePairSplit_eq h percent demands.1 demands.2 (some prev)
  unfold PairState.next
  rw [hsplit,hstate]
  rfl

theorem floors_le (h : 1≤ceiling) (percent : Int) :
    firstFloorKb ceiling percent≤ceiling ∧ secondFloorKb ceiling percent≤ceiling := by
  unfold firstFloorKb secondFloorKb
  omega

/-- From the tick on in which the ceiling stands still, a pressed split settles within as many
ticks as the ceiling has units. -/
theorem PairRun.settled {ceilings : ℕ → Int} {demands : ℕ → EngineDemand × EngineDemand}
    {states : ℕ → PairState} {n : ℕ} (hrun : PairRun ceilings percent demands states) (k : ℕ)
    (hpress : ∀ n,BothPress (demands n) (states n)) (hceiling : 1≤ceiling)
    (hfixed : ∀ m,k ≤ m → ceilings m=ceiling) (hn : k+1+ceiling.toNat≤n) :
    Settled ceiling percent (states n) := by
  have hfirst := firstFloorKb_pos ceiling percent
  have hsecond := secondFloorKb_pos ceiling percent
  have hstep : ∀ j,states (k+j+1) =
      (states (k+j)).next ceiling percent (demands (k+j)) := by
    intro j
    rw [hrun (k+j),hfixed (k+j) (Nat.le_add_right k j)]
  have hcaps : ∀ j,0<(states (k+j+1)).firstCapKb ∧ 0<(states (k+j+1)).secondCapKb := by
    intro j
    obtain ⟨-,-,h₁,h₂⟩ := next_eq hceiling percent (states (k+j)) (demands (k+j))
    rw [hstep j,h₁,h₂]
    omega
  have hreserves : ∀ j,(states (k+j+1)).firstReserveKb =
        reserve (demands (k+j)).1 (firstFloorKb ceiling percent)
          (states (k+j)).firstReserveKb (states (k+j)).firstCapKb ∧
      (states (k+j+1)).secondReserveKb =
        reserve (demands (k+j)).2 (secondFloorKb ceiling percent)
          (states (k+j)).secondReserveKb (states (k+j)).secondCapKb := by
    intro j
    obtain ⟨h₁,h₂,-,-⟩ := next_eq hceiling percent (states (k+j)) (demands (k+j))
    rw [hstep j]
    exact ⟨h₁,h₂⟩
  have hgrow₁ : DoublesTo (firstFloorKb ceiling percent)
      fun j => (states (k+j+1)).firstReserveKb := by
    refine ⟨Int.le_trans (by decide) hfirst,?_,?_⟩
    · rw [(hreserves 0).1]
      exact reserve_pos (hpress (k+0)).1.1 hfirst
    · intro j
      rw [(hreserves (j+1)).1]
      exact reserve_doubles (hpress (k+(j+1))).1 (hcaps j).1
  have hgrow₂ : DoublesTo (secondFloorKb ceiling percent)
      fun j => (states (k+j+1)).secondReserveKb := by
    refine ⟨Int.le_trans (by decide) hsecond,?_,?_⟩
    · rw [(hreserves 0).2]
      exact reserve_pos (hpress (k+0)).2.1 hsecond
    · intro j
      rw [(hreserves (j+1)).2]
      exact reserve_doubles (hpress (k+(j+1))).2 (hcaps j).2
  obtain ⟨hle₁,hle₂⟩ := floors_le hceiling percent
  obtain ⟨j,rfl⟩ : ∃ j, n=k+j+1 := ⟨n-k-1,by omega⟩
  constructor
  · apply le_antisymm
    · rw [(hreserves j).1]
      exact reserve_le (Int.le_trans (by decide) hfirst)
    · exact hgrow₁.bound_le (by omega)
  · apply le_antisymm
    · rw [(hreserves j).2]
      exact reserve_le (Int.le_trans (by decide) hsecond)
    · exact hgrow₂.bound_le (by omega)

theorem Settled.caps (h : 1≤ceiling) {prev : PairState}
    {demands : EngineDemand × EngineDemand}
    (hsettled : Settled ceiling percent (prev.next ceiling percent demands)) :
    (prev.next ceiling percent demands).firstCapKb=firstFloorKb ceiling percent ∧
      (prev.next ceiling percent demands).secondCapKb=secondFloorKb ceiling percent := by
  obtain ⟨-,-,hcap₁,hcap₂⟩ := next_eq h percent prev demands
  rw [hcap₁,hcap₂,hsettled.1,hsettled.2]
  unfold firstFloorKb secondFloorKb
  omega

/-- The demands of the three engines in one tick. -/
structure EngineDemands where
  ed2k : EngineDemand
  usenet : EngineDemand
  bt : EngineDemand

def EngineDemands.outer (d : EngineDemands) : EngineDemand × EngineDemand :=
  (d.ed2k.combine d.usenet, d.bt)

def EngineDemands.inner (d : EngineDemands) : EngineDemand × EngineDemand := (d.ed2k, d.usenet)

theorem planDownload_eq (h : 1≤ceiling) (usenetPercent btPercent : Int) (d : EngineDemands)
    (state : DownloadPlanState) : ∃ outer inner,
    outer=state.bt.next ceiling btPercent d.outer ∧
    inner=state.usenet.next outer.firstCapKb usenetPercent d.inner ∧ 1≤outer.firstCapKb ∧
    planDownload ceiling usenetPercent btPercent d.ed2k d.usenet d.bt state =
      (⟨if d.usenet.active || d.bt.active then inner.firstCapKb else -1,inner.secondCapKb,
        outer.secondCapKb⟩, ⟨outer,inner⟩) := by
  have hcap : 1≤(state.bt.next ceiling btPercent d.outer).firstCapKb := by
    rw [(next_eq h btPercent state.bt d.outer).2.2.1]
    exact le_max_left _ _
  have hpos : 0<ceiling := h
  have houter := split_caps_eq h btPercent state.bt d.outer
  have hinner := split_caps_eq hcap usenetPercent state.usenet d.inner
  refine ⟨_,_,rfl,rfl,hcap,?_⟩
  unfold EngineDemands.outer at houter hcap hinner
  unfold EngineDemands.inner at hinner
  unfold planDownload
  dsimp only at houter hinner ⊢
  rw [houter]
  rw [hinner]
  simp only [hpos,true_and,Bool.or_eq_true]
  rfl

/-- The states of the download plan between ticks. -/
def PlanRun (ceiling usenetPercent btPercent : Int) (demands : ℕ → EngineDemands)
    (states : ℕ → DownloadPlanState) : Prop :=
  ∀ n, states (n+1)=(planDownload ceiling usenetPercent btPercent (demands n).ed2k
    (demands n).usenet (demands n).bt (states n)).2

variable {usenetPercent btPercent : Int} {demands : ℕ → EngineDemands}
  {states : ℕ → DownloadPlanState}

theorem PlanRun.outer (h : 1≤ceiling)
    (hrun : PlanRun ceiling usenetPercent btPercent demands states) :
    PairRun (fun _ => ceiling) btPercent (fun n => (demands n).outer) fun n => (states n).bt := by
  intro n
  obtain ⟨outer,inner,houter,-,-,hplan⟩ :=
    planDownload_eq h usenetPercent btPercent (demands n) (states n)
  dsimp only
  rw [hrun n,hplan]
  exact houter

theorem PlanRun.inner (h : 1≤ceiling)
    (hrun : PlanRun ceiling usenetPercent btPercent demands states) :
    PairRun (fun n => (states (n+1)).bt.firstCapKb) usenetPercent
      (fun n => (demands n).inner) fun n => (states n).usenet := by
  intro n
  obtain ⟨outer,inner,-,hinner,-,hplan⟩ :=
    planDownload_eq h usenetPercent btPercent (demands n) (states n)
  dsimp only
  rw [hrun n,hplan]
  exact hinner

/-- Once both levels press, the three caps share out the ceiling; only an inner line of 1 KB/s is
overrun, by the minimum of each side. -/
theorem PlanRun.shares (h : 2≤ceiling)
    (hrun : PlanRun ceiling usenetPercent btPercent demands states)
    (houter : ∀ n,BothPress (demands n).outer (states n).bt)
    (hinner : ∀ n,BothPress (demands n).inner (states n).usenet) : ∃ N, ∀ n,N≤n →
    let plan := (planDownload ceiling usenetPercent btPercent (demands n).ed2k
      (demands n).usenet (demands n).bt (states n)).1
    Settled ceiling btPercent (states n).bt ∧
    Settled (states n).bt.firstCapKb usenetPercent (states n).usenet ∧
    1≤plan.ed2kBudgetKb ∧ 1≤plan.usenetCapKb ∧ 1≤plan.btCapKb ∧
    (plan.ed2kBudgetKb+plan.usenetCapKb+plan.btCapKb≤ceiling ∨
      plan.ed2kBudgetKb=1 ∧ plan.usenetCapKb=1 ∧ plan.btCapKb=ceiling-1) := by
  have hone : 1≤ceiling := by omega
  have hbt := hrun.outer hone
  have husenet := hrun.inner hone
  have hfirst := firstFloorKb_pos ceiling btPercent
  have hsecond := secondFloorKb_pos ceiling btPercent
  have hsum := floors_add h btPercent
  have hsettledBt : ∀ n,1+ceiling.toNat≤n → Settled ceiling btPercent (states n).bt := by
    intro n hn
    exact hbt.settled 0 houter hone (fun _ _ => rfl) (by omega)
  have hcaps : ∀ n,1+ceiling.toNat≤n →
      (states (n+1)).bt.firstCapKb=firstFloorKb ceiling btPercent ∧
        (states (n+1)).bt.secondCapKb=secondFloorKb ceiling btPercent := by
    intro n hn
    have hnext := hbt n
    dsimp only at hnext
    rw [hnext]
    refine Settled.caps hone ?_
    rw [← hnext]
    exact hsettledBt (n+1) (by omega)
  have hsettledUsenet : ∀ n,1+ceiling.toNat+1+(firstFloorKb ceiling btPercent).toNat≤n →
      Settled (firstFloorKb ceiling btPercent) usenetPercent (states n).usenet := by
    intro n hn
    exact husenet.settled (1+ceiling.toNat) hinner hfirst (fun m hm => (hcaps m hm).1) hn
  refine ⟨2+ceiling.toNat+1+(firstFloorKb ceiling btPercent).toNat,fun n hn => ?_⟩
  obtain ⟨m,rfl⟩ : ∃ m, n=m+1 := ⟨n-1,by omega⟩
  obtain ⟨hcapThis,-⟩ := hcaps m (by omega)
  obtain ⟨hcapFirst,hcapSecond⟩ := hcaps (m+1) (by omega)
  have hboth : ((demands (m+1)).usenet.active || (demands (m+1)).bt.active)=true := by
    have husenet : (demands (m+1)).usenet.active=true := (hinner (m+1)).2.1
    rw [husenet,Bool.true_or]
  obtain ⟨outer,inner,-,hinnerEq,-,hplan⟩ :=
    planDownload_eq hone usenetPercent btPercent (demands (m+1)) (states (m+1))
  have hstate := hrun (m+1)
  rw [hplan] at hstate
  have hout : (states (m+1+1)).bt=outer := by rw [hstate]
  have hin : (states (m+1+1)).usenet=inner := by rw [hstate]
  have hfirstCap : outer.firstCapKb=firstFloorKb ceiling btPercent := by rw [← hout,hcapFirst]
  have hsettledIn : Settled (firstFloorKb ceiling btPercent) usenetPercent inner := by
    rw [← hin]
    exact hsettledUsenet (m+1+1) (by omega)
  rw [hinnerEq,hfirstCap] at hsettledIn
  obtain ⟨hed2k,husenetCap⟩ := hsettledIn.caps hfirst
  rw [← hfirstCap,← hinnerEq] at hed2k husenetCap
  have hbtCap : outer.secondCapKb=secondFloorKb ceiling btPercent := by rw [← hout,hcapSecond]
  have hfirst' := firstFloorKb_pos outer.firstCapKb usenetPercent
  have hsecond' := secondFloorKb_pos outer.firstCapKb usenetPercent
  refine ⟨hsettledBt (m+1) (by omega),?_,?_⟩
  · rw [hcapThis]
    exact hsettledUsenet (m+1) (by omega)
  · rw [hplan]
    dsimp only
    rw [if_pos hboth,hed2k,husenetCap,hbtCap]
    refine ⟨hfirst',hsecond',hsecond,?_⟩
    rcases lt_or_ge outer.firstCapKb 2 with hsmall | hroom
    · have hline : outer.firstCapKb=1 := by omega
      obtain ⟨hone₁,hone₂⟩ := floors_one usenetPercent
      right
      rw [hline,hone₁,hone₂]
      omega
    · have hsum' := floors_add hroom usenetPercent
      omega

/-- A split keeps each side within the line and gives it its share; sides that press their caps
settle at the floors, which share out the ceiling; so does the nested plan. -/
theorem bandwidth_shared (ceiling percent : Int) (h : 2 ≤ ceiling) :
    (∀ first second state, SplitSound ceiling percent first second
      (computePairSplit ceiling percent first second state).1
      (computePairSplit ceiling percent first second state).2) ∧
    (∀ demands states, PairRun (fun _ => ceiling) percent demands states →
      (∀ n, BothPress (demands n) (states n)) → ∃ N, ∀ n, N ≤ n →
        Settled ceiling percent (states n) ∧
        (computePairSplit ceiling percent (demands n).1 (demands n).2 (some (states n))).1.firstCapKb +
          (computePairSplit ceiling percent (demands n).1 (demands n).2
            (some (states n))).1.secondCapKb ≤ ceiling) ∧
    ∀ usenetPercent demands states, PlanRun ceiling usenetPercent percent demands states →
      (∀ n, BothPress (demands n).outer (states n).bt) →
      (∀ n, BothPress (demands n).inner (states n).usenet) → ∃ N, ∀ n, N ≤ n →
        let plan := (planDownload ceiling usenetPercent percent (demands n).ed2k
          (demands n).usenet (demands n).bt (states n)).1
        Settled ceiling percent (states n).bt ∧
        Settled (states n).bt.firstCapKb usenetPercent (states n).usenet ∧
        1≤plan.ed2kBudgetKb ∧ 1≤plan.usenetCapKb ∧ 1≤plan.btCapKb ∧
        (plan.ed2kBudgetKb+plan.usenetCapKb+plan.btCapKb≤ceiling ∨
          plan.ed2kBudgetKb=1 ∧ plan.usenetCapKb=1 ∧ plan.btCapKb=ceiling-1) := by
  have hone : 1≤ceiling := by omega
  refine ⟨computePairSplit_sound h percent,?_,?_⟩
  · intro demands states hrun hpress
    refine ⟨1+ceiling.toNat,fun n hn => ?_⟩
    have hsettled : ∀ m,n ≤ m → Settled ceiling percent (states m) := by
      intro m hm
      exact hrun.settled 0 hpress hone (fun _ _ => rfl) (by omega)
    have hnext := hsettled (n+1) (Nat.le_succ n)
    rw [hrun n] at hnext
    obtain ⟨hcap₁,hcap₂⟩ := hnext.caps hone
    refine ⟨hsettled n (Nat.le_refl n),?_⟩
    rw [split_caps_eq hone percent (states n) (demands n)]
    dsimp only
    rw [hcap₁,hcap₂,floors_add h percent]
  · intro usenetPercent demands states hrun houter hinner
    exact hrun.shares h houter hinner

/-- An engine that takes all it is given of a line of 2 KB/s. -/
def busyEngine : EngineDemand := ⟨true,4096,4096⟩

def busyPair : ℕ → PairState
  | 0 => {}
  | n+1 => (busyPair n).next 2 50 (busyEngine, busyEngine)

theorem busyPair_presses (n : ℕ) : BothPress (busyEngine, busyEngine) (busyPair n) := by
  have hcaps : (busyPair n).firstCapKb≤2 ∧ (busyPair n).secondCapKb≤2 := by
    cases n with
    | zero => decide
    | succ n =>
      obtain ⟨hr₁,hr₂,hcap₁,hcap₂⟩ := next_eq (by decide : (1 : Int)≤2) 50 (busyPair n)
        (busyEngine, busyEngine)
      have hnonneg₁ := hr₁ ▸ reserve_nonneg (firstFloorKb_pos 2 50)
      have hnonneg₂ := hr₂ ▸ reserve_nonneg (secondFloorKb_pos 2 50)
      rw [busyPair,hcap₁,hcap₂]
      omega
  have hused : max busyEngine.avgKb busyEngine.recentKb=4 := by decide
  unfold BothPress Presses
  rw [hused]
  exact ⟨⟨rfl,by omega⟩,rfl,by omega⟩

theorem busyPair_settles : ∃ N, ∀ n, N ≤ n → Settled 2 50 (busyPair n) ∧
    (computePairSplit 2 50 busyEngine busyEngine (some (busyPair n))).1.firstCapKb +
      (computePairSplit 2 50 busyEngine busyEngine (some (busyPair n))).1.secondCapKb ≤ 2 :=
  (bandwidth_shared 2 50 (by decide)).2.1 (fun _ => (busyEngine, busyEngine)) busyPair
    (fun _ => rfl) busyPair_presses

end EmuleQt.Transfer
