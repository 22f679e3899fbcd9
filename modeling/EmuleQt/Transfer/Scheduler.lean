import Mathlib.Algebra.Group.Int.Defs
import Mathlib.Data.Finset.Lattice.Fold
import Mathlib.Order.Lattice.Nat
import EmuleQt.Framework.Run

namespace EmuleQt.Transfer.Scheduler

open Framework

inductive ScheduleAction
  | None | SetUpload | SetDownload | SetSources | SetCon5Sec | SetConnections | CatStop
  | CatResume | UsenetPause | UsenetResume | UsenetDownload | UsenetCatPause | UsenetCatResume
  | BtPause | BtResume | BtDownload | BtUpload
  deriving DecidableEq, Repr

/-- The day codes; a stored code that is none of them holds on every day. -/
inductive ScheduleDay
  | Daily | Monday | Tuesday | Wednesday | Thursday | Friday | Saturday | Sunday
  | MonToFri | MonToSat | SatSun | other (code : Nat)
  deriving DecidableEq, Repr

/-- A schedule entry, its values as `toInt` reads them: `none` where one is empty or not a
number. -/
structure ScheduleEntry where
  startTime : Int
  endTime : Int
  day : ScheduleDay
  actions : Vector ScheduleAction 16
  values : Vector (Option Int) 16
  enabled : Bool

/-- The networks whose runtime pause or resume a window can hold. -/
inductive Network
  | Usenet | Bt
  deriving DecidableEq, Repr

/-- The calls of `ScheduleNetworkActions`; pause and restore are one call for each network. -/
inductive NetworkCall
  | pause (net : Network) (paused persistent : Bool)
  | restore (net : Network)
  | usenetCategory (category : Int) (paused : Bool)
  | ed3kCategory (category : Int) (paused : Bool)
  deriving DecidableEq, Repr

/-- The fields of `Preferences::ScheduledLimits`. -/
inductive Limit
  | maxUpload | maxDownload | maxSourcesPerFile | maxConsPerFive | maxConnections
  | usenetMaxDownloadKb | btMaxDownloadKb | btMaxUploadKb
  deriving DecidableEq, Repr

/-- Local time at a check, with Monday as day 1. -/
structure Now where
  dayOfWeek : Nat
  hour : Nat
  minute : Nat

/-- A set of indexes in the order of a `std::set`. -/
def ascending (indexes : Finset Nat) : List Nat :=
  (List.range (indexes.sup id + 1)).filter (· ∈ indexes)

structure State where
  lastCheckedMinute : Nat := 60
  /-- Entries whose window was open at the last check. -/
  openWindows : Finset Nat := ∅
  /-- The entry whose runtime pause or resume is in force, `none` for -1. -/
  holder : Network → Option Nat := fun _ => none
  limits : Limit → Option Nat := fun _ => none
  /-- Settings stored by entries without end time. -/
  stored : List (Limit × Nat) := []
  /-- What the network sink was told, the latest call first. -/
  calls : List NetworkCall := []

def Network.pauseAction : Network → ScheduleAction
  | .Usenet => .UsenetPause
  | .Bt => .BtPause

def Network.resumeAction : Network → ScheduleAction
  | .Usenet => .UsenetResume
  | .Bt => .BtResume

/-- The actions before the first `None`, with their values. -/
def ScheduleEntry.listed (entry : ScheduleEntry) : List (ScheduleAction × Option Int) :=
  (entry.actions.toList.zip entry.values.toList).takeWhile (fun a => a.1 ≠ .None)

/-- The limit an action sets, its value in the field's width, and whether an entry without end
time stores it. -/
def ScheduleAction.limit (v : Int) : ScheduleAction → Option (Limit × Nat × Bool)
  | .SetUpload => some (.maxUpload, (v % 2 ^ 32).toNat, true)
  | .SetDownload => some (.maxDownload, (v % 2 ^ 32).toNat, true)
  | .SetSources => some (.maxSourcesPerFile, (v % 2 ^ 16).toNat, true)
  | .SetCon5Sec => some (.maxConsPerFive, (v % 2 ^ 16).toNat, false)
  | .SetConnections => some (.maxConnections, (v % 2 ^ 16).toNat, true)
  | .UsenetDownload => some (.usenetMaxDownloadKb, v.toNat, false)
  | .BtDownload => some (.btMaxDownloadKb, v.toNat, true)
  | .BtUpload => some (.btMaxUploadKb, v.toNat, true)
  | _ => none

def State.call (s : State) (c : NetworkCall) : State :=
  { s with calls := c :: s.calls }

/-- One action of `activateSchedule`; what it asks of the download queue is left out. -/
def activateAction (makeDefault : Bool) (s : State) (a : ScheduleAction × Option Int) :
    State :=
  match a.2 with
  | none => s
  | some v =>
    match a.1, a.1.limit v with
    | .CatStop, _ => s.call (.ed3kCategory v true)
    | .CatResume, _ => s.call (.ed3kCategory v false)
    | _, some (limit, value, storable) =>
      { s with
        limits := Function.update s.limits limit (some value)
        stored := if makeDefault && storable then (limit, value)::s.stored else s.stored }
    | _, none => s

def activateSchedule (entry : ScheduleEntry) (makeDefault : Bool) (s : State) : State :=
  entry.listed.foldl (activateAction makeDefault) s

/-- The entry's last pause or resume for the network decides. -/
def ScheduleEntry.paused (entry : ScheduleEntry) (net : Network) : Option Bool :=
  entry.listed.foldl (fun paused a =>
    if a.1 = net.pauseAction then some true
    else if a.1 = net.resumeAction then some false else paused) none

def ScheduleEntry.touches (entry : ScheduleEntry) (net : Network) : Bool :=
  entry.listed.any fun a => a.1 = net.pauseAction ∨ a.1 = net.resumeAction

section Entries

-- `localMinute` is the minute of the day of a stored time, as the host's time zone has it.
variable (localMinute : Int → Int) (schedules : List ScheduleEntry)

def applyNetworkActions (index : Nat) (net : Network) (makeDefault : Bool) (s : State) :
    State :=
  match schedules[index]? with
  | none => s
  | some entry =>
    match entry.paused net with
    | none => s
    | some paused =>
      { s.call (.pause net paused makeDefault) with
        holder := Function.update s.holder net (if makeDefault then none else some index) }

/-- The category calls of a window that opens. -/
def categoryCall (s : State) (a : ScheduleAction × Option Int) : State :=
  match a with
  | (.UsenetCatPause, some category) => s.call (.usenetCategory category true)
  | (.UsenetCatResume, some category) => s.call (.usenetCategory category false)
  | _ => s

def activateWindowStart (index : Nat) (makeDefault : Bool) (s : State) : State :=
  match schedules[index]? with
  | none => s
  | some entry =>
    entry.listed.foldl categoryCall <|
      applyNetworkActions schedules index .Bt makeDefault <|
        applyNetworkActions schedules index .Usenet makeDefault s

/-- A window with an end time that pauses or resumes the network. -/
def holds (net : Network) (index : Nat) : Bool :=
  schedules[index]?.any fun entry => entry.endTime ≠ 0 && entry.touches net

/-- The network's part of `windowEnded`: another timed window still open takes over, the last
one first. -/
def releaseHolder (index : Nat) (s : State) (net : Network) : State :=
  if s.holder net≠some index then s
  else
    let s := { s.call (.restore net) with holder := Function.update s.holder net none }
    match (ascending s.openWindows).reverse.find? (holds schedules net) with
    | none => s
    | some next => applyNetworkActions schedules next net false s

def windowEnded (s : State) (index : Nat) : State :=
  [Network.Usenet, .Bt].foldl (releaseHolder schedules index) s

/-- A window found open now opens once. -/
def windowOpened (s : State) (index : Nat) : State :=
  if index∈s.openWindows then s
  else
    let makeDefault := schedules[index]?.any fun entry => entry.endTime == 0
    activateWindowStart schedules index makeDefault
      { s with openWindows := insert index s.openWindows }

/-- The day test of `check`. -/
def ScheduleDay.includes (dow : Nat) : ScheduleDay → Bool
  | .Monday => dow = 1
  | .Tuesday => dow = 2
  | .Wednesday => dow = 3
  | .Thursday => dow = 4
  | .Friday => dow = 5
  | .Saturday => dow = 6
  | .Sunday => dow = 7
  | .MonToFri => dow ≤ 5
  | .MonToSat => dow ≤ 6
  | .SatSun => 6 ≤ dow
  | .Daily | .other _ => true

/-- A span whose start is after its end runs over midnight. -/
def ScheduleEntry.contains (entry : ScheduleEntry) (now : Now) : Bool :=
  let it1 := localMinute entry.startTime
  let it2 := localMinute entry.endTime
  let itn : Int := now.hour * 60 + now.minute
  entry.day.includes now.dayOfWeek &&
    if it1 ≤ it2 then it1 ≤ itn ∧ itn < it2 else it1 ≤ itn ∨ itn < it2

def ScheduleEntry.isOpen (now : Now) (entry : ScheduleEntry) : Bool :=
  entry.enabled && entry.actions[0] ≠ .None && entry.contains localMinute now

def openAt (now : Now) : Finset Nat :=
  (Finset.range schedules.length).filter fun i =>
    schedules[i]?.any (ScheduleEntry.isOpen localMinute now)

def clearOverrides (s : State) : State := { s with limits := fun _ => none }

/-- `releaseNetworks` for one network. -/
def restoreHeld (s : State) (net : Network) : State :=
  if (s.holder net).isSome then s.call (.restore net) else s

def releaseNetworks (s : State) : State :=
  { [Network.Usenet, .Bt].foldl restoreHeld s with
    holder := fun _ => none
    openWindows := ∅
    lastCheckedMinute := 60 }

def stop (s : State) : State := releaseNetworks (clearOverrides s)

def applyLimits (now : Now) (s : State) : State :=
  schedules.foldl (fun s entry =>
    if entry.isOpen localMinute now then activateSchedule entry (entry.endTime == 0) s else s) s

/-- The window edges: ends first, so that a window opening in the same minute wins. -/
def moveWindows (opened : Finset Nat) (s : State) : State :=
  let ended := ascending (s.openWindows \ opened)
  let s := ended.foldl (windowEnded schedules) { s with openWindows := s.openWindows ∩ opened }
  (ascending opened).foldl (windowOpened schedules) s

/-- Some entry is enabled, and the check is forced or the first one in its minute. -/
def evaluates (now : Now) (forceCheck : Bool) (s : State) : Bool :=
  schedules.any (·.enabled) && (forceCheck || now.minute ≠ s.lastCheckedMinute)

def check (now : Now) (forceCheck : Bool) (s : State) : State :=
  if schedules.any (·.enabled) = false then stop s
  else if evaluates schedules now forceCheck s = false then s
  else
    let s := clearOverrides { s with lastCheckedMinute := now.minute }
    moveWindows schedules (openAt localMinute schedules now)
      (applyLimits localMinute schedules now s)

/-- What happens to a scheduler whose entries stay. -/
inductive Operation
  | check (now : Now) (forceCheck : Bool)
  | releaseNetworks
  | stop

def step (s : State) : Operation → State
  | .check now forceCheck => check localMinute schedules now forceCheck s
  | .releaseNetworks => releaseNetworks s
  | .stop => stop s

end Entries

def NetworkCall.isFor (net : Network) : NetworkCall → Bool
  | .pause n _ _ | .restore n => n=net
  | .usenetCategory _ _ | .ed3kCategory _ _ => false

/-- The last pause, resume or restore the network got. -/
def State.lastCommand (s : State) (net : Network) : Option NetworkCall :=
  s.calls.find? (NetworkCall.isFor net)

/-- The last command undoes a window or was stored, unless there was none. -/
def Free (schedules : List ScheduleEntry) (s : State) (net : Network) : Prop :=
  s.lastCommand net = none ∨ s.lastCommand net = some (.restore net) ∨
    ∃ (i : Nat) (entry : ScheduleEntry) (paused : Bool), schedules[i]? = some entry ∧
      entry.endTime = 0 ∧ entry.paused net = some paused ∧
      s.lastCommand net = some (.pause net paused true)

/-- The timed window `i` holds the network, and its last pause or resume is in force. -/
def HeldBy (schedules : List ScheduleEntry) (s : State) (net : Network) (i : Nat) : Prop :=
  ∃ entry paused, schedules[i]? = some entry ∧ entry.endTime≠0 ∧
    entry.paused net=some paused ∧ s.lastCommand net=some (.pause net paused false)

/-- The network is free, or one of the windows in `live` holds it. -/
structure Settled (schedules : List ScheduleEntry) (live : Finset Nat) (s : State)
    (net : Network) : Prop where
  free : s.holder net = none → Free schedules s net
  held : ∀ i, s.holder net = some i → i ∈ live ∧ HeldBy schedules s net i

section Networks

variable {localMinute : Int → Int} {schedules : List ScheduleEntry} {s t : State}
  {net other : Network} {live more : Finset Nat} {i : Nat}

theorem mem_ascending {indexes : Finset Nat} : i∈ascending indexes ↔ i∈indexes := by
  rw [ascending,List.mem_filter,List.mem_range,decide_eq_true_eq,Nat.lt_succ_iff]
  exact and_iff_right_of_imp fun hi => Finset.le_sup (f := id) hi

theorem ascending_toFinset (indexes : Finset Nat) : (ascending indexes).toFinset=indexes := by
  ext i
  rw [List.mem_toFinset,mem_ascending]

theorem paused_isSome (entry : ScheduleEntry) (net : Network) :
    (entry.paused net).isSome=entry.touches net := by
  have hfold : ∀ (l : List (ScheduleAction × Option Int)) (p : Option Bool),
      (l.foldl (fun paused a => if a.1=net.pauseAction then some true
        else if a.1=net.resumeAction then some false else paused) p).isSome =
      (p.isSome || l.any fun a => a.1=net.pauseAction ∨ a.1=net.resumeAction) := by
    intro l
    induction l with
    | nil => simp
    | cons a l ih =>
      intro p
      rw [List.foldl_cons,ih,List.any_cons,← Bool.or_assoc]
      congr 1
      by_cases hp : a.1=net.pauseAction
      · simp [hp]
      by_cases hr : a.1=net.resumeAction
      · rw [if_neg hp,if_pos hr]
        simp [hr]
      · rw [if_neg hp,if_neg hr]
        simp [hp,hr]
  rw [ScheduleEntry.paused,hfold]
  rfl

theorem Settled.congr (h : Settled schedules live s net) (hholder : t.holder net=s.holder net)
    (hlast : t.lastCommand net=s.lastCommand net) : Settled schedules live t net where
  free hnone := by
    simpa [Free,hlast] using h.free (hholder ▸ hnone)
  held i hi := by
    simpa [HeldBy,hlast] using h.held i (hholder ▸ hi)

theorem Settled.mono (h : Settled schedules live s net) (hsub : live ⊆ more) :
    Settled schedules more s net where
  free := h.free
  held i hi := ⟨hsub (h.held i hi).1,(h.held i hi).2⟩

variable (net) in
theorem lastCommand_call (c : NetworkCall) : (s.call c).lastCommand net =
    if c.isFor net then some c else s.lastCommand net := by
  cases hc : c.isFor net <;> simp [State.lastCommand,State.call,hc]

theorem settled_applyNetworkActions (h : Settled schedules live s net) (hi : i∈live)
    (makeDefault : Bool)
    (hdefault : ∀ entry,schedules[i]? = some entry → (makeDefault=true ↔ entry.endTime=0)) :
    Settled schedules live (applyNetworkActions schedules i net makeDefault s) net := by
  unfold applyNetworkActions
  split
  case h_1 => exact h
  case h_2 entry hentry =>
    split
    case h_1 => exact h
    case h_2 paused hpaused =>
      have hlast : (s.call (.pause net paused makeDefault)).lastCommand net =
          some (.pause net paused makeDefault) := by
        rw [lastCommand_call,if_pos (by simp [NetworkCall.isFor])]
      cases makeDefault with
      | true =>
        have hzero := (hdefault entry hentry).mp rfl
        exact ⟨fun _ => .inr (.inr ⟨i,entry,paused,hentry,hzero,hpaused,hlast⟩),by simp⟩
      | false =>
        have hend : entry.endTime≠0 := fun hzero => by
          simpa using (hdefault entry hentry).mpr hzero
        refine ⟨by simp,fun j hj => ?_⟩
        obtain rfl : i=j := by simpa using hj
        exact ⟨hi,entry,paused,hentry,hend,hpaused,hlast⟩

theorem applyNetworkActions_other (schedules : List ScheduleEntry) (i : Nat) (s : State)
    (makeDefault : Bool) (hne : other≠net) :
    let t := applyNetworkActions schedules i net makeDefault s;
    t.holder other=s.holder other ∧ t.lastCommand other=s.lastCommand other := by
  unfold applyNetworkActions
  split
  case h_1 => exact ⟨rfl,rfl⟩
  case h_2 entry hentry =>
    split
    case h_1 => exact ⟨rfl,rfl⟩
    case h_2 paused hpaused =>
      refine ⟨Function.update_of_ne hne _ _,?_⟩
      have hcall := lastCommand_call (s := s) other (.pause net paused makeDefault)
      rw [if_neg (by simpa [NetworkCall.isFor] using hne.symm)] at hcall
      exact hcall

@[simp] theorem applyNetworkActions_openWindows {makeDefault : Bool} :
    (applyNetworkActions schedules i net makeDefault s).openWindows=s.openWindows := by
  unfold applyNetworkActions
  split
  · rfl
  · split <;> rfl

theorem holds_iff : holds schedules net i=true ↔
    ∃ entry, schedules[i]? = some entry ∧ entry.endTime≠0 ∧ entry.touches net=true := by
  simp [holds,Option.any_eq_true]

theorem settled_releaseHolder (h : Settled schedules (insert i live) s net)
    (hopen : s.openWindows ⊆ live) :
    Settled schedules live (releaseHolder schedules i s net) net := by
  unfold releaseHolder
  split
  case isTrue hne =>
    refine ⟨h.free,fun j hj => ?_⟩
    obtain ⟨hlive,hheld⟩ := h.held j hj
    have hji : j≠i := fun hji => hne (hji ▸ hj)
    exact ⟨(Finset.mem_insert.mp hlive).resolve_left hji,hheld⟩
  case isFalse =>
    set t : State := { s.call (.restore net) with holder := Function.update s.holder net none }
    have hlast : t.lastCommand net=some (.restore net) := by
      have hcall := lastCommand_call (s := s) net (.restore net)
      rwa [if_pos (by simp [NetworkCall.isFor])] at hcall
    have hnone : t.holder net=none := Function.update_self _ _ _
    have hfree : Settled schedules live t net :=
      ⟨fun _ => .inr (.inl hlast),fun j hj => by simp [hnone] at hj⟩
    cases hnext : (ascending t.openWindows).reverse.find? (holds schedules net) with
    | none => simpa [hnext] using hfree
    | some next =>
      have hmem : next∈t.openWindows :=
        mem_ascending.mp (List.mem_reverse.mp (List.mem_of_find?_eq_some hnext))
      obtain ⟨entry,hentry,hend,-⟩ := holds_iff.mp (List.find?_some hnext)
      have happly := settled_applyNetworkActions hfree (hopen hmem) false fun e he => by
        obtain rfl : entry=e := by simpa [hentry] using he
        simp [hend]
      simpa [hnext] using happly

theorem releaseHolder_other (schedules : List ScheduleEntry) (i : Nat) (s : State)
    (hne : other≠net) :
    let t := releaseHolder schedules i s net;
    t.holder other=s.holder other ∧ t.lastCommand other=s.lastCommand other := by
  unfold releaseHolder
  split
  case isTrue => exact ⟨rfl,rfl⟩
  case isFalse =>
    set t : State := { s.call (.restore net) with holder := Function.update s.holder net none }
    have hholder : t.holder other=s.holder other := Function.update_of_ne hne _ _
    have hlast : t.lastCommand other=s.lastCommand other := by
      have hcall := lastCommand_call (s := s) other (.restore net)
      rwa [if_neg (by simpa [NetworkCall.isFor] using hne.symm)] at hcall
    cases hnext : (ascending t.openWindows).reverse.find? (holds schedules net) with
    | none => simpa [hnext] using And.intro hholder hlast
    | some next =>
      obtain ⟨happlyHolder,happlyLast⟩ := applyNetworkActions_other schedules next t false hne
      have happly := And.intro (happlyHolder.trans hholder) (happlyLast.trans hlast)
      simpa [hnext] using happly

@[simp] theorem releaseHolder_openWindows :
    (releaseHolder schedules i s net).openWindows=s.openWindows := by
  unfold releaseHolder
  split
  · rfl
  · dsimp only
    split
    · rfl
    · simp [State.call]

/-- Both networks are settled. -/
def AllSettled (schedules : List ScheduleEntry) (live : Finset Nat) (s : State) : Prop :=
  ∀ net, Settled schedules live s net

theorem windowEnded_openWindows (schedules : List ScheduleEntry) (s : State) (i : Nat) :
    (windowEnded schedules s i).openWindows=s.openWindows := by
  simp [windowEnded]

theorem allSettled_windowEnded (h : AllSettled schedules (insert i live) s)
    (hopen : s.openWindows ⊆ live) : AllSettled schedules live (windowEnded schedules s i) := by
  set t := releaseHolder schedules i s .Usenet with ht
  have hended : windowEnded schedules s i=releaseHolder schedules i t .Bt := rfl
  have hopenT : t.openWindows ⊆ live := by simpa [ht] using hopen
  intro net
  rw [hended]
  cases net with
  | Usenet =>
    obtain ⟨hholder,hlast⟩ := releaseHolder_other schedules i t
      (show Network.Usenet ≠ .Bt by decide)
    exact (settled_releaseHolder (h .Usenet) hopen).congr hholder hlast
  | Bt =>
    obtain ⟨hholder,hlast⟩ := releaseHolder_other schedules i s
      (show Network.Bt ≠ .Usenet by decide)
    exact settled_releaseHolder ((h .Bt).congr hholder hlast) hopenT

theorem allSettled_ends (ended : List Nat)
    (h : AllSettled schedules (ended.toFinset ∪ s.openWindows) s) :
    let t := ended.foldl (windowEnded schedules) s;
    t.openWindows=s.openWindows ∧ AllSettled schedules s.openWindows t := by
  induction ended generalizing s with
  | nil => exact ⟨rfl,by simpa using h⟩
  | cons i ended ih =>
    have hopen := windowEnded_openWindows schedules s i
    have hone : AllSettled schedules (ended.toFinset ∪ s.openWindows)
        (windowEnded schedules s i) := by
      refine allSettled_windowEnded ?_ Finset.subset_union_right
      simpa [Finset.insert_union] using h
    have hrest := ih (s := windowEnded schedules s i) (by rwa [hopen])
    rwa [hopen] at hrest

theorem categoryCall_frame (listed : List (ScheduleAction × Option Int)) :
    let t := listed.foldl categoryCall s;
    t.openWindows=s.openWindows ∧ t.holder=s.holder ∧
      ∀ net,t.lastCommand net=s.lastCommand net := by
  induction listed generalizing s with
  | nil => exact ⟨rfl,rfl,fun _ => rfl⟩
  | cons a listed ih =>
    obtain ⟨hopen,hholder,hlast⟩ := ih (s := categoryCall s a)
    have hone : (categoryCall s a).openWindows=s.openWindows ∧
        (categoryCall s a).holder=s.holder ∧
        ∀ net,(categoryCall s a).lastCommand net=s.lastCommand net := by
      unfold categoryCall
      split <;> exact ⟨rfl,rfl,fun _ => rfl⟩
    exact ⟨hopen.trans hone.1,hholder.trans hone.2.1,
      fun net => (hlast net).trans (hone.2.2 net)⟩

theorem windowOpened_openWindows (schedules : List ScheduleEntry) (s : State) (i : Nat) :
    (windowOpened schedules s i).openWindows=insert i s.openWindows := by
  unfold windowOpened
  split
  case isTrue hmem => exact (Finset.insert_eq_of_mem hmem).symm
  case isFalse =>
    dsimp only [activateWindowStart]
    split
    · rfl
    · rw [(categoryCall_frame _).1,applyNetworkActions_openWindows,
        applyNetworkActions_openWindows]

theorem allSettled_windowOpened (h : AllSettled schedules s.openWindows s) :
    AllSettled schedules (insert i s.openWindows) (windowOpened schedules s i) := by
  have hmore : AllSettled schedules (insert i s.openWindows) s := fun net =>
    (h net).mono (Finset.subset_insert _ _)
  unfold windowOpened
  split
  case isTrue => exact hmore
  case isFalse =>
    dsimp only [activateWindowStart]
    split
    case h_1 => exact fun net => (hmore net).congr rfl rfl
    case h_2 entry hentry =>
      set makeDefault := schedules[i]?.any fun entry => entry.endTime == 0 with hmake
      have hdefault : ∀ e,schedules[i]? = some e → (makeDefault=true ↔ e.endTime=0) := by
        intro e he
        simp [hmake,he]
      set opened : State := { s with openWindows := insert i s.openWindows }
      set usenet := applyNetworkActions schedules i .Usenet makeDefault opened
      have hmem : i∈insert i s.openWindows := Finset.mem_insert_self _ _
      have hopened : AllSettled schedules (insert i s.openWindows) opened := fun net =>
        (hmore net).congr rfl rfl
      have hbt : AllSettled schedules (insert i s.openWindows)
          (applyNetworkActions schedules i .Bt makeDefault usenet) := by
        intro net
        cases net with
        | Usenet =>
          obtain ⟨hholder,hlast⟩ := applyNetworkActions_other schedules i usenet makeDefault
            (show Network.Usenet ≠ .Bt by decide)
          have husenet := settled_applyNetworkActions (hopened .Usenet) hmem makeDefault hdefault
          exact husenet.congr hholder hlast
        | Bt =>
          obtain ⟨hholder,hlast⟩ := applyNetworkActions_other schedules i opened makeDefault
            (show Network.Bt ≠ .Usenet by decide)
          have hbt := (hopened .Bt).congr hholder hlast
          exact settled_applyNetworkActions hbt hmem makeDefault hdefault
      obtain ⟨-,hholder,hlast⟩ := categoryCall_frame (s := applyNetworkActions schedules i .Bt
        makeDefault usenet) entry.listed
      exact fun net => (hbt net).congr (congrFun hholder net) (hlast net)

theorem allSettled_openings (opened : List Nat) (h : AllSettled schedules s.openWindows s) :
    let t := opened.foldl (windowOpened schedules) s;
    t.openWindows=opened.toFinset ∪ s.openWindows ∧ AllSettled schedules t.openWindows t := by
  induction opened generalizing s with
  | nil => exact ⟨by simp,h⟩
  | cons i opened ih =>
    have hopen := windowOpened_openWindows schedules s i
    have hone := ih (s := windowOpened schedules s i) (by
      rw [hopen]
      exact allSettled_windowOpened h)
    refine ⟨?_,hone.2⟩
    rw [List.foldl_cons,hone.1,hopen]
    simp [Finset.insert_union,Finset.union_insert]

theorem moveWindows_spec (opened : Finset Nat) (h : AllSettled schedules s.openWindows s) :
    let t := moveWindows schedules opened s;
    t.openWindows=opened ∧ AllSettled schedules opened t := by
  set kept : State := { s with openWindows := s.openWindows ∩ opened }
  have hkept : AllSettled schedules
      ((ascending (s.openWindows \ opened)).toFinset ∪ kept.openWindows) kept := by
    intro net
    refine ((h net).mono (fun i hi => ?_)).congr rfl rfl
    rw [ascending_toFinset,Finset.mem_union,Finset.mem_sdiff,Finset.mem_inter]
    tauto
  obtain ⟨hopenEnds,hends⟩ := allSettled_ends _ hkept
  rw [← hopenEnds] at hends
  obtain ⟨hopen,hopenings⟩ := allSettled_openings (ascending opened) hends
  rw [hopenEnds,ascending_toFinset,
    Finset.union_eq_left.mpr Finset.inter_subset_right] at hopen
  rw [hopen] at hopenings
  exact ⟨hopen,hopenings⟩

theorem activateSchedule_frame (entry : ScheduleEntry) (makeDefault : Bool) :
    let t := activateSchedule entry makeDefault s;
    t.openWindows=s.openWindows ∧ t.holder=s.holder ∧
      ∀ net,t.lastCommand net=s.lastCommand net := by
  unfold activateSchedule
  induction entry.listed generalizing s with
  | nil => exact ⟨rfl,rfl,fun _ => rfl⟩
  | cons a listed ih =>
    obtain ⟨hopen,hholder,hlast⟩ := ih (s := activateAction makeDefault s a)
    have hone : (activateAction makeDefault s a).openWindows=s.openWindows ∧
        (activateAction makeDefault s a).holder=s.holder ∧
        ∀ net,(activateAction makeDefault s a).lastCommand net=s.lastCommand net := by
      unfold activateAction
      split
      · exact ⟨rfl,rfl,fun _ => rfl⟩
      · split <;> exact ⟨rfl,rfl,fun _ => rfl⟩
    exact ⟨hopen.trans hone.1,hholder.trans hone.2.1,
      fun net => (hlast net).trans (hone.2.2 net)⟩

theorem applyLimits_frame (localMinute : Int → Int) (s : State) (now : Now)
    (entries : List ScheduleEntry) :
    let t := applyLimits localMinute entries now s;
    t.openWindows=s.openWindows ∧ t.holder=s.holder ∧
      ∀ net,t.lastCommand net=s.lastCommand net := by
  unfold applyLimits
  induction entries generalizing s with
  | nil => exact ⟨rfl,rfl,fun _ => rfl⟩
  | cons entry entries ih =>
    rw [List.foldl_cons]
    split
    case isFalse => exact ih s
    case isTrue =>
      obtain ⟨hopen,hholder,hlast⟩ := activateSchedule_frame (s := s) entry (entry.endTime == 0)
      obtain ⟨hopenRest,hholderRest,hlastRest⟩ :=
        ih (activateSchedule entry (entry.endTime == 0) s)
      exact ⟨hopenRest.trans hopen,hholderRest.trans hholder,
        fun net => (hlastRest net).trans (hlast net)⟩

theorem allSettled_releaseNetworks (h : AllSettled schedules s.openWindows s) :
    AllSettled schedules ∅ (releaseNetworks s) := by
  have hrestored (net : Network) : (releaseNetworks s).lastCommand net =
      if (s.holder net).isSome then some (.restore net) else s.lastCommand net := by
    have hcalls : (releaseNetworks s).calls =
        ((restoreHeld (restoreHeld s .Usenet) .Bt)).calls := rfl
    rw [State.lastCommand,hcalls]
    cases net <;> cases husenet : s.holder .Usenet <;> cases hbt : s.holder .Bt <;>
      simp [restoreHeld,State.call,husenet,hbt,State.lastCommand,NetworkCall.isFor]
  intro net
  refine ⟨fun _ => ?_,fun i hi => by simp [releaseNetworks] at hi⟩
  cases hholder : s.holder net with
  | none =>
    have hfree := (h net).free hholder
    simpa [Free,hrestored,hholder] using hfree
  | some i => simp [Free,hrestored,hholder]

theorem allSettled_stop (h : AllSettled schedules s.openWindows s) :
    AllSettled schedules ∅ (stop s) :=
  allSettled_releaseNetworks (s := clearOverrides s) fun net => (h net).congr rfl rfl

theorem check_evaluated {now : Now} {forceCheck : Bool}
    (heval : evaluates schedules now forceCheck s=true) :
    check localMinute schedules now forceCheck s =
      moveWindows schedules (openAt localMinute schedules now) (applyLimits localMinute schedules
        now (clearOverrides { s with lastCheckedMinute := now.minute })) := by
  have henabled : schedules.any (·.enabled)=true := (Bool.and_eq_true_iff.mp heval).1
  unfold check
  rw [if_neg (by simp [henabled]),if_neg (by simp [heval])]

theorem check_spec {now : Now} {forceCheck : Bool}
    (heval : evaluates schedules now forceCheck s=true)
    (h : AllSettled schedules s.openWindows s) :
    let t := check localMinute schedules now forceCheck s;
    t.openWindows=openAt localMinute schedules now ∧ AllSettled schedules t.openWindows t := by
  rw [check_evaluated heval]
  obtain ⟨hopen,hholder,hlast⟩ := applyLimits_frame localMinute
    (clearOverrides { s with lastCheckedMinute := now.minute }) now schedules
  set limited := applyLimits localMinute schedules now
    (clearOverrides { s with lastCheckedMinute := now.minute })
  have hlimited : AllSettled schedules limited.openWindows limited := by
    rw [hopen]
    exact fun net => (h net).congr (congrFun hholder net) (hlast net)
  obtain ⟨hmoved,hsettled⟩ :=
    moveWindows_spec (openAt localMinute schedules now) hlimited
  refine ⟨hmoved,?_⟩
  rw [hmoved]
  exact hsettled

theorem allSettled_step (h : AllSettled schedules s.openWindows s) (op : Operation) :
    AllSettled schedules (step localMinute schedules s op).openWindows
      (step localMinute schedules s op) := by
  cases op with
  | releaseNetworks => exact allSettled_releaseNetworks h
  | stop => exact allSettled_stop h
  | check now forceCheck =>
    rw [step]
    by_cases heval : evaluates schedules now forceCheck s=true
    · exact (check_spec heval h).2
    unfold check
    split
    case isTrue => exact allSettled_stop h
    case isFalse =>
      rw [if_pos (by simpa using heval)]
      exact h

theorem allSettled_run (localMinute : Int → Int) (schedules : List ScheduleEntry)
    (ops : List Operation) :
    AllSettled schedules (run (step localMinute schedules) {} ops).openWindows
      (run (step localMinute schedules) {} ops) := by
  have hstep : ∀ s op,AllSettled schedules s.openWindows s → True →
      AllSettled schedules (step localMinute schedules s op).openWindows
        (step localMinute schedules s op) := fun s op h _ => allSettled_step h op
  have hinit : AllSettled schedules ({} : State).openWindows {} := fun net =>
    ⟨fun _ => .inl rfl,fun i hi => by simp at hi⟩
  exact run_invariant hstep hinit (along_true _ _ _)

theorem mem_openAt {now : Now} : i∈openAt localMinute schedules now ↔
    ∃ entry, schedules[i]? = some entry ∧ entry.enabled=true ∧ entry.actions[0] ≠ .None ∧
      entry.contains localMinute now=true := by
  simp only [openAt,Finset.mem_filter,Finset.mem_range,Option.any_eq_true,
    ScheduleEntry.isOpen,Bool.and_eq_true,decide_eq_true_eq,and_assoc]
  constructor
  · rintro ⟨-,entry,h⟩
    exact ⟨entry,h⟩
  · rintro ⟨entry,hentry,h⟩
    exact ⟨(List.getElem?_eq_some_iff.mp hentry).1,entry,hentry,h⟩

end Networks

/-- Whatever checks, releases and stops came before: an evaluated check leaves exactly the
enabled entries with actions whose window contains its time; a network is held by no window or
by an open timed one, whose last pause or resume is then in force; and where no open timed
window touches a network, the last command is the restore, a saved change or none. -/
theorem networks_follow_windows (localMinute : Int → Int) (schedules : List ScheduleEntry)
    (ops : List Operation) :
    let s := run (step localMinute schedules) {} ops;
    (∀ now forceCheck,evaluates schedules now forceCheck s=true → ∀ i,
      i∈(check localMinute schedules now forceCheck s).openWindows ↔
        ∃ entry, schedules[i]? = some entry ∧ entry.enabled=true ∧
          entry.actions[0] ≠ .None ∧ entry.contains localMinute now=true) ∧
    ∀ net,
      (s.holder net=none ∨ ∃ i∈s.openWindows, s.holder net=some i ∧
        ∃ entry paused, schedules[i]? = some entry ∧ entry.endTime≠0 ∧
          entry.touches net=true ∧ entry.paused net=some paused ∧
          s.lastCommand net=some (.pause net paused false)) ∧
      ((∀ i∈s.openWindows,holds schedules net i=false) → Free schedules s net) := by
  intro s
  have hsettled : AllSettled schedules s.openWindows s := allSettled_run localMinute schedules ops
  have hheld (net : Network) (i : Nat) (hi : s.holder net=some i) : i∈s.openWindows ∧
      ∃ entry paused, schedules[i]? = some entry ∧ entry.endTime≠0 ∧
        entry.touches net=true ∧ entry.paused net=some paused ∧
        s.lastCommand net=some (.pause net paused false) := by
    obtain ⟨hopen,entry,paused,hentry,hend,hpaused,hlast⟩ := (hsettled net).held i hi
    have htouches : entry.touches net=true := by
      rw [← paused_isSome,hpaused]
      rfl
    exact ⟨hopen,entry,paused,hentry,hend,htouches,hpaused,hlast⟩
  refine ⟨fun now forceCheck heval i => ?_,fun net => ⟨?_,fun hnone => ?_⟩⟩
  · rw [(check_spec heval hsettled).1,mem_openAt]
  · cases hi : s.holder net with
    | none => exact .inl rfl
    | some i =>
      obtain ⟨hopen,h⟩ := hheld net i hi
      exact .inr ⟨i,hopen,rfl,h⟩
  · cases hi : s.holder net with
    | none => exact (hsettled net).free hi
    | some i =>
      obtain ⟨hopen,entry,paused,hentry,hend,htouches,-⟩ := hheld net i hi
      have hholds : holds schedules net i=true := holds_iff.mpr ⟨entry,hentry,hend,htouches⟩
      simp [hnone i hopen] at hholds

/-- A daily window of one action. -/
def daily (startTime endTime : Int) (action : ScheduleAction) : ScheduleEntry where
  startTime := startTime
  endTime := endTime
  day := .Daily
  actions := (Vector.replicate 16 .None).set 0 action
  values := Vector.replicate 16 none
  enabled := true

/-- A window inside another hands the network back to it, and the other stays open. -/
theorem networks_follow_windows_nested :
    let schedules := [daily 600 720 .UsenetPause,daily 630 660 .UsenetResume];
    let checkAt := fun hour minute => Operation.check ⟨1,hour,minute⟩ false;
    let s := run (step id schedules) {} [checkAt 10 0,checkAt 10 30,checkAt 11 0];
    s.holder .Usenet=some 0 ∧ s.lastCommand .Usenet=some (.pause .Usenet true false) ∧
      ∀ i,i∈(check id schedules ⟨1,11,30⟩ false s).openWindows ↔
        ∃ entry, schedules[i]? = some entry ∧ entry.enabled=true ∧
          entry.actions[0] ≠ .None ∧ entry.contains id ⟨1,11,30⟩=true :=
  ⟨by decide +kernel,by decide +kernel,
    (networks_follow_windows id _ _).1 ⟨1,11,30⟩ false (by decide +kernel)⟩

end EmuleQt.Transfer.Scheduler
