import EmuleQt.Framework.Keyed
import EmuleQt.Framework.Run
import EmuleQt.Utils.QtFormat

namespace EmuleQt.Usenet

open Framework Utils Utils.QString

/-- A date of the proleptic Gregorian calendar, which has no year zero. -/
structure QDate where
  year : Int
  month : Nat
  day : Nat
  deriving DecidableEq

namespace QDate

/-- The null date, which is not valid. -/
def null : QDate := ⟨0, 0, 0⟩

def isLeapYear (year : Int) : Bool :=
  let y := if year<0 then year+1 else year
  decide (y%4=0 ∧ (y%100≠0 ∨ y%400=0))

def monthLength (year : Int) (month : Nat) : Nat :=
  if month=2 then (if isLeapYear year then 29 else 28)
  else if month∈[4,6,9,11] then 30 else 31

def isValid (d : QDate) : Bool :=
  decide (d.year ≠ 0 ∧ 1 ≤ d.month ∧ d.month ≤ 12 ∧ 1 ≤ d.day ∧
    d.day ≤ monthLength d.year d.month)

def daysInMonth (d : QDate) : Nat := if d.isValid then monthLength d.year d.month else 0

/-- `addMonths(-1)` of a valid date. -/
def monthBefore (d : QDate) : QDate :=
  let year := if d.month=1 then (if d.year=1 then -1 else d.year-1) else d.year
  let month := if d.month=1 then 12 else d.month-1
  ⟨year,month,min d.day (monthLength year month)⟩

/-- `addMonths(1)` of a valid date. -/
def monthAfter (d : QDate) : QDate :=
  let year := if d.month=12 then (if d.year = -1 then 1 else d.year+1) else d.year
  let month := if d.month=12 then 1 else d.month+1
  ⟨year,month,min d.day (monthLength year month)⟩

def before (a b : QDate) : Bool :=
  decide (a.year < b.year ∨ a.year = b.year ∧
    (a.month < b.month ∨ a.month = b.month ∧ a.day < b.day))

end QDate

def clampDay (resetDay : Int) (month : QDate) : Nat :=
  (max 1 (min resetDay month.daysInMonth)).toNat

def nntpQuotaPeriodStart (resetDay : Int) (today : QDate) : QDate :=
  if !today.isValid then .null
  else if clampDay resetDay today ≤ today.day then
    ⟨today.year, today.month, clampDay resetDay today⟩
  else
    let prev := today.monthBefore
    ⟨prev.year, prev.month, clampDay resetDay prev⟩

def nntpQuotaNextReset (resetDay : Int) (today : QDate) : QDate :=
  let start := nntpQuotaPeriodStart resetDay today
  if !start.isValid then .null
  else
    let next := start.monthAfter
    ⟨next.year, next.month, clampDay resetDay next⟩

inductive NntpQuotaKind
  | none
  | monthly
  | block
  deriving DecidableEq

def NntpQuotaKind.toInt : NntpQuotaKind → Int
  | .none => 0
  | .monthly => 1
  | .block => 2

/-- What `setAccounts` reads of a `NewsServer`. -/
structure QuotaAccount where
  accountId : QString
  displayName : QString
  host : QString
  quotaKind : NntpQuotaKind
  quotaResetDay : Int

structure NewsServerUsage where
  accountId : QString
  name : QString := []
  host : QString := []
  kind : Int := 0
  periodStart : QDate := .null
  periodBytes : Int := 0
  totalBytes : Int := 0
  updated : Int := 0

/-- One account: the base as last read or written, and what this session has added. -/
structure Entry where
  stored : NewsServerUsage
  sessionPeriod : Int := 0
  sessionTotal : Int := 0
  resetDay : Int := 1
  clockBackLogged : Bool := false

/-- `usage.yml`. A file that cannot be read counts as absent. -/
structure UsageFile where
  version : Int
  accounts : List NewsServerUsage

def kUsageVersion : Int := 1

/-- `m_entries` maps an account id to its entry. -/
structure UsenetUsageTracker where
  entries : List (QString × Entry) := []
  unflushed : Int := 0
  loaded : Bool := false

namespace UsenetUsageTracker

variable (t : UsenetUsageTracker)

def entryOf (accountId : QString) : Option Entry :=
  (lookupKey Prod.fst accountId t.entries).map Prod.snd

/-- An entry is changed, or made from an empty one and changed. -/
def edit (accountId : QString) (fresh : Entry) (f : Entry → Entry) : UsenetUsageTracker :=
  let put (e : Option (QString × Entry)) := (accountId, f (e.elim fresh Prod.snd))
  { t with entries := upsert Prod.fst accountId put t.entries }

def loadRow (row : NewsServerUsage) : UsenetUsageTracker :=
  let accountId := trimmed row.accountId
  if accountId=[] then t
  else t.edit accountId { stored := { accountId := [] } } fun e =>
    { e with stored := { row with accountId := accountId } }

def load (file : Option UsageFile) : UsenetUsageTracker :=
  match file with
  | none => { t with loaded := true }
  | some f =>
    if kUsageVersion < f.version then { t with loaded := true }
    else f.accounts.foldl loadRow { t with loaded := true }

def setAccount (today : QDate) (s : QuotaAccount) : UsenetUsageTracker :=
  if s.accountId = [] then t
  else t.edit s.accountId { stored := { accountId := [] } } fun e =>
    { e with
      resetDay := s.quotaResetDay
      stored := { e.stored with
        accountId := s.accountId
        name := s.displayName
        host := s.host
        kind := s.quotaKind.toInt
        periodStart := if s.quotaKind = .monthly ∧ e.stored.periodStart.isValid = false then
          nntpQuotaPeriodStart s.quotaResetDay today else e.stored.periodStart } }

def setAccounts (file : Option UsageFile) (servers : List QuotaAccount) (today : QDate) :
    UsenetUsageTracker :=
  servers.foldl (fun t s => t.setAccount today s) (if t.loaded then t else t.load file)

def add (accountId : QString) (bytes : Int) : UsenetUsageTracker :=
  if accountId = [] ∨ bytes ≤ 0 then t
  else
    let t' := t.edit accountId { stored := { accountId := accountId } } fun e =>
      { e with
        sessionPeriod := e.sessionPeriod + bytes
        sessionTotal := e.sessionTotal + bytes }
    { t' with unflushed := t.unflushed + bytes }

def periodBytes (accountId : QString) : Int :=
  (t.entryOf accountId).elim 0 fun e => e.stored.periodBytes + e.sessionPeriod

def totalBytes (accountId : QString) : Int :=
  (t.entryOf accountId).elim 0 fun e => e.stored.totalBytes + e.sessionTotal

def rollOverEntry (today : QDate) (e : Entry) : Entry :=
  let computed := nntpQuotaPeriodStart e.resetDay today
  if e.stored.kind≠NntpQuotaKind.monthly.toInt then e
  else if computed.isValid=false then e
  else if e.stored.periodStart.isValid=false then
    { e with stored := { e.stored with periodStart := computed } }
  else if computed=e.stored.periodStart then e
  else if computed.before e.stored.periodStart then { e with clockBackLogged := true }
  else { e with
    stored := { e.stored with periodStart := computed, periodBytes := 0 }
    sessionPeriod := 0
    clockBackLogged := false }

def rollOverIfDue (today : QDate) : UsenetUsageTracker :=
  { t with entries := t.entries.map fun e => (e.1, rollOverEntry today e.2) }

/-- The row `flush` writes for an entry. -/
def entryRow (now : Int) (e : Entry) : NewsServerUsage :=
  { e.stored with
    periodStart := if e.stored.periodStart.isValid then e.stored.periodStart else .null
    periodBytes := e.stored.periodBytes+e.sessionPeriod
    totalBytes := e.stored.totalBytes+e.sessionTotal
    updated := now }

/-- The tracker and the file on disk after a flush that succeeds. -/
def flush (file : Option UsageFile) (now : Int) : UsenetUsageTracker × Option UsageFile :=
  if t.entries = [] then (t, file)
  else ({ t with unflushed := 0 },
    some ⟨kUsageVersion, t.entries.map fun e => entryRow now e.2⟩)

def setUsage (file : Option UsageFile) (now : Int) (accountId : QString)
    (newPeriodBytes newTotalBytes : Int) : UsenetUsageTracker × Option UsageFile :=
  if accountId = [] ∨ t.entryOf accountId = none then (t, file)
  else (t.edit accountId { stored := { accountId := [] } } fun e =>
    { e with
      stored := { e.stored with
        periodBytes := if 0 ≤ newPeriodBytes then newPeriodBytes else e.stored.periodBytes
        totalBytes := if 0 ≤ newTotalBytes then newTotalBytes else e.stored.totalBytes }
      sessionPeriod := if 0 ≤ newPeriodBytes then 0 else e.sessionPeriod
      sessionTotal := if 0 ≤ newTotalBytes then 0 else e.sessionTotal }).flush file now

end UsenetUsageTracker

/-- The tracker and the file it is kept in. -/
structure UsageState where
  tracker : UsenetUsageTracker
  file : Option UsageFile

inductive UsageOp
  | load
  | setAccounts (servers : List QuotaAccount) (today : QDate)
  | add (accountId : QString) (bytes : Int)
  | rollOverIfDue (today : QDate)
  | flush (now : Int)
  | setUsage (now : Int) (accountId : QString) (newPeriodBytes newTotalBytes : Int)

def UsageState.step (s : UsageState) : UsageOp → UsageState
  | .load => { s with tracker := s.tracker.load s.file }
  | .setAccounts servers today => { s with tracker := s.tracker.setAccounts s.file servers today }
  | .add accountId bytes => { s with tracker := s.tracker.add accountId bytes }
  | .rollOverIfDue today => { s with tracker := s.tracker.rollOverIfDue today }
  | .flush now =>
    let r := s.tracker.flush s.file now
    ⟨r.1, r.2⟩
  | .setUsage now accountId newPeriodBytes newTotalBytes =>
    let r := s.tracker.setUsage s.file now accountId newPeriodBytes newTotalBytes
    ⟨r.1, r.2⟩

/-- What an account has really spent, in all and in the current period. -/
structure Meter where
  total : Int
  period : Int

def Entry.isDue (today : QDate) (e : Entry) : Bool :=
  let computed := nntpQuotaPeriodStart e.resetDay today
  decide (e.stored.kind = NntpQuotaKind.monthly.toInt) && computed.isValid &&
    e.stored.periodStart.isValid && e.stored.periodStart.before computed

/-- Only charges, settings and roll-overs move the meter of an account. -/
def Meter.step (s : UsageState) (id : QString) (m : Meter) : UsageOp → Meter
  | .add accountId bytes =>
    if accountId = id ∧ id ≠ [] ∧ 0 < bytes then ⟨m.total + bytes, m.period + bytes⟩ else m
  | .setUsage _ accountId newPeriodBytes newTotalBytes =>
    if accountId = id ∧ id ≠ [] ∧ (s.tracker.entryOf id).isSome then
      ⟨if 0 ≤ newTotalBytes then newTotalBytes else m.total,
        if 0 ≤ newPeriodBytes then newPeriodBytes else m.period⟩
    else m
  | .rollOverIfDue today => if (s.tracker.entryOf id).any (Entry.isDue today) then { m with period := 0 }
    else m
  | _ => m

namespace UsenetUsageTracker

variable {t : UsenetUsageTracker} {id accountId : QString} {fresh : Entry} {f : Entry → Entry}

end UsenetUsageTracker

open UsenetUsageTracker

variable {s : UsageState} {id : QString}

end EmuleQt.Usenet
