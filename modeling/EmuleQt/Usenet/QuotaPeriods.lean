import EmuleQt.Framework.Periods
import EmuleQt.Usenet.UsenetUsage
import Mathlib.Data.Int.ConditionallyCompleteOrder

namespace EmuleQt.Usenet

open Framework

namespace QDate

/-- The year with a zero among the years, as the astronomers count. -/
def yearNumber (d : QDate) : Int := if d.year<0 then d.year+1 else d.year

/-- The months of the calendar in a row. -/
def monthIndex (d : QDate) : Int := 12*d.yearNumber+d.month-1

/-- The dates of the calendar in a row, with gaps after the shorter months. -/
def ordinal (d : QDate) : Int := 32 * d.monthIndex + d.day

def yearOf (k : Int) : Int := if k/12≤0 then k/12-1 else k/12

def monthOf (k : Int) : Nat := (k%12).toNat+1

theorem monthLength_le (year : Int) (month : Nat) :
    1 ≤ monthLength year month ∧ monthLength year month≤31 := by
  unfold monthLength
  split_ifs <;> omega

theorem monthIndex_eq (d : QDate) :
    d.monthIndex=12*(if d.year<0 then d.year+1 else d.year)+d.month-1 := rfl

theorem ordinal_eq (d : QDate) : d.ordinal=32*d.monthIndex+d.day := rfl

variable {a b d : QDate}

theorem isValid_iff : d.isValid=true ↔ d.year≠0 ∧ 1≤d.month ∧ d.month≤12 ∧ 1≤d.day ∧
    d.day ≤ monthLength d.year d.month := decide_eq_true_iff

theorem day_le (h : d.isValid=true) : 1≤d.day ∧ d.day≤31 := by
  obtain ⟨-,-,-,hpos,hle⟩ := isValid_iff.mp h
  exact ⟨hpos,hle.trans (monthLength_le _ _).2⟩

theorem before_iff (ha : a.isValid=true) (hb : b.isValid=true) :
    a.before b=true ↔ a.ordinal<b.ordinal := by
  obtain ⟨hya,hma,hma',-,-⟩ := isValid_iff.mp ha
  obtain ⟨hyb,hmb,hmb',-,-⟩ := isValid_iff.mp hb
  have hda := day_le ha
  have hdb := day_le hb
  simp only [before,decide_eq_true_eq,ordinal_eq,monthIndex_eq]
  split_ifs <;> omega

theorem ordinal_injective (ha : a.isValid=true) (hb : b.isValid=true)
    (h : a.ordinal=b.ordinal) : a=b := by
  obtain ⟨hya,hma,hma',-,-⟩ := isValid_iff.mp ha
  obtain ⟨hyb,hmb,hmb',-,-⟩ := isValid_iff.mp hb
  have hda := day_le ha
  have hdb := day_le hb
  have hparts : a.year=b.year ∧ a.month=b.month ∧ a.day=b.day := by
    simp only [ordinal_eq,monthIndex_eq] at h
    split_ifs at h <;> omega
  cases a
  cases b
  simpa using hparts

theorem yearOf_monthIndex (h : d.isValid=true) : yearOf d.monthIndex=d.year := by
  obtain ⟨hy,hm,hm',-,-⟩ := isValid_iff.mp h
  simp only [yearOf,monthIndex_eq]
  split_ifs <;> omega

theorem monthOf_monthIndex (h : d.isValid=true) : monthOf d.monthIndex=d.month := by
  obtain ⟨hy,hm,hm',-,-⟩ := isValid_iff.mp h
  simp only [monthOf,monthIndex_eq]
  omega

theorem monthBefore_spec (h : d.isValid=true) :
    d.monthBefore.isValid=true ∧ d.monthBefore.monthIndex=d.monthIndex-1 := by
  obtain ⟨hy,hm,hm',hd,-⟩ := isValid_iff.mp h
  have hlen := monthLength_le d.monthBefore.year d.monthBefore.month
  constructor
  · rw [isValid_iff]
    refine ⟨?_,?_,?_,le_min hd hlen.1,min_le_right _ _⟩ <;>
    · simp only [monthBefore]
      split_ifs <;> omega
  · simp only [monthBefore,monthIndex_eq]
    split_ifs <;> omega

theorem monthAfter_spec (h : d.isValid=true) :
    d.monthAfter.isValid=true ∧ d.monthAfter.monthIndex=d.monthIndex+1 := by
  obtain ⟨hy,hm,hm',hd,-⟩ := isValid_iff.mp h
  have hlen := monthLength_le d.monthAfter.year d.monthAfter.month
  constructor
  · rw [isValid_iff]
    refine ⟨?_,?_,?_,le_min hd hlen.1,min_le_right _ _⟩ <;>
    · simp only [monthAfter]
      split_ifs <;> omega
  · simp only [monthAfter,monthIndex_eq]
    split_ifs <;> omega

end QDate

open QDate

/-- The reset day of the `k`-th month. -/
def billingDay (resetDay : Int) (k : Int) : Nat :=
  (max 1 (min resetDay (monthLength (yearOf k) (monthOf k)))).toNat

/-- Where the period of the `k`-th month begins. -/
def billingCut (resetDay : Int) (k : Int) : Int := 32*k+billingDay resetDay k

variable {resetDay : Int} {today d : QDate}

theorem billingDay_le (resetDay k : Int) :
    1≤billingDay resetDay k ∧ billingDay resetDay k≤31 := by
  have hlen := monthLength_le (yearOf k) (monthOf k)
  unfold billingDay
  omega

theorem billingCut_strictMono (resetDay : Int) : StrictMono (billingCut resetDay) := by
  intro j k hjk
  have hj := billingDay_le resetDay j
  unfold billingCut
  omega

theorem clampDay_eq (h : d.isValid=true) :
    clampDay resetDay d=billingDay resetDay d.monthIndex := by
  rw [clampDay,daysInMonth,if_pos h,billingDay,yearOf_monthIndex h,monthOf_monthIndex h]

theorem billing_spec (resetDay : Int) (h : d.isValid=true) :
    (⟨d.year,d.month,clampDay resetDay d⟩ : QDate).isValid=true ∧
      (⟨d.year,d.month,clampDay resetDay d⟩ : QDate).ordinal =
        billingCut resetDay d.monthIndex := by
  obtain ⟨hy,hm,hm',-,-⟩ := isValid_iff.mp h
  constructor
  · have hlen := monthLength_le d.year d.month
    rw [isValid_iff,clampDay,daysInMonth,if_pos h]
    refine ⟨hy,hm,hm',?_,?_⟩ <;>
    · dsimp only
      omega
  · rw [clampDay_eq h]
    rfl

theorem nntpQuotaPeriodStart_spec (resetDay : Int) (h : today.isValid=true) :
    ∃ k, (nntpQuotaPeriodStart resetDay today).isValid=true ∧
      (nntpQuotaPeriodStart resetDay today).monthIndex=k ∧
      (nntpQuotaPeriodStart resetDay today).ordinal=billingCut resetDay k ∧
      InPeriod (billingCut resetDay) k today.ordinal := by
  have hday := day_le h
  unfold nntpQuotaPeriodStart
  rw [h,Bool.not_true,if_neg Bool.false_ne_true]
  split_ifs with hreached
  · obtain ⟨hvalid,hcut⟩ := billing_spec resetDay h
    rw [clampDay_eq h] at hreached
    refine ⟨today.monthIndex,hvalid,rfl,hcut,?_⟩
    unfold InPeriod billingCut ordinal
    omega
  · obtain ⟨hprev,hindex⟩ := monthBefore_spec h
    obtain ⟨hvalid,hcut⟩ := billing_spec resetDay hprev
    have hbegun := billingDay_le resetDay (today.monthIndex-1)
    rw [clampDay_eq h] at hreached
    rw [hindex] at hcut
    refine ⟨today.monthIndex-1,hvalid,hindex,hcut,?_⟩
    rw [InPeriod,Int.sub_add_cancel]
    unfold billingCut ordinal
    omega

theorem nntpQuotaNextReset_spec {k : Int} (h : today.isValid=true)
    (hk : InPeriod (billingCut resetDay) k today.ordinal) :
    (nntpQuotaNextReset resetDay today).isValid=true ∧
      (nntpQuotaNextReset resetDay today).ordinal=billingCut resetDay (k+1) := by
  obtain ⟨j,hvalid,hindex,-,hj⟩ := nntpQuotaPeriodStart_spec resetDay h
  obtain rfl := hj.index_eq (billingCut_strictMono resetDay) hk
  obtain ⟨hafter,hafterIndex⟩ := monthAfter_spec hvalid
  have hbilling := billing_spec resetDay hafter
  rw [hafterIndex,hindex] at hbilling
  unfold nntpQuotaNextReset
  dsimp only
  rw [hvalid,Bool.not_true,if_neg Bool.false_ne_true]
  exact hbilling

theorem nntpQuotaPeriodStart_eq {k : Int} (h : today.isValid=true) (hd : d.isValid=true)
    (hk : InPeriod (billingCut resetDay) k today.ordinal)
    (hstart : d.ordinal=billingCut resetDay k) : nntpQuotaPeriodStart resetDay today=d := by
  obtain ⟨j,hvalid,-,hcut,hj⟩ := nntpQuotaPeriodStart_spec resetDay h
  obtain rfl := hj.index_eq (billingCut_strictMono resetDay) hk
  exact ordinal_injective hvalid hd (hcut.trans hstart.symm)

/-- The periods of a reset day share out the calendar: the day lies in the period its start and
its next reset bound, every day of that period has the same start, the next period begins at the
next reset, and no later day has an earlier start. -/
theorem quotaPeriods_partition (resetDay : Int) (today : QDate) (h : today.isValid = true) :
    (nntpQuotaPeriodStart resetDay today).isValid = true ∧
    (nntpQuotaNextReset resetDay today).isValid = true ∧
    today.before (nntpQuotaPeriodStart resetDay today) = false ∧
    today.before (nntpQuotaNextReset resetDay today) = true ∧
    (∀ d : QDate, d.isValid = true → d.before (nntpQuotaPeriodStart resetDay today) = false →
      d.before (nntpQuotaNextReset resetDay today) = true →
      nntpQuotaPeriodStart resetDay d = nntpQuotaPeriodStart resetDay today) ∧
    (∀ d : QDate, d.isValid = true → d.before (nntpQuotaNextReset resetDay today) = false →
      d.before (nntpQuotaNextReset resetDay (nntpQuotaNextReset resetDay today)) = true →
      nntpQuotaPeriodStart resetDay d = nntpQuotaNextReset resetDay today) ∧
    ∀ d : QDate, d.isValid = true → d.before today = false →
      (nntpQuotaPeriodStart resetDay d).before (nntpQuotaPeriodStart resetDay today) = false := by
  have hmono := billingCut_strictMono resetDay
  obtain ⟨k,hstart,-,hcut,hk⟩ := nntpQuotaPeriodStart_spec resetDay h
  obtain ⟨hnext,hnextCut⟩ := nntpQuotaNextReset_spec h hk
  have hafter : InPeriod (billingCut resetDay) (k+1)
      (nntpQuotaNextReset resetDay today).ordinal := by
    rw [hnextCut]
    exact InPeriod.start hmono (k+1)
  obtain ⟨hlater,hlaterCut⟩ := nntpQuotaNextReset_spec hnext hafter
  refine ⟨hstart,hnext,?_,?_,?_,?_,?_⟩
  · rw [← Bool.not_eq_true,before_iff h hstart,hcut,not_lt]
    exact hk.1
  · rw [before_iff h hnext,hnextCut]
    exact hk.2
  · intro d hd hfrom huntil
    rw [← Bool.not_eq_true,before_iff hd hstart,hcut,not_lt] at hfrom
    rw [before_iff hd hnext,hnextCut] at huntil
    exact nntpQuotaPeriodStart_eq hd hstart ⟨hfrom,huntil⟩ hcut
  · intro d hd hfrom huntil
    rw [← Bool.not_eq_true,before_iff hd hnext,hnextCut,not_lt] at hfrom
    rw [before_iff hd hlater,hlaterCut] at huntil
    exact nntpQuotaPeriodStart_eq hd hnext ⟨hfrom,huntil⟩ hnextCut
  · intro d hd hle
    rw [← Bool.not_eq_true,before_iff hd h,not_lt] at hle
    obtain ⟨j,hstart',-,hcut',hj⟩ := nntpQuotaPeriodStart_spec resetDay hd
    rw [← Bool.not_eq_true,before_iff hstart' hstart,hcut,hcut',not_lt]
    exact hmono.monotone (hk.index_le hmono hj hle)

/-- Billed on the 31st, on the last day of a leap February. -/
theorem quotaPeriods_leapDay : (QDate.mk 2024 2 29).before (nntpQuotaNextReset 31 ⟨2024, 2, 29⟩) =
    true :=
  (quotaPeriods_partition 31 ⟨2024,2,29⟩ (by decide)).2.2.2.1

end EmuleQt.Usenet
