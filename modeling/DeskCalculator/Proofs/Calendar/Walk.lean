import DeskCalculator.Proofs.Calendar.Age
import Mathlib.Algebra.Group.Basic

/-! Walking through the calendar, by months and by days. An age gives the way from a birth to a later or an earlier
day: its years and months lead to a month, and from the birth's day of that month its days lead on. The months and
days of this walk have years without bounds, for the way may lead through the month before the first date. -/
namespace DeskCalculator

namespace Calendar

/-- A number that grows by the same amount in each step. -/
theorem number_iterate {α : Type} {number : α → ℤ} {step : α → α} {amount : ℤ}
    (h : ∀ a, number (step a) = number a + amount) (a : α) (count : ℕ) :
    number (step^[count] a) = number a + count * amount := by
  have hcommutes : Function.Semiconj number step (· + amount) := h
  rw [(hcommutes.iterate_right count).eq, add_right_iterate, nsmul_eq_mul]

/-- A month of a year. -/
structure Month where
  year : ℤ
  number : ℕ
  one_le_number : 1 ≤ number
  number_le : number ≤ 12
deriving DecidableEq

namespace Month

def days (month : Month) : ℕ := daysInMonth month.year month.number

def next (month : Month) : Month :=
  if h : month.number = 12 then ⟨month.year + 1, 1, le_rfl, by decide⟩
  else ⟨month.year, month.number + 1, by omega, by have := month.number_le; omega⟩

def previous (month : Month) : Month :=
  if h : month.number = 1 then ⟨month.year - 1, 12, by decide, le_rfl⟩
  else ⟨month.year, month.number - 1, by have := month.one_le_number; omega, by have := month.number_le; omega⟩

/-- The month that is reached by a number of months, which leads back if it is negative. -/
def later (month : Month) : ℤ → Month
  | .ofNat count => next^[count] month
  | .negSucc count => previous^[count + 1] month

/-- The months are numbered in their order. -/
def index (month : Month) : ℤ := 12 * month.year + month.number

theorem index_injective : Function.Injective index := by
  rintro ⟨year, number, hone, hle⟩ ⟨year', number', hone', hle'⟩ h
  simp only [index] at h
  obtain ⟨rfl, rfl⟩ : year = year' ∧ number = number' := by omega
  rfl

theorem index_next (month : Month) : month.next.index = month.index + 1 := by
  unfold next
  split
  · next hlast =>
    simp only [index, hlast]
    omega
  · simp only [index]
    omega

theorem index_previous (month : Month) : month.previous.index = month.index - 1 := by
  have hone := month.one_le_number
  unfold previous
  split
  · next hfirst =>
    simp only [index, hfirst]
    omega
  · simp only [index]
    omega

theorem next_previous (month : Month) : month.previous.next = month := by
  apply index_injective
  rw [index_next, index_previous, sub_add_cancel]

theorem index_later (month : Month) (count : ℤ) : (month.later count).index = month.index + count := by
  cases count with
  | ofNat count =>
    rw [later, number_iterate index_next, mul_one]
    rfl
  | negSucc count =>
    rw [later, number_iterate index_previous, Int.negSucc_eq]
    omega

theorem later_eq_iff {month other : Month} {count : ℤ} :
    month.later count = other ↔ other.index = month.index + count := by
  rw [← index_injective.eq_iff, index_later, eq_comm]

/-- The days before a month, counted as those before a year are. -/
def daysBefore (month : Month) : ℤ := daysBeforeYear month.year + daysBeforeMonth month.year month.number

theorem daysBefore_next (month : Month) : month.next.daysBefore = month.daysBefore + month.days := by
  have hmonth := daysBeforeMonth_succ month.one_le_number month.year
  unfold next
  split
  · next hlast =>
    -- the first month of a year comes after all the days of the year before
    have hyear := daysBeforeYear_succ month.year
    have hnone : daysBeforeMonth (month.year + 1) 1 = 0 := rfl
    rw [hlast, daysBeforeMonth_thirteen] at hmonth
    simp only [daysBefore, days, hlast, hnone]
    omega
  · simp only [daysBefore, days, hmonth]
    omega

theorem one_le_days (month : Month) : 1 ≤ month.days := by
  unfold days daysInMonth
  split
  · split <;> omega
  all_goals omega

end Month

/-- A day of a month. -/
structure Day where
  month : Month
  day : ℕ
  one_le_day : 1 ≤ day
  day_le : day ≤ month.days

namespace Day

def next (d : Day) : Day :=
  if h : d.day < d.month.days then ⟨d.month, d.day + 1, by omega, h⟩
  else ⟨d.month.next, 1, le_rfl, d.month.next.one_le_days⟩

/-- The number of a day, which is that of the date where there is one. -/
def dayNumber (d : Day) : ℤ := d.month.daysBefore + d.day

theorem ext_of {a b : Day} (hmonth : a.month = b.month) (hday : a.day = b.day) : a = b := by
  rcases a with ⟨month, day, hone, hle⟩
  rcases b with ⟨month', day', hone', hle'⟩
  obtain rfl : month = month' := hmonth
  obtain rfl : day = day' := hday
  rfl

theorem next_of_lt {d : Day} (h : d.day < d.month.days) : d.next.month = d.month ∧ d.next.day = d.day + 1 := by
  rw [next, dif_pos h]
  exact ⟨rfl, rfl⟩

theorem next_of_last {d : Day} (h : d.day = d.month.days) : d.next.month = d.month.next ∧ d.next.day = 1 := by
  rw [next, dif_neg (by omega)]
  exact ⟨rfl, rfl⟩

/-- As long as the month lasts, a day leads to the day with the next number in it. -/
theorem iterate_next_of_le (d : Day) {count : ℕ} (h : d.day + count ≤ d.month.days) :
    (next^[count] d).month = d.month ∧ (next^[count] d).day = d.day + count := by
  induction count with
  | zero => exact ⟨rfl, rfl⟩
  | succ count ih =>
    obtain ⟨hmonth, hday⟩ := ih (by omega)
    have hlt : (next^[count] d).day < (next^[count] d).month.days := by
      rw [hmonth, hday]
      omega
    obtain ⟨hmonth', hday'⟩ := next_of_lt hlt
    rw [Function.iterate_succ_apply', hmonth', hday', hmonth, hday]
    exact ⟨rfl, rfl⟩

/-- Days that are left when the month is over lead into the next month. -/
theorem iterate_next_of_gt {d : Day} {count left : ℕ} (hcount : d.day + count = d.month.days + left)
    (hone : 1 ≤ left) (hleft : left ≤ d.month.next.days) :
    (next^[count] d).month = d.month.next ∧ (next^[count] d).day = left := by
  have hday := d.day_le
  -- the way to the last day of the month, the step out of it, and the rest of the way
  have hsplit : count = left - 1 + (d.month.days - d.day + 1) := by omega
  have hlast : d.day + (d.month.days - d.day) = d.month.days := by omega
  obtain ⟨hmonth, hday⟩ := d.iterate_next_of_le hlast.le
  obtain ⟨hstepMonth, hstepDay⟩ := next_of_last ((hday.trans hlast).trans (congrArg Month.days hmonth.symm))
  rw [← Function.iterate_succ_apply' next] at hstepMonth hstepDay
  rw [hmonth] at hstepMonth
  have hrest : (next^[d.month.days - d.day + 1] d).day + (left - 1) = left := by
    rw [hstepDay]
    omega
  obtain ⟨hrestMonth, hrestDay⟩ := iterate_next_of_le _ (hrest.trans_le (hstepMonth ▸ hleft))
  rw [hsplit, Function.iterate_add_apply, hrestMonth, hrestDay]
  exact ⟨hstepMonth, hrest⟩

theorem dayNumber_next (d : Day) : d.next.dayNumber = d.dayNumber + 1 := by
  have hle := d.day_le
  by_cases hlt : d.day < d.month.days
  · obtain ⟨hmonth, hday⟩ := next_of_lt hlt
    rw [dayNumber, dayNumber, hmonth, hday]
    omega
  · obtain ⟨hmonth, hday⟩ := next_of_last (d := d) (by omega)
    rw [dayNumber, dayNumber, hmonth, hday, Month.daysBefore_next]
    omega

theorem dayNumber_iterate_next (d : Day) (count : ℕ) : (next^[count] d).dayNumber = d.dayNumber + count := by
  rw [number_iterate dayNumber_next, mul_one]

end Day

end Calendar

open Calendar

namespace Date

def toDay (d : Date) : Day where
  month := ⟨d.year, d.month, (inRange d).one_le_month, (inRange d).month_le⟩
  day := d.day
  one_le_day := (inRange d).one_le_day
  day_le := d.day_le_daysInMonth

theorem dayNumber_toDay (d : Date) : d.toDay.dayNumber = d.dayNumber := rfl

/-- The month before January is a December, which has as many days as January. -/
theorem daysInPreviousMonth_eq (d : Date) : d.daysInPreviousMonth = d.toDay.month.previous.days := by
  by_cases hfirst : d.toDay.month.number = 1
  · rw [Month.previous, dif_pos hfirst]
    exact if_pos hfirst
  · rw [Month.previous, dif_neg hfirst]
    exact if_neg hfirst

end Date

namespace Age

variable {birth today : Date}

/-- The way of an age from a birth to a day: by its years and months to a month that has the day of the birth, and from
there by its days. -/
structure Leads (age : Age) (birth : Date) (reached : Day) (today : Date) : Prop where
  month : reached.month = birth.toDay.month.later (12 * age.years + age.months)
  day : reached.day = birth.day
  days_nonneg : 0 ≤ age.days
  walk : Day.next^[age.days.toNat] reached = today.toDay

theorem Leads.dayNumber {age : Age} {reached : Day} (h : age.Leads birth reached today) :
    reached.dayNumber + age.days = today.dayNumber := by
  have hnumber := reached.dayNumber_iterate_next age.days.toNat
  rw [h.walk, Date.dayNumber_toDay, Int.toNat_of_nonneg h.days_nonneg] at hnumber
  exact hnumber.symm

/-- The months of an age lead to the month of the day, or to the month before if the days borrow it. -/
theorem later_months (birth today : Date) :
    birth.toDay.month.later (12 * (Age.on birth today).years + (Age.on birth today).months) =
      if today.day < birth.day then today.toDay.month.previous else today.toDay.month := by
  have hmonths := months_on birth today
  rw [Month.later_eq_iff]
  unfold borrowed at hmonths
  split
  · next hborrows =>
    rw [if_pos hborrows] at hmonths
    rw [Month.index_previous]
    simp only [Month.index, Date.toDay]
    omega
  · next hborrows =>
    rw [if_neg hborrows] at hmonths
    simp only [Month.index, Date.toDay]
    omega

/-- Without a month that is borrowed the way ends within the month. -/
theorem leads_within_month (h : birth.day ≤ today.day) : ∃ reached, (Age.on birth today).Leads birth reached today := by
  have hmonths := later_months birth today
  have hdays := days_on birth today
  rw [if_neg (not_lt.mpr h)] at hmonths
  rw [borrowed, if_neg (not_lt.mpr h)] at hdays
  let reached : Day := ⟨today.toDay.month, birth.day, (inRange birth).one_le_day, h.trans today.day_le_daysInMonth⟩
  have hcount : reached.day + (Age.on birth today).days.toNat = today.day := by
    simp only [reached]
    omega
  obtain ⟨hmonth, hday⟩ := reached.iterate_next_of_le (hcount.trans_le today.day_le_daysInMonth)
  refine ⟨reached, hmonths.symm, rfl, by omega, ?_⟩
  exact Day.ext_of hmonth (hday.trans hcount)

/-- With a month that is borrowed the way begins in the month before, and goes over its last day. -/
theorem leads_over_month (hborrows : today.day < birth.day) (h : birth.day ≤ today.toDay.month.previous.days) :
    ∃ reached, (Age.on birth today).Leads birth reached today := by
  have hmonths := later_months birth today
  have hdays := days_on birth today
  rw [if_pos hborrows] at hmonths
  rw [borrowed, if_pos hborrows, today.daysInPreviousMonth_eq] at hdays
  let reached : Day := ⟨today.toDay.month.previous, birth.day, (inRange birth).one_le_day, h⟩
  have hnext : reached.month.next = today.toDay.month := Month.next_previous _
  have hcount : reached.day + (Age.on birth today).days.toNat = reached.month.days + today.day := by
    simp only [reached]
    omega
  obtain ⟨hmonth, hday⟩ := Day.iterate_next_of_gt hcount (inRange today).one_le_day
    (hnext ▸ today.day_le_daysInMonth)
  refine ⟨reached, hmonths.symm, rfl, by omega, ?_⟩
  exact Day.ext_of (hmonth.trans hnext) hday

end Age

/-- An age leads from the birth to the day, in whichever order they are. The month that its years and months lead to has
the day of the birth, and from that one its days lead to the day, by steps and by the numbers of days. All that it
takes is that the birth's day of the month is not after the other day's, or that the month before has it. -/
theorem age_leads_to_day {birth today : Date}
    (h : birth.day ≤ today.day ∨ birth.day ≤ today.toDay.month.previous.days) :
    let age := Age.on birth today
    (0 ≤ age.months ∧ age.months ≤ 11 ∧ 0 ≤ age.days ∧ age.days ≤ 30) ∧
    ∃ reached : Day, reached.month = birth.toDay.month.later (12 * age.years + age.months) ∧
      reached.day = birth.day ∧ Day.next^[age.days.toNat] reached = today.toDay ∧
      reached.dayNumber + age.days = today.dayNumber := by
  intro age
  have hleads : ∃ reached, age.Leads birth reached today := by
    by_cases hborrows : today.day < birth.day
    · exact Age.leads_over_month hborrows (h.resolve_left (not_le.mpr hborrows))
    · exact Age.leads_within_month (not_lt.mp hborrows)
  obtain ⟨reached, hway⟩ := hleads
  obtain ⟨hmonths, hmonthsLe⟩ : 0 ≤ age.months ∧ age.months ≤ 11 := Age.months_on_bounds birth today
  obtain ⟨-, hdaysLe⟩ : -2 ≤ age.days ∧ age.days ≤ 30 := Age.days_on_bounds birth today
  exact ⟨⟨hmonths, hmonthsLe, hway.days_nonneg, hdaysLe⟩, reached, hway.month, hway.day, hway.walk, hway.dayNumber⟩

/-- From the last of May back to the first of January of the year before: seventeen months back, and a day on. -/
theorem age_leads_back_over_december :
    let birth : Date := ⟨2024, 5, 31, by decide⟩
    let today : Date := ⟨2023, 1, 1, by decide⟩
    birth.day ≤ today.toDay.month.previous.days ∧ Age.on birth today = ⟨-2, 7, 1⟩ ∧
      ∃ reached : Day, reached.month = ⟨2022, 12, by decide, by decide⟩ ∧ reached.day = 31 ∧
        reached.next = today.toDay := by
  intro birth today
  have hfits : birth.day ≤ today.toDay.month.previous.days := by decide
  have hage : Age.on birth today = ⟨-2, 7, 1⟩ := by decide
  obtain ⟨-, reached, hmonth, hday, hwalk, -⟩ := age_leads_to_day (Or.inr hfits)
  rw [hage] at hmonth hwalk
  exact ⟨hfits, hage, reached, hmonth.trans (by decide), hday, hwalk⟩

end DeskCalculator
