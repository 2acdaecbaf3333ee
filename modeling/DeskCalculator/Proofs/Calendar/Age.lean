import DeskCalculator.Proofs.Calendar.Order

/-! Which ages read as a span of the calendar. The years and the months always do, for a year that is borrowed has
twelve months. A month that is borrowed is the one before the later day's, and it may have too few days for the day of
the birth; only February has. -/
namespace DeskCalculator

open Calendar

namespace Date

/-- Only the month before March has less than thirty days. -/
theorem daysInPreviousMonth_cases (d : Date) :
    (d.month = 3 ∧ d.daysInPreviousMonth = daysInMonth d.year 2 ∧ 28 ≤ d.daysInPreviousMonth) ∨
      d.month ≠ 3 ∧ 30 ≤ d.daysInPreviousMonth := by
  by_cases hmarch : d.month = 3
  · have hdays : d.daysInPreviousMonth = daysInMonth d.year 2 := by simp [daysInPreviousMonth, hmarch]
    refine Or.inl ⟨hmarch, hdays, ?_⟩
    rw [hdays, daysInMonth]
    split <;> omega
  · refine Or.inr ⟨hmarch, ?_⟩
    unfold daysInPreviousMonth daysInMonth
    split
    · omega
    · split <;> omega

end Date

namespace Age

variable {birth today : Date}

/-- Does an age read as a span of the calendar? Its months make no year, and its days make no month. -/
structure IsCalendarSpan (age : Age) : Prop where
  years_nonneg : 0 ≤ age.years
  months_nonneg : 0 ≤ age.months
  months_le : age.months ≤ 11
  days_nonneg : 0 ≤ age.days
  days_le : age.days ≤ 30

/-- The months that the days of an age borrow. -/
def borrowed (birth today : Date) : ℕ := if today.day < birth.day then 1 else 0

theorem days_on (birth today : Date) :
    (Age.on birth today).days = (today.day - birth.day + borrowed birth today * today.daysInPreviousMonth : ℤ) := by
  simp only [Age.on, borrowed]
  split_ifs <;> dsimp only <;> omega

/-- A year that the months borrow changes nothing about the months in all. -/
theorem months_on (birth today : Date) : 12 * (Age.on birth today).years + (Age.on birth today).months =
    12 * (today.year - birth.year) + (today.month - birth.month) - borrowed birth today := by
  simp only [Age.on, borrowed]
  split_ifs <;> dsimp only <;> omega

theorem months_on_bounds (birth today : Date) :
    0 ≤ (Age.on birth today).months ∧ (Age.on birth today).months ≤ 11 := by
  obtain ⟨-, -, hbirthOne, hbirthMonth, -, -⟩ := inRange birth
  obtain ⟨-, -, htodayOne, htodayMonth, -, -⟩ := inRange today
  simp only [Age.on]
  split_ifs <;> dsimp only <;> omega

theorem years_on_nonneg (h : birth ≤ today) : 0 ≤ (Age.on birth today).years := by
  obtain ⟨hmonths, hmonthsLe⟩ := months_on_bounds birth today
  have htotal := months_on birth today
  obtain ⟨-, -, hbirthOne, hbirthMonth, -, -⟩ := inRange birth
  obtain ⟨-, -, htodayOne, htodayMonth, -, -⟩ := inRange today
  -- in order of time the months in all are not negative, the borrowed one taken off
  have hinOrder : 0 ≤ 12 * (today.year - birth.year) + (today.month - birth.month) - (borrowed birth today : ℤ) := by
    unfold borrowed
    rcases Date.le_iff.mp h with hyear | ⟨hyear, hmonth | ⟨hmonth, hday⟩⟩
    · split <;> omega
    · split <;> omega
    · rw [if_neg (not_lt.mpr hday)]
      omega
  omega

theorem days_on_bounds (birth today : Date) : -2 ≤ (Age.on birth today).days ∧ (Age.on birth today).days ≤ 30 := by
  have hbirth := (inRange birth).day_le
  have hbirthOne := (inRange birth).one_le_day
  have htoday := (inRange today).day_le
  have htodayOne := (inRange today).one_le_day
  have hprevious := daysInPreviousMonth_le today
  have hpreviousLe : 28 ≤ today.daysInPreviousMonth := by
    have hcases := today.daysInPreviousMonth_cases
    omega
  rw [days_on, borrowed]
  split <;> omega

/-- The days are below zero where the borrowed month is too short. -/
theorem days_on_neg_iff (birth today : Date) : (Age.on birth today).days < 0 ↔
    today.month = 3 ∧ today.day + daysInMonth today.year 2 < birth.day := by
  -- thirty days are enough for any birth, since the later day is a first at least
  have hbirth := (inRange birth).day_le
  have htodayOne := (inRange today).one_le_day
  have hcases := today.daysInPreviousMonth_cases
  rw [days_on, borrowed]
  split <;> omega

end Age

/-- An age of a birth that is not later than the day is a span of the calendar, but for one thing: in the first two
days of March, with a birth late in its month, all of February does not make up for the days that are missing, and the
days of the age are below zero, by two at most. -/
theorem age_isCalendarSpan_iff {birth today : Date} (h : birth ≤ today) :
    let age := Age.on birth today
    (0 ≤ age.years ∧ 0 ≤ age.months ∧ age.months ≤ 11 ∧ -2 ≤ age.days ∧ age.days ≤ 30) ∧
    (age.IsCalendarSpan ↔ ¬ (today.month = 3 ∧ today.day + daysInMonth today.year 2 < birth.day)) := by
  intro age
  have hyears : 0 ≤ age.years := Age.years_on_nonneg h
  obtain ⟨hmonths, hmonthsLe⟩ : 0 ≤ age.months ∧ age.months ≤ 11 := Age.months_on_bounds birth today
  obtain ⟨hdays, hdaysLe⟩ : -2 ≤ age.days ∧ age.days ≤ 30 := Age.days_on_bounds birth today
  refine ⟨⟨hyears, hmonths, hmonthsLe, hdays, hdaysLe⟩, ?_⟩
  rw [← Age.days_on_neg_iff, not_lt]
  exact ⟨Age.IsCalendarSpan.days_nonneg, fun hnonneg => ⟨hyears, hmonths, hmonthsLe, hnonneg, hdaysLe⟩⟩

theorem age_isCalendarSpan_of_june :
    let age := Age.on ⟨2000, 6, 15, by decide⟩ ⟨2024, 6, 14, by decide⟩
    age.IsCalendarSpan ∧ age = ⟨23, 11, 30⟩ :=
  ⟨(age_isCalendarSpan_iff (by decide)).2.mpr (by decide), by decide⟩

/-- Born at the end of January, one is a month and minus two days old on the first of March. -/
theorem age_below_zero_days :
    let birth : Date := ⟨2001, 1, 31, by decide⟩
    let today : Date := ⟨2001, 3, 1, by decide⟩
    birth ≤ today ∧ Age.on birth today = ⟨0, 1, -2⟩ ∧ ¬ (Age.on birth today).IsCalendarSpan := by
  intro birth today
  have hage : Age.on birth today = ⟨0, 1, -2⟩ := by decide
  refine ⟨by decide, hage, fun hspan => ?_⟩
  have hdays := hspan.days_nonneg
  rw [hage] at hdays
  exact absurd hdays (by decide)

end DeskCalculator
