import DeskCalculator.Proofs.Calendar.Lines
import DeskCalculator.Proofs.Expression.Exponent

/-! How long the result lines of dates can be. The years of dates are bounded, and with them the days between two
dates; a count of days is not less than the count of any longer unit in it, for all that is rounded. -/
namespace DeskCalculator

namespace Calendar

theorem daysInMonth_le (year : ℤ) (month : ℕ) : daysInMonth year month ≤ 31 := by
  unfold daysInMonth
  split
  · split <;> omega
  all_goals omega

theorem daysBeforeMonth_le (year : ℤ) (month : ℕ) : daysBeforeMonth year month ≤ 31 * month := by
  induction month using daysBeforeMonth.induct with
  | case1 | case2 => exact Nat.zero_le _
  | case3 month ih =>
    have hdays := daysInMonth_le year (month + 1)
    rw [daysBeforeMonth]
    omega

theorem daysInPreviousMonth_le (d : Date) : d.daysInPreviousMonth ≤ 31 := by
  unfold Date.daysInPreviousMonth
  split
  · exact le_rfl
  · exact daysInMonth_le _ _

/-- The bounds of the fields of a date. -/
structure InRange (d : Date) : Prop where
  minYear_le : minYear ≤ d.year
  year_le : d.year ≤ maxYear
  one_le_month : 1 ≤ d.month
  month_le : d.month ≤ 12
  one_le_day : 1 ≤ d.day
  day_le : d.day ≤ 31

theorem inRange (d : Date) : InRange d := by
  have hvalid := d.valid
  have hdays := daysInMonth_le d.year d.month
  simp only [isDate, Bool.and_eq_true, decide_eq_true_eq] at hvalid
  obtain ⟨⟨⟨⟨⟨hminYear, hyear⟩, honeMonth⟩, hmonth⟩, honeDay⟩, hday⟩ := hvalid
  exact ⟨hminYear, hyear, honeMonth, hmonth, honeDay, by omega⟩

theorem days_between_le (a b : Date) : (b.dayNumber - a.dayNumber).natAbs ≤ 10 ^ 9 := by
  have hdayNumber (d : Date) : -100000000 ≤ d.dayNumber ∧ d.dayNumber ≤ 100000000 := by
    obtain ⟨hminYear, hyear, honeMonth, hmonth, honeDay, hday⟩ := inRange d
    have hdays := daysBeforeMonth_le d.year d.month
    unfold minYear at hminYear
    unfold maxYear at hyear
    simp only [Date.dayNumber, daysBeforeYear]
    omega
  have ha := hdayNumber a
  have hb := hdayNumber b
  omega

end Calendar

namespace DateDifference
open Binary64 Number

/-- A quotient by a number from one on is not greater than what was divided, rounded or not. -/
theorem wholeQuotient_le {n bound : ℕ} {d : Decimal} (hd : 2 ^ unitPlaces ≤ units d.code) (hn : n ≤ bound)
    (hbound : bound ≠ 0) (hlt : bound < 2 ^ 53) : wholeQuotient n d ≤ bound := by
  have hpos : 0 < units d.code := (Nat.two_pow_pos unitPlaces).trans_le hd
  obtain ⟨c, hc, hcode⟩ := codeOfQuotient_nearest (n <<< unitPlaces) hpos
  have hquotient : ((n <<< unitPlaces : ℕ) : ℚ) * 2 ^ unitPlaces / (units d.code : ℕ) ≤ bound * 2 ^ unitPlaces := by
    rw [div_le_iff₀ (by exact_mod_cast hpos), Nat.shiftLeft_eq]
    have hscaled : n * 2 ^ unitPlaces * 2 ^ unitPlaces ≤ bound * 2 ^ unitPlaces * units d.code :=
      Nat.mul_le_mul (Nat.mul_le_mul_right _ hn) hd
    exact_mod_cast hscaled
  -- The bound is a number itself, so that rounding does not pass it.
  have hunits : units c ≤ bound * 2 ^ unitPlaces := by
    exact_mod_cast units_le_of_nearest hc hbound hlt hquotient
  rw [wholeQuotient, wholePart, hcode, Nat.shiftRight_eq_div_pow]
  calc units (min c infinityCode) / 2 ^ unitPlaces
      ≤ bound * 2 ^ unitPlaces / 2 ^ unitPlaces :=
        Nat.div_le_div_right ((units_strictMono.monotone (Nat.min_le_left _ _)).trans hunits)
    _ = bound := Nat.mul_div_cancel _ (Nat.two_pow_pos _)

theorem between_le (a b : Date) :
    (between a b).days ≤ 10 ^ 9 ∧ (between a b).months ≤ 10 ^ 9 ∧ (between a b).years ≤ 10 ^ 9 := by
  have hdays := Calendar.days_between_le a b
  refine ⟨hdays, ?_, ?_⟩
  · exact wholeQuotient_le (by decide +kernel) hdays (by decide) (by decide)
  · exact wholeQuotient_le (by decide +kernel) hdays (by decide) (by decide)

end DateDifference

namespace Calendar

theorem age_le (birth day : Date) :
    (Age.on birth day).years.natAbs ≤ 10 ^ 9 ∧ (Age.on birth day).months.natAbs ≤ 10 ^ 9 ∧
      (Age.on birth day).days.natAbs ≤ 10 ^ 9 := by
  obtain ⟨hminBirth, hbirthYear, hbirthOne, hbirthMonth, hbirthOneDay, hbirthDay⟩ := inRange birth
  obtain ⟨hminDay, hdayYear, hdayOne, hdayMonth, hdayOneDay, hdayDay⟩ := inRange day
  have hprevious := daysInPreviousMonth_le day
  unfold minYear at hminBirth hminDay
  unfold maxYear at hbirthYear hdayYear
  -- a field below zero borrows from the next one, which keeps both within bounds
  simp only [Age.on]
  split_ifs <;> dsimp only <;> omega

theorem length_nat_le {n : ℕ} (hn : n ≤ 10 ^ 9) : n.repr.length ≤ 10 := by
  rw [← String.length_toList, Nat.toList_repr]
  exact (Nat.length_toDigits_le_iff (by decide) (by decide)).mpr (by omega)

theorem length_int_le {n : ℤ} (hn : n.natAbs ≤ 10 ^ 9) : n.repr.length ≤ 11 := by
  rw [Int.repr_eq_if]
  by_cases hsign : 0 ≤ n
  · rw [if_pos hsign]
    exact (length_nat_le (by omega)).trans (by decide)
  · rw [if_neg hsign, String.length_append]
    have hdigits := length_nat_le (n := (-n).toNat) (by omega)
    have hminus : "-".length = 1 := rfl
    omega

theorem IsResultLine.length_le {text : String} (h : IsResultLine text) : text.length ≤ 64 := by
  rcases h with ⟨a, b, rfl⟩ | ⟨birth, day, rfl⟩
  · obtain ⟨hdays, hmonths, hyears⟩ := DateDifference.between_le a b
    generalize DateDifference.between a b = d at hdays hmonths hyears
    have hlength : d.render.length =
        d.days.repr.length + 4 + d.months.repr.length + 4 + d.years.repr.length + 1 := by
      simp only [DateDifference.render, String.length_append]
      rfl
    have hfirst := length_nat_le hdays
    have hsecond := length_nat_le hmonths
    have hthird := length_nat_le hyears
    omega
  · obtain ⟨hyears, hmonths, hdays⟩ := age_le birth day
    generalize Age.on birth day = age at hyears hmonths hdays
    have hlength : age.render.length =
        age.years.repr.length + 2 + age.months.repr.length + 2 + age.days.repr.length + 1 := by
      simp only [Age.render, String.length_append]
      rfl
    have hfirst := length_int_le hyears
    have hsecond := length_int_le hmonths
    have hthird := length_int_le hdays
    omega

theorem IsResultLine.ne_empty {text : String} (h : IsResultLine text) : text ≠ "" := by
  obtain ⟨front, digit, unit, htext, -⟩ := h.exists_last
  rintro rfl
  simp at htext

end Calendar

end DeskCalculator
