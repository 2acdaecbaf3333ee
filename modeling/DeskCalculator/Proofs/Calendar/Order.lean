import DeskCalculator.Proofs.Calendar.Width
import Mathlib.Order.Basic

/-! Dates in the order of time. A day has its place by its number, and by its year, its month and its day in the month,
each of which counts only where those before it are the same. -/
namespace DeskCalculator

namespace Calendar

def daysInYear (year : ℤ) : ℕ := if isLeap year then 366 else 365

theorem daysBeforeYear_succ (year : ℤ) : daysBeforeYear (year + 1) = daysBeforeYear year + daysInYear year := by
  simp only [daysBeforeYear, daysInYear, isLeap, Bool.and_eq_true, Bool.or_eq_true, bne_iff_ne, beq_iff_eq]
  split <;> push_cast <;> omega

theorem daysBeforeYear_monotone : Monotone daysBeforeYear := by
  apply monotone_int_of_le_succ
  intro year
  rw [daysBeforeYear_succ]
  omega

theorem daysBeforeMonth_succ {month : ℕ} (hmonth : 1 ≤ month) (year : ℤ) :
    daysBeforeMonth year (month + 1) = daysBeforeMonth year month + daysInMonth year month := by
  obtain ⟨month, rfl⟩ := Nat.exists_eq_add_of_le' hmonth
  rfl

theorem daysBeforeMonth_monotone (year : ℤ) : Monotone (daysBeforeMonth year) := by
  apply monotone_nat_of_le_succ
  intro month
  cases month with
  | zero => exact le_rfl
  | succ month => exact Nat.le_add_right _ _

theorem daysBeforeMonth_thirteen (year : ℤ) : daysBeforeMonth year 13 = daysInYear year := by
  simp only [daysBeforeMonth, daysInMonth, daysInYear]
  split <;> rfl

end Calendar

namespace Date
open Calendar

theorem day_le_daysInMonth (d : Date) : d.day ≤ daysInMonth d.year d.month := by
  have hvalid := d.valid
  simp only [isDate, Bool.and_eq_true, decide_eq_true_eq] at hvalid
  exact hvalid.2

/-- The days of a month are numbered before those of the next one. -/
theorem dayInYear_le (d : Date) : daysBeforeMonth d.year d.month + d.day ≤ daysBeforeMonth d.year (d.month + 1) := by
  rw [daysBeforeMonth_succ (inRange d).one_le_month]
  have hday := d.day_le_daysInMonth
  omega

/-- The days of a year are numbered before those of the next one. -/
theorem dayNumber_le (d : Date) : d.dayNumber ≤ daysBeforeYear (d.year + 1) := by
  have hmonth : d.month + 1 ≤ 13 := Nat.succ_le_succ (inRange d).month_le
  have hday := d.dayInYear_le.trans (daysBeforeMonth_monotone d.year hmonth)
  rw [daysBeforeMonth_thirteen] at hday
  rw [daysBeforeYear_succ, dayNumber]
  omega

/-- The parts of a date, the year before the month and the month before the day. -/
def key (d : Date) : ℤ ×ₗ ℕ ×ₗ ℕ := toLex (d.year, toLex (d.month, d.day))

theorem key_injective : Function.Injective key := by
  rintro ⟨year, month, day, hvalid⟩ ⟨year', month', day', hvalid'⟩ h
  simp only [key, toLex_inj, Prod.mk.injEq] at h
  obtain ⟨rfl, rfl, rfl⟩ := h
  rfl

theorem key_lt_iff {a b : Date} : a.key < b.key ↔
    a.year < b.year ∨ a.year = b.year ∧ (a.month < b.month ∨ a.month = b.month ∧ a.day < b.day) := by
  rw [key, key, Prod.Lex.toLex_lt_toLex, Prod.Lex.toLex_lt_toLex]

theorem dayNumber_lt_of_key_lt {a b : Date} (h : a.key < b.key) : a.dayNumber < b.dayNumber := by
  have hone := (inRange b).one_le_day
  rcases key_lt_iff.mp h with hyear | ⟨hyear, hmonth | ⟨hmonth, hday⟩⟩
  · calc a.dayNumber ≤ daysBeforeYear (a.year + 1) := a.dayNumber_le
      _ ≤ daysBeforeYear b.year := daysBeforeYear_monotone hyear
      _ < b.dayNumber := by rw [dayNumber]; omega
  · have hdays := a.dayInYear_le.trans (daysBeforeMonth_monotone a.year hmonth)
    rw [dayNumber, dayNumber, ← hyear]
    omega
  · rw [dayNumber, dayNumber, ← hyear, ← hmonth]
    omega

theorem dayNumber_lt_iff {a b : Date} : a.dayNumber < b.dayNumber ↔ a.key < b.key := by
  refine ⟨fun h => ?_, dayNumber_lt_of_key_lt⟩
  rcases lt_trichotomy a.key b.key with hlt | heq | hgt
  · exact hlt
  · exact absurd (congrArg dayNumber (key_injective heq)) h.ne
  · exact absurd (dayNumber_lt_of_key_lt hgt) h.asymm

theorem dayNumber_injective : Function.Injective dayNumber := by
  intro a b h
  apply key_injective
  have hlt : ¬ a.key < b.key := fun hkey => (dayNumber_lt_of_key_lt hkey).ne h
  have hgt : ¬ b.key < a.key := fun hkey => (dayNumber_lt_of_key_lt hkey).ne' h
  exact le_antisymm (not_lt.mp hgt) (not_lt.mp hlt)

/-- A date is before another one if its day is. -/
instance : LinearOrder Date := LinearOrder.lift' dayNumber dayNumber_injective

theorem lt_iff {a b : Date} : a < b ↔
    a.year < b.year ∨ a.year = b.year ∧ (a.month < b.month ∨ a.month = b.month ∧ a.day < b.day) :=
  dayNumber_lt_iff.trans key_lt_iff

theorem le_iff {a b : Date} : a ≤ b ↔
    a.year < b.year ∨ a.year = b.year ∧ (a.month < b.month ∨ a.month = b.month ∧ a.day ≤ b.day) := by
  rw [← not_lt, lt_iff]
  omega

end Date

end DeskCalculator
