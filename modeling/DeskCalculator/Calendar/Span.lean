import DeskCalculator.Calendar.Date
import DeskCalculator.Number.Decimal
/-!
Spans between days. A difference is one count of days, given also in months of 30.44 days and in years
of 365.25 days, each rounded down on its own; the three figures do not add up. An age is a count of
years, months and days that do.
-/
namespace DeskCalculator

structure DateDifference where
  days : Nat
  months : Nat
  years : Nat
deriving DecidableEq, Repr

namespace DateDifference

def daysPerMonth : Decimal := ⟨3044, -2⟩

def daysPerYear : Decimal := ⟨36525, -2⟩

/-- The whole part of `n / d`, where `d` is first rounded to the nearest binary64 number, and then
the quotient is. -/
def wholeQuotient (n : Nat) (d : Decimal) : Nat :=
  Binary64.wholePart (Binary64.codeOfQuotient (n <<< Binary64.unitPlaces) (Binary64.units d.code))

def between (a b : Date) : DateDifference :=
  let days := (b.dayNumber - a.dayNumber).natAbs
  ⟨days, wholeQuotient days daysPerMonth, wholeQuotient days daysPerYear⟩

def render (d : DateDifference) : String := s!"{d.days}d | {d.months}m | {d.years}y"

end DateDifference

structure Age where
  years : Int
  months : Int
  days : Int
deriving DecidableEq, Repr

namespace Age

/-- The span from a birth to a day. Fields are subtracted one by one; a day field below zero borrows
the length of the month before the later day's month, a month field below zero borrows a year. -/
def on (birth today : Date) : Age :=
  let days : Int := today.day - birth.day
  let months : Int := today.month - birth.month
  let years : Int := today.year - birth.year
  let (months, days) := if days < 0 then (months - 1, days + today.daysInPreviousMonth) else (months, days)
  let (years, months) := if months < 0 then (years - 1, months + 12) else (years, months)
  ⟨years, months, days⟩

def render (age : Age) : String := s!"{age.years}y {age.months}m {age.days}d"

end Age

end DeskCalculator
