import DeskCalculator.Fault
import DeskCalculator.Text.Blank
import DeskCalculator.Text.Digits
/-!
Dates of the Gregorian calendar, extended to all years, and their count in days.
-/
namespace DeskCalculator

namespace Calendar

/-- Every fourth year is a leap year, but of the years that end a century only every fourth. -/
def isLeap (year : Int) : Bool := year % 4 == 0 && (year % 100 != 0 || year % 400 == 0)

def daysInMonth (year : Int) (month : Nat) : Nat :=
  match month with
  | 2 => if isLeap year then 29 else 28
  | 4 | 6 | 9 | 11 => 30
  | _ => 31

def minYear : Int := -262143

def maxYear : Int := 262142

def isDate (year : Int) (month day : Nat) : Bool :=
  minYear ≤ year && year ≤ maxYear && 1 ≤ month && month ≤ 12 && 1 ≤ day
    && day ≤ daysInMonth year month

/-- The number of days from 1 January of year one to 1 January of a year; negative before year one. -/
def daysBeforeYear (year : Int) : Int :=
  let y := year - 1
  365 * y + y / 4 - y / 100 + y / 400

def daysBeforeMonth (year : Int) : (month : Nat) → Nat
  | 0 | 1 => 0
  | month + 2 => daysBeforeMonth year (month + 1) + daysInMonth year (month + 1)

end Calendar

open Calendar

structure Date where
  year : Int
  month : Nat
  day : Nat
  valid : isDate year month day = true
deriving DecidableEq, Repr

namespace Date

/-- The day from which times are counted. -/
def epoch : Date := ⟨1970, 1, 1, rfl⟩

instance : Inhabited Date := ⟨epoch⟩

def of? (year : Int) (month day : Nat) : Option Date :=
  if h : isDate year month day = true then some ⟨year, month, day, h⟩ else none

def dayNumber (d : Date) : Int := daysBeforeYear d.year + daysBeforeMonth d.year d.month + d.day

def epochDayNumber : Int := 719163

/-- The first of the years `latest`, `latest - 1` and so on that starts before day `n`; the search ends
after a number of tries. -/
def yearFrom (n : Int) (latest : Int) : Nat → Int
  | 0 => latest
  | tries + 1 => if daysBeforeYear latest < n then latest else yearFrom n (latest - 1) tries

def ofDayNumber? (n : Int) : Option Date :=
  let year := yearFrom n (n * 400 / 146097 + 2) 4
  let inYear := (n - daysBeforeYear year).toNat
  let month := ((List.range 12).filter fun m => daysBeforeMonth year (m + 1) < inYear).length
  of? year month (inYear - daysBeforeMonth year month)

/-- The day of a time, given in milliseconds since the start of 1970 on the clocks of the place. -/
def ofMillis? (millis : Int) : Option Date := ofDayNumber? (epochDayNumber + millis / 86400000)

def takeNumber (width : Nat) (cs : List Char) : Option (Nat × List Char) :=
  let digits := (cs.take width).takeWhile Char.isDigit
  if digits = [] then none else some (Text.digitsValue digits, cs.drop digits.length)

/-- Takes a year, after blanks: up to four digits, or any number of them after a sign. -/
def takeYear (cs : List Char) : Option (Int × List Char) :=
  match Text.dropBlanks cs with
  | '-' :: rest => (takeNumber rest.length rest).map fun (n, rest) => (-n, rest)
  | '+' :: rest => (takeNumber rest.length rest).map fun (n, rest) => (n, rest)
  | rest => (takeNumber 4 rest).map fun (n, rest) => (n, rest)

def takePart : List Char → Option (Nat × List Char)
  | '-' :: rest => takeNumber 2 (Text.dropBlanks rest)
  | _ => none

def ofText? (text : String) : Option Date := do
  let (year, rest) ← takeYear (Text.strip text.toList)
  let (month, rest) ← takePart rest
  let (day, rest) ← takePart rest
  if rest = [] then of? year month day else none

def read (text : String) : Except Fault Date :=
  match ofText? text with
  | some date => .ok date
  | none => .error Fault.invalidDate

def daysInPreviousMonth (d : Date) : Nat :=
  if d.month = 1 then 31 else daysInMonth d.year (d.month - 1)

end Date

end DeskCalculator
