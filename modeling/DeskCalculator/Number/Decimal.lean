import DeskCalculator.Number.Binary64
/-!
Decimals and binary64 numbers: the number nearest to a decimal, and the shortest decimal that is read
back as a given number.
-/
namespace DeskCalculator

structure Decimal where
  coefficient : Nat
  exponent : Int
deriving DecidableEq, Repr, Inhabited

namespace Decimal

def digitCount (n : Nat) : Nat := (Nat.toDigits 10 n).length

/-- How many places the leading digit stands before the point: `10 ^ (order - 1)` is the greatest
power of ten that a decimal other than zero reaches. -/
def order (d : Decimal) : Int := digitCount d.coefficient + d.exponent

/-- A power of ten; there is none of a negative exponent, and one stands in its place. -/
def tenTo (exponent : Int) : Nat := Nat.pow 10 exponent.toNat

def quotient (d : Decimal) : Nat × Nat := (d.coefficient * tenTo d.exponent, tenTo (-d.exponent))

/-- The code of the binary64 number nearest to a decimal. Magnitudes of more than 310 places are
infinite and those that start after place 330 are zero, which keeps the powers small. -/
def code (d : Decimal) : Nat :=
  if d.coefficient = 0 then 0
  else if 310 < d.order then Binary64.infinityCode
  else if d.order < -330 then 0
  else Binary64.codeOfQuotient d.quotient.1 d.quotient.2

def orderOfQuotient (num den : Nat) : Int :=
  if den ≤ num then digitCount (num / den) else 1 - digitCount ((den - 1) / num)

def scaled (code : Nat) (exponent : Int) : Nat × Nat :=
  (Binary64.units code * tenTo (-exponent), tenTo exponent <<< Binary64.unitPlaces)

def nearest (code : Nat) (exponent : Int) : Decimal :=
  let (num, den) := scaled code exponent
  let floor := num / den
  ⟨if 2 * (num % den) < den then floor else floor + 1, exponent⟩

/-- Of the two multiples of `10 ^ exponent` around the magnitude of a code, the nearer one that is
read back as the code. -/
def readBack? (code : Nat) (exponent : Int) : Option Decimal :=
  let (num, den) := scaled code exponent
  let lower : Decimal := ⟨num / den, exponent⟩
  let upper : Decimal := ⟨num / den + 1, exponent⟩
  let first := nearest code exponent
  let second := if first = lower then upper else lower
  if first.code = code then some first
  else if second.code = code then some second
  else none

def maxDigits : Nat := 17

/-- The decimal with the fewest digits that is read back as the code of a finite magnitude other than
zero, and the nearest of those. -/
def shortest (code : Nat) : Decimal :=
  let order := orderOfQuotient (Binary64.units code) (1 <<< Binary64.unitPlaces)
  let found := (List.range (maxDigits - 1)).findSome? fun n => readBack? code (order - (n + 1 : Nat))
  found.getD (nearest code (order - maxDigits))

def digits (d : Decimal) : List Char :=
  ((Nat.toDigits 10 d.coefficient).reverse.dropWhile (· == '0')).reverse

end Decimal

end DeskCalculator
