import DeskCalculator.Number.Decimal
import DeskCalculator.Text.Blank
import DeskCalculator.Text.Digits
/-!
Numerals: a sign, digits with a point among them, and an exponent. `scan` takes the longest numeral
from the front of a text; a whole text is a number if nothing is left, or if it names infinity or a
number that is none.
-/
namespace DeskCalculator

open Text

structure Numeral where
  negative : Bool
  decimal : Decimal
deriving DecidableEq, Repr, Inhabited

namespace Numeral

def value (n : Numeral) : Float := Binary64.ofCode n.negative n.decimal.code

def takeFraction : List Char → List Char × List Char
  | '.' :: rest => takeDigits rest
  | cs => ([], cs)

/-- Takes an exponent: the letter, an optional sign and at least one digit. Where one of them is
missing there is no exponent and nothing is taken. -/
def takeExponent : List Char → Int × List Char
  | [] => (0, [])
  | c :: rest =>
    if c == 'e' || c == 'E' then
      let (negative, unsigned) := takeSign rest
      match takeDigits unsigned with
      | ([], _) => (0, c :: rest)
      | (digits, after) => (if negative then -(digitsValue digits : Int) else digitsValue digits, after)
    else (0, c :: rest)

def scan (cs : List Char) : Option (Numeral × List Char) :=
  let (negative, cs) := takeSign cs
  let (whole, cs) := takeDigits cs
  let (fraction, cs) := takeFraction cs
  if whole ++ fraction = [] then none
  else
    let (exponent, cs) := takeExponent cs
    some (⟨negative, ⟨digitsValue (whole ++ fraction), exponent - fraction.length⟩⟩, cs)

def namedCode? (cs : List Char) : Option Nat :=
  match String.ofList (cs.map Char.toLower) with
  | "inf" | "infinity" => some Binary64.infinityCode
  | "nan" => some Binary64.nanCode
  | _ => none

def read? (text : String) : Option Float :=
  match scan text.toList with
  | some (numeral, []) => some numeral.value
  | some _ => none
  | none =>
    let (negative, name) := takeSign text.toList
    (namedCode? name).map (Binary64.ofCode negative)

def leading (text : String) : Float :=
  match scan (dropBlanks text.toList) with
  | some (numeral, _) => numeral.value
  | none => Binary64.nan

end Numeral

end DeskCalculator
