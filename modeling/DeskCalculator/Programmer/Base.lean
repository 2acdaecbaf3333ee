import DeskCalculator.Fault
import DeskCalculator.Text.Blank
import DeskCalculator.Text.Digits
/-!
The four bases of the programmer's calculator, and 64-bit integers written in them with a sign. Reading
takes the integer that a text starts with; the least integer has no written form that is read back.
-/
namespace DeskCalculator

inductive Base where
  | bin
  | oct
  | dec
  | hex
deriving DecidableEq, Repr, Inhabited

namespace Base

def radix : Base → Nat
  | bin => 2
  | oct => 8
  | dec => 10
  | hex => 16

def render : Base → String
  | bin => "BIN"
  | oct => "OCT"
  | dec => "DEC"
  | hex => "HEX"

def ofName (name : String) : Except Fault Base :=
  match name.toUpper with
  | "BIN" => .ok bin
  | "OCT" => .ok oct
  | "DEC" => .ok dec
  | "HEX" => .ok hex
  | _ => .error Fault.unknownBase

/-- The value of a digit or letter, as in base 36; the case of a letter does not matter. -/
def digitValue? (c : Char) : Option Nat :=
  if c.isDigit then some (c.toNat - '0'.toNat)
  else if c.isLower then some (c.toNat - 'a'.toNat + 10)
  else if c.isUpper then some (c.toNat - 'A'.toNat + 10)
  else none

def isDigit (base : Base) (c : Char) : Bool := (digitValue? c).any (· < base.radix)

/-- The number that a run of digits writes, the first digit being the most significant. -/
def magnitude (base : Base) (digits : List Char) : Nat :=
  digits.foldl (fun n c => n * base.radix + (digitValue? c).getD 0) 0

def maxMagnitude : Nat := 0x7FFFFFFFFFFFFFFF

/-- Reads the integer that a text starts with, after blanks: an optional sign and the longest run of
digits. What follows the digits is passed over. -/
def read (base : Base) (text : String) : Except Fault Int64 :=
  let (negative, cs) := Text.takeSign (Text.dropBlanks text.toList)
  let digits := cs.takeWhile base.isDigit
  if digits = [] then .error Fault.noInteger
  else
    let magnitude := base.magnitude digits
    if maxMagnitude < magnitude then .error Fault.integerOverflow
    else .ok (Int64.ofInt (if negative then -(magnitude : Int) else magnitude))

def digits (base : Base) (n : Nat) : List Char := (Nat.toDigits base.radix n).map Char.toUpper

def write (base : Base) (n : Int64) : String :=
  let digits := base.digits n.toInt.natAbs
  String.ofList (if n < 0 then '-' :: digits else digits)

end Base

/-- The integer that a text starts with, written in another base; text that starts with none, or with
one that does not fit, becomes zero. Nothing and a lone zero are not read at all. -/
def convert (text : String) (source target : Base) : String :=
  if text = "" || text = "0" then "0"
  else
    match source.read text with
    | .ok n => target.write n
    | .error _ => "0"

end DeskCalculator
