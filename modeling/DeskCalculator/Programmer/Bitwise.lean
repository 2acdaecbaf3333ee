import DeskCalculator.Fault
/-!
Bitwise operators. They read the low 32 bits of their operands as signed integers and give a signed
32-bit integer; three of them take two operands and three take one.
-/
namespace DeskCalculator

inductive Bitwise where
  | and
  | or
  | xor
  | not
  | shiftLeft
  | shiftRight
deriving DecidableEq, Repr, Inhabited

namespace Bitwise

def render : Bitwise → String
  | and => "AND"
  | or => "OR"
  | xor => "XOR"
  | not => "NOT"
  | shiftLeft => "LSHIFT"
  | shiftRight => "RSHIFT"

def isBinary : Bitwise → Bool
  | and | or | xor => true
  | not | shiftLeft | shiftRight => false

/-- The operator applied to one operand. Shifts are by one place; the left one drops the top bit and
the right one keeps the sign. -/
def unary (op : Bitwise) (x : Int64) : Except Fault Int64 :=
  let word := x.toInt32
  match op with
  | not => .ok (~~~word).toInt64
  | shiftLeft => .ok (word <<< 1).toInt64
  | shiftRight => .ok (word >>> 1).toInt64
  | and | or | xor => .error Fault.missingOperand

def binary (op : Bitwise) (x y : Int64) : Except Fault Int64 :=
  let left := x.toInt32
  let right := y.toInt32
  match op with
  | and => .ok (left &&& right).toInt64
  | or => .ok (left ||| right).toInt64
  | xor => .ok (left ^^^ right).toInt64
  | not | shiftLeft | shiftRight => .error Fault.unexpectedOperand

end Bitwise

end DeskCalculator
