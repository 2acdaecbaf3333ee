import DeskCalculator.Expression.Token
/-!
Checked arithmetic on binary64 numbers: a result that is infinite or no number is a fault, and so is a
division by zero.
-/
namespace DeskCalculator.Arithmetic

def finite (x : Float) : Except Fault Float :=
  if x.isNaN then .error Fault.notANumber
  else if x.isInf then .error Fault.overflow
  else .ok x

def negate (x : Float) : Except Fault Float := .ok (-x)

def multiply (x y : Float) : Except Fault Float := finite (x * y)

def divide (x y : Float) : Except Fault Float :=
  if y == 0.0 then .error Fault.divisionByZero else finite (x / y)

def add (x y : Float) : Except Fault Float := finite (x + y)

def subtract (x y : Float) : Except Fault Float := finite (x - y)

def apply : Operator → Float → Float → Except Fault Float
  | .plus => add
  | .minus => subtract
  | .times => multiply
  | .divide => divide

end DeskCalculator.Arithmetic
