import DeskCalculator.Fault
/-!
Functions of the scientific calculator. A result that is infinite or no number is returned as it is;
only the factorial is refused outside its range.
-/
namespace DeskCalculator

inductive AngleUnit where
  | degrees
  | radians
deriving DecidableEq, Repr, Inhabited

namespace AngleUnit

def render : AngleUnit → String
  | degrees => "DEG"
  | radians => "RAD"

def toggle : AngleUnit → AngleUnit
  | degrees => radians
  | radians => degrees

def pi : Float := 3.141592653589793

def toRadians (unit : AngleUnit) (angle : Float) : Float :=
  match unit with
  | degrees => angle * pi / 180.0
  | radians => angle

end AngleUnit

inductive ScientificFunction where
  | sin
  | cos
  | tan
  | log
  | ln
  | sqrt
  | square
  | exp
  | factorial
deriving DecidableEq, Repr, Inhabited

namespace ScientificFunction

def render : ScientificFunction → String
  | sin => "sin"
  | cos => "cos"
  | tan => "tan"
  | log => "log"
  | ln => "ln"
  | sqrt => "sqrt"
  | square => "x²"
  | exp => "exp"
  | factorial => "fact"

def ofName? : String → Option ScientificFunction
  | "sin" => some sin
  | "cos" => some cos
  | "tan" => some tan
  | "log" => some log
  | "ln" => some ln
  | "sqrt" => some sqrt
  | "sq" | "x²" => some square
  | "exp" => some exp
  | "fact" => some factorial
  | _ => none

def maxFactorial : Nat := 170

def productTo (n : Nat) : Float :=
  (List.range n).foldl (fun product i => if i = 0 then product else product * Float.ofNat (i + 1)) 1.0

/-- The factorial of the whole part of a number from zero to below 171. -/
def factorialOf (x : Float) : Except Fault Float :=
  if 0.0 ≤ x && x < Float.ofNat (maxFactorial + 1) then .ok (productTo x.toUInt64.toNat)
  else .error Fault.factorial

def apply (function : ScientificFunction) (x : Float) (unit : AngleUnit) : Except Fault Float :=
  match function with
  | sin => .ok (unit.toRadians x).sin
  | cos => .ok (unit.toRadians x).cos
  | tan => .ok (unit.toRadians x).tan
  | log => .ok x.log10
  | ln => .ok x.log
  | sqrt => .ok x.sqrt
  | square => .ok (x * x)
  | exp => .ok x.exp
  | factorial => factorialOf x

end ScientificFunction

end DeskCalculator
