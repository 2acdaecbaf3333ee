/-!
Faults: why an operation of the calculator gives no value. A fault has a kind, the columns of the
text it is about, and a detail in words.
-/
namespace DeskCalculator

/-- A half-open range of character positions in a text; `0..0` stands for no position. -/
structure Column where
  start : Nat
  stop : Nat
deriving DecidableEq, Repr, Inhabited

namespace Column

def nowhere : Column := ⟨0, 0⟩

def render (c : Column) : String := s!"{c.start}..{c.stop}"

end Column

inductive FaultKind where
  | invalidExpression
  | outOfRange
  | parseFailure
  | syntaxError
  | storageError
deriving DecidableEq, Repr, Inhabited

namespace FaultKind

def number : FaultKind → Nat
  | invalidExpression => 1
  | outOfRange => 2
  | parseFailure => 3
  | syntaxError => 4
  | storageError => 5

def title : FaultKind → String
  | invalidExpression => "INVALID EXPRESSION"
  | outOfRange => "OUT OF RANGE"
  | parseFailure => "PARSE FAILURE"
  | syntaxError => "SYNTAX ERROR"
  | storageError => "STORAGE ERROR"

def isEvaluation : FaultKind → Bool
  | invalidExpression | outOfRange | parseFailure => true
  | syntaxError | storageError => false

end FaultKind

structure Fault where
  kind : FaultKind
  column : Column := Column.nowhere
  detail : String := ""
deriving DecidableEq, Repr, Inhabited

namespace Fault

def locate (fault : Fault) (column : Column) : Fault := { fault with column }

/-- The title, then ` AT a..b` for a fault with a place, then `; detail` for one with a detail. -/
def render (fault : Fault) : String :=
  fault.kind.title
    ++ (if fault.column = Column.nowhere then "" else " AT " ++ fault.column.render)
    ++ (if fault.detail = "" then "" else "; " ++ fault.detail)

def inspect (fault : Fault) : String := "Error \x7b " ++ fault.render ++ " \x7d"

def invalid (detail : String) : Fault := { kind := .invalidExpression, detail }

def emptyExpression : Fault := invalid "EMPTY EXPRESSION"

def expectedExpression : Fault := invalid "EXPECTED EXPRESSION"

def malformedNumber : Fault := invalid "MALFORMED NUMBER"

def unbalancedParenthesis : Fault := invalid "UNBALANCED PARENTHESIS"

def unexpectedToken : Fault := invalid "UNEXPECTED TOKEN"

def tooComplex : Fault := invalid "EXPRESSION TOO COMPLEX"

def missingOperand : Fault := invalid "MISSING OPERAND"

def unexpectedOperand : Fault := invalid "UNEXPECTED OPERAND"

def divisionByZero : Fault := invalid "DIVISION BY ZERO"

def notANumber : Fault := invalid "NOT A NUMBER"

def overflow : Fault := invalid "OVERFLOW"

def invalidDate : Fault := invalid "INVALID DATE"

def factorial : Fault := { kind := .outOfRange, detail := "FACTORIAL" }

def noInteger : Fault := { kind := .parseFailure, detail := "NOT A NUMBER" }

def integerOverflow : Fault := { kind := .parseFailure, detail := "OVERFLOW" }

def unknownTheme : Fault := { kind := .parseFailure, detail := "UNKNOWN THEME" }

def unknownBase : Fault := { kind := .syntaxError, detail := "UNKNOWN BASE" }

def unknownMode : Fault := { kind := .syntaxError, detail := "UNKNOWN MODE" }

def unknownKey (c : Char) : Fault := { kind := .syntaxError, detail := "UNKNOWN KEY " ++ c.toString }

def unknownCommand (name : String) : Fault :=
  { kind := .syntaxError, detail := "UNKNOWN COMMAND :" ++ name }

def storage : Fault := { kind := .storageError }

end Fault

end DeskCalculator
