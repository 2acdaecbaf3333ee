import DeskCalculator.Calendar.Date
import DeskCalculator.Expression.Token
import DeskCalculator.History
import DeskCalculator.Programmer.Base
import DeskCalculator.Programmer.Bitwise
import DeskCalculator.Scientific
/-!
What a session takes in and what it answers: modes, themes, inputs and events.
-/
namespace DeskCalculator

inductive Mode where
  | standard
  | scientific
  | programmer
  | date
deriving DecidableEq, Repr, Inhabited

namespace Mode

def render : Mode → String
  | standard => "standard"
  | scientific => "scientific"
  | programmer => "programmer"
  | date => "date"

def ofName (name : String) : Except Fault Mode :=
  match name.toLower with
  | "standard" | "std" => .ok standard
  | "scientific" | "sci" => .ok scientific
  | "programmer" | "prog" => .ok programmer
  | "date" => .ok date
  | _ => .error Fault.unknownMode

def isDecimal : Mode → Bool
  | standard | scientific => true
  | programmer | date => false

end Mode

inductive Theme where
  | light
  | dark
deriving DecidableEq, Repr

namespace Theme

instance : Inhabited Theme := ⟨dark⟩

def render : Theme → String
  | light => "light"
  | dark => "dark"

def ofName : String → Except Fault Theme
  | "light" => .ok light
  | "dark" => .ok dark
  | _ => .error Fault.unknownTheme

def toggle : Theme → Theme
  | light => dark
  | dark => light

end Theme

inductive Input where
  | digit (c : Char)
  | point
  | operator (op : Operator)
  | opening
  | closing
  | equals
  | clear
  | backspace
  | setMode (mode : Mode)
  | toggleAngle
  | setBase (base : Base)
  | function (function : ScientificFunction)
  | bitwise (op : Bitwise)
  | setStart (text : String)
  | setEnd (text : String)
  | setBirth (text : String)
  | difference
  | age
  | toggleTheme
  | toggleHistory
deriving DecidableEq, Repr, Inhabited

inductive Event where
  | ignored
  | changed
  | evaluated (entry : History.Entry)
  | failed (fault : Fault)
  | reset
deriving DecidableEq, Repr, Inhabited

/-- The times of an input: the wall clock, in milliseconds since 1970, for the history, a clock that is
never set, also in milliseconds, for what is due later, and the day by the local calendar. -/
structure Clock where
  wall : Nat
  steady : Nat
  today : Date
deriving DecidableEq, Repr, Inhabited

/-- What can happen to a session: an input comes, or time passes. -/
inductive Action where
  | enter (clock : Clock) (input : Input)
  | tick (steady : Nat)
deriving DecidableEq, Repr

end DeskCalculator
