import DeskCalculator.Calendar.Span
import DeskCalculator.Expression.Evaluation
import DeskCalculator.Number.Rendering
import DeskCalculator.Session.State
/-!
What each input does to a session that shows no failure. An input that the mode has no use for is
refused; a calculation may fail.
-/
namespace DeskCalculator

inductive Effect where
  | refused
  | changed (next : Session)
  | evaluated (next : Session) (entry : History.Entry)

namespace Session

/-- Puts a character at the end of the entry, or in place of a lone zero, if there is room. -/
def append (s : Session) (c : Char) : Effect :=
  if maxEntryLength ≤ s.entry.length then .refused
  else .changed { s with entry := if s.entry = "0" then c.toString else s.entry.push c }

def isDigit (s : Session) (c : Char) : Bool :=
  match s.mode with
  | .programmer => s.base.isDigit c
  | .standard | .scientific => c.isDigit
  | .date => false

def enterDigit (s : Session) (c : Char) : Effect :=
  if s.isDigit c.toUpper then s.append c.toUpper else .refused

def lastNumeral (text : String) : List Char :=
  (text.toList.reverse.takeWhile Token.isLiteralChar).reverse

def enterPoint (s : Session) : Effect :=
  if s.mode.isDecimal && !(lastNumeral s.entry).contains '.' && s.entry.length < maxEntryLength then
    .changed { s with entry := s.entry.push '.' }
  else .refused

/-- An operator: the entry goes to the expression and a new one begins. -/
def enterOperator (s : Session) (op : Operator) : Effect :=
  if s.mode.isDecimal then
    .changed { s with expression := (s.expression ++ s.entry).push op.symbol, entry := "0" }
  else .refused

def enterParenthesis (s : Session) (c : Char) : Effect :=
  if s.mode = .scientific then s.append c else .refused

def entryInteger (s : Session) : Except Fault Int64 :=
  (s.base.read s.entry).mapError fun _ => Fault.notANumber

def joinPending (s : Session) (y : Int64) : Except Fault Int64 :=
  match s.pending with
  | some (op, x) => op.binary x y
  | none => .ok y

def conclude (s : Session) (clock : Clock) (result shown : String) : Effect :=
  let entry : History.Entry := ⟨s.expression ++ s.entry, result, Int64.ofNat clock.wall⟩
  .evaluated { s with entry := shown, expression := "", history := s.history.push entry } entry

def enterEquals (s : Session) (clock : Clock) : Except Fault Effect :=
  match s.mode with
  | .standard | .scientific => do
    let result := Number.render (← evaluate (s.expression ++ s.entry))
    return s.conclude clock result result
  | .programmer => do
    let value ← s.joinPending (← s.entryInteger)
    return { s with pending := none }.conclude clock (Base.dec.write value) (s.base.write value)
  | .date => .ok .refused

def cleared (s : Session) : Session := { s with entry := "0", expression := "", pending := none }

/-- The last character of the entry is taken away; neither nothing nor a lone sign is left. -/
def enterBackspace (s : Session) : Effect :=
  let rest := String.ofList s.entry.toList.dropLast
  .changed { s with entry := if rest = "" || rest = "-" then "0" else rest }

def enterAngle (s : Session) : Effect :=
  if s.mode = .scientific then .changed { s with angle := s.angle.toggle } else .refused

def enterBase (s : Session) (base : Base) : Effect :=
  if s.mode = .programmer then .changed { s with entry := convert s.entry s.base base, base }
  else .refused

def enterFunction (s : Session) (function : ScientificFunction) : Except Fault Effect :=
  if s.mode = .scientific then do
    let value ← function.apply (Numeral.leading s.entry) s.angle
    if value.isFinite then return .changed { s with entry := Number.render value }
    else .error Fault.notANumber
  else .ok .refused

/-- A bitwise operator: of one operand it changes the entry; of two it waits for the second one, after
an operator that was waiting before has got its own. -/
def enterBitwise (s : Session) (op : Bitwise) : Except Fault Effect :=
  if s.mode = .programmer then do
    let value ← s.entryInteger
    if op.isBinary then
      let value ← s.joinPending value
      return .changed { s with
        expression := s.base.write value ++ " " ++ op.render ++ " "
        pending := some (op, value)
        entry := "0" }
    else
      return .changed { s with entry := s.base.write (← op.unary value) }
  else .ok .refused

def enterDates (s : Session) (dates : DateFields) : Effect :=
  if s.mode = .date then .changed { s with dates } else .refused

def enterDifference (s : Session) : Except Fault Effect :=
  if s.mode = .date && s.dates.start != "" && s.dates.stop != "" then do
    let start ← Date.read s.dates.start
    let stop ← Date.read s.dates.stop
    return .changed { s with entry := (DateDifference.between start stop).render }
  else .ok .refused

def enterAge (s : Session) (clock : Clock) : Except Fault Effect :=
  if s.mode = .date && s.dates.birth != "" then do
    let birth ← Date.read s.dates.birth
    return .changed { s with entry := (Age.on birth clock.today).render }
  else .ok .refused

/-- What an input does to a session that shows no failure. The toggles of the screen are no part of a
calculation and have no place here. -/
def apply (s : Session) (clock : Clock) : Input → Except Fault Effect
  | .digit c => .ok (s.enterDigit c)
  | .point => .ok s.enterPoint
  | .operator op => .ok (s.enterOperator op)
  | .opening => .ok (s.enterParenthesis '(')
  | .closing => .ok (s.enterParenthesis ')')
  | .equals => s.enterEquals clock
  | .clear => .ok (.changed s.cleared)
  | .backspace => .ok s.enterBackspace
  | .setMode mode => .ok (.changed { s.cleared with mode })
  | .toggleAngle => .ok s.enterAngle
  | .setBase base => .ok (s.enterBase base)
  | .function function => s.enterFunction function
  | .bitwise op => s.enterBitwise op
  | .setStart text => .ok (s.enterDates { s.dates with start := text })
  | .setEnd text => .ok (s.enterDates { s.dates with stop := text })
  | .setBirth text => .ok (s.enterDates { s.dates with birth := text })
  | .difference => s.enterDifference
  | .age => s.enterAge clock
  | .toggleTheme | .toggleHistory => .ok .refused

end Session

end DeskCalculator
