import DeskCalculator.Session.Step
/-!
The calculator as one state that its steps change field by field. A step that fails stops there, with the
state as it has been left. A failure is written on the display over what stood there, and its end is a
deadline under the epoch in which it was set; every input but the toggles begins an epoch, and a deadline of
an older one is void.
-/
namespace DeskCalculator
open Session

structure Deadline where
  epoch : Nat
  due : Nat
deriving DecidableEq, Repr

/-- The text on display is the entry of the screen. -/
structure Keyed (σ : Type) where
  screen : Session
  store : σ
  epoch : Nat := 0
  deadline : Option Deadline := none
deriving DecidableEq, Repr

namespace Keyed

/-! ### What is shown -/

section
variable {σ : Type}

def showsFailure (k : Keyed σ) : Bool := k.screen.entry = errorText

def resetDue (k : Keyed σ) : Option Nat :=
  match k.deadline with
  | some deadline => if deadline.epoch = k.epoch then some deadline.due else none
  | none => none

def withEntry (k : Keyed σ) (entry : String) : Keyed σ := { k with screen := { k.screen with entry } }

end

/-! ### Steps -/

/-- A step of the calculator. Where it fails, the state is what the step has made of it up to there. -/
abbrev Handler (σ : Type) := EStateM Fault (Keyed σ)

namespace Handler

variable {σ : Type} [Store σ]

def look : Handler σ Session := do return (← get).screen

def edit (change : Session → Session) : Handler σ Unit :=
  modify fun k => { k with screen := change k.screen }

def write (entry : String) : Handler σ Unit := edit fun s => { s with entry }

/-- A save that fails is given up. -/
def save (key text : String) : Handler σ Unit :=
  modify fun k => { k with store := (Store.save k.store key text).2 }

def append (c : Char) : Handler σ Event := do
  let s ← look
  if s.entry = "0" then write c.toString else write (s.entry.push c)
  return .changed

def digit (c : Char) : Handler σ Event := do
  let c := c.toUpper
  let s ← look
  if !s.isDigit c || maxEntryLength ≤ s.entry.length then return .ignored
  else append c

def point : Handler σ Event := do
  let s ← look
  if !s.mode.isDecimal then return .ignored
  else if (lastNumeral s.entry).contains '.' || maxEntryLength ≤ s.entry.length then return .ignored
  else
    write (s.entry.push '.')
    return .changed

def operator (op : Operator) : Handler σ Event := do
  if !(← look).mode.isDecimal then return .ignored
  else
    edit fun s => { s with expression := s.expression ++ s.entry }
    edit fun s => { s with expression := s.expression.push op.symbol }
    write "0"
    return .changed

def parenthesis (c : Char) : Handler σ Event := do
  let s ← look
  if s.mode ≠ .scientific || maxEntryLength ≤ s.entry.length then return .ignored
  else append c

/-- The end of a calculation: it goes into the history, and its result is shown. -/
def conclude (clock : Clock) (full result shown : String) : Handler σ Event := do
  let entry : History.Entry := ⟨full, result, Int64.ofNat clock.wall⟩
  edit fun s => { s with history := s.history.push entry }
  write shown
  edit fun s => { s with expression := "" }
  save historyKey (← look).history.toJson
  return .evaluated entry

def equals (clock : Clock) : Handler σ Event := do
  let s ← look
  let full := s.expression ++ s.entry
  match s.mode with
  | .standard | .scientific =>
    let value ← liftExcept (evaluate full)
    conclude clock full (Number.render value) (Number.render value)
  | .programmer =>
    let right ← liftExcept s.entryInteger
    let value ← liftExcept (s.joinPending right)
    edit fun s => { s with pending := none }
    conclude clock full (Base.dec.write value) (s.base.write value)
  | .date => return .ignored

def clear : Handler σ Event := do
  write "0"
  edit fun s => { s with expression := "" }
  edit fun s => { s with pending := none }
  return .changed

def backspace : Handler σ Event := do
  edit fun s => { s with entry := String.ofList s.entry.toList.dropLast }
  let rest := (← look).entry
  if rest = "" || rest = "-" then write "0"
  return .changed

def setMode (mode : Mode) : Handler σ Event := do
  edit fun s => { s with mode }
  clear

def toggleAngle : Handler σ Event := do
  if (← look).mode ≠ .scientific then return .ignored
  else
    edit fun s => { s with angle := s.angle.toggle }
    return .changed

def setBase (base : Base) : Handler σ Event := do
  if (← look).mode ≠ .programmer then return .ignored
  else
    edit fun s => { s with entry := convert s.entry s.base base }
    edit fun s => { s with base }
    return .changed

def function (function : ScientificFunction) : Handler σ Event := do
  let s ← look
  if s.mode ≠ .scientific then return .ignored
  else
    let value ← liftExcept (function.apply (Numeral.leading s.entry) s.angle)
    if !value.isFinite then throw Fault.notANumber
    else
      write (Number.render value)
      return .changed

def bitwise (op : Bitwise) : Handler σ Event := do
  let s ← look
  if s.mode ≠ .programmer then return .ignored
  else
    let value ← liftExcept s.entryInteger
    if op.isBinary then
      let value ← liftExcept (s.joinPending value)
      edit fun s => { s with expression := s.base.write value ++ " " ++ op.render ++ " " }
      edit fun s => { s with pending := some (op, value) }
      write "0"
    else
      let value ← liftExcept (op.unary value)
      write (s.base.write value)
    return .changed

def setDates (change : DateFields → DateFields) : Handler σ Event := do
  if (← look).mode ≠ .date then return .ignored
  else
    edit fun s => { s with dates := change s.dates }
    return .changed

def difference : Handler σ Event := do
  let s ← look
  if s.mode ≠ .date || s.dates.start = "" || s.dates.stop = "" then return .ignored
  else
    let start ← liftExcept (Date.read s.dates.start)
    let stop ← liftExcept (Date.read s.dates.stop)
    write (DateDifference.between start stop).render
    return .changed

def age (today : Date) : Handler σ Event := do
  let s ← look
  if s.mode ≠ .date || s.dates.birth = "" then return .ignored
  else
    let birth ← liftExcept (Date.read s.dates.birth)
    write (Age.on birth today).render
    return .changed

def perform (clock : Clock) : Input → Handler σ Event
  | .digit c => digit c
  | .point => point
  | .operator op => operator op
  | .opening => parenthesis '('
  | .closing => parenthesis ')'
  | .equals => equals clock
  | .clear => clear
  | .backspace => backspace
  | .setMode mode => setMode mode
  | .toggleAngle => toggleAngle
  | .setBase base => setBase base
  | .function f => function f
  | .bitwise op => bitwise op
  | .setStart text => setDates fun dates => { dates with start := text }
  | .setEnd text => setDates fun dates => { dates with stop := text }
  | .setBirth text => setDates fun dates => { dates with birth := text }
  | .difference => difference
  | .age => age clock.today
  | .toggleTheme | .toggleHistory => return .ignored

end Handler

/-! ### Inputs and time -/

section
variable {σ : Type} [Store σ]

def start (store : σ) : Keyed σ := { screen := (Desk.start store).session, store }

def fail (k : Keyed σ) (clock : Clock) (fault : Fault) : Keyed σ × Event :=
  ({ k.withEntry errorText with deadline := some ⟨k.epoch, clock.steady + errorDelay⟩ }, .failed fault)

/-- An input begins an epoch and takes a failure off the display, whatever comes of it. -/
def calculate (k : Keyed σ) (clock : Clock) (input : Input) : Keyed σ × Event :=
  let restored := k.showsFailure
  let k := { k with epoch := k.epoch + 1 }
  let k := if restored then k.withEntry "0" else k
  match (Handler.perform clock input).run k with
  | .ok .ignored k => (k, if restored then .changed else .ignored)
  | .ok event k => (k, event)
  | .error fault k => k.fail clock fault

def enter (k : Keyed σ) (clock : Clock) (input : Input) : Keyed σ × Event :=
  match input with
  | .toggleTheme =>
    let theme := k.screen.theme.toggle
    let store := (Store.save k.store themeKey theme.render).2
    ({ k with screen := { k.screen with theme }, store }, .changed)
  | .toggleHistory => ({ k with screen := { k.screen with showHistory := !k.screen.showHistory } }, .changed)
  | input => k.calculate clock input

/-- A deadline that has come is given up, and ends the failure if it is of this epoch. -/
def tick (k : Keyed σ) (steady : Nat) : Keyed σ × Event :=
  match k.deadline with
  | some deadline =>
    if deadline.due ≤ steady then
      if deadline.epoch = k.epoch && k.showsFailure then
        ({ k.withEntry "0" with deadline := none }, .reset)
      else ({ k with deadline := none }, .ignored)
    else (k, .ignored)
  | none => (k, .ignored)

def act (k : Keyed σ) : Action → Keyed σ × Event
  | .enter clock input => k.enter clock input
  | .tick steady => k.tick steady

def run (k : Keyed σ) : List Action → Keyed σ
  | [] => k
  | action :: rest => (k.act action).1.run rest

end

end Keyed

end DeskCalculator
