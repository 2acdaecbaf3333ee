import DeskCalculator.Session.Input
/-!
The state of a session, and what of it can be seen.
-/
namespace DeskCalculator

structure DateFields where
  start : String := ""
  stop : String := ""
  birth : String := ""
deriving DecidableEq, Repr, Inhabited

structure Session where
  entry : String := "0"
  /-- What comes before the entry in the calculation. -/
  expression : String := ""
  mode : Mode := .standard
  angle : AngleUnit := .degrees
  base : Base := .dec
  theme : Theme := .dark
  showHistory : Bool := false
  history : History := History.empty
  /-- A bitwise operator that waits for its second operand, and its first. -/
  pending : Option (Bitwise × Int64) := none
  dates : DateFields := {}
  /-- After a failure, when the display goes back to the entry. -/
  resetDue : Option Nat := none
deriving DecidableEq, Repr

namespace Session

def errorText : String := "Error"

def errorDelay : Nat := 1000

def maxEntryLength : Nat := 64

def themeKey : String := "theme"

def historyKey : String := "history"

def isFailed (s : Session) : Bool := s.resetDue.isSome

def display (s : Session) : String := if s.isFailed then errorText else s.entry

def binaryPreview? (s : Session) : Option String :=
  if s.mode = .programmer && !s.isFailed then some (convert s.entry s.base .bin) else none

def restore (theme history : Option String) : Session :=
  { theme := (theme.bind fun text => (Theme.ofName text).toOption).getD default
    history := (history.bind fun text => (History.ofJson text).toOption).getD History.empty }

end Session

end DeskCalculator
