import DeskCalculator.Session.Editing
import DeskCalculator.Store.Basic
/-!
Steps of a session. An input ends the showing of a failure, and a failing one begins it anew; the two
toggles of the screen do neither. When its time has come, a failure gives way to a zero.
-/
namespace DeskCalculator

/-- What a step leaves behind: the state, the event, and a text to be kept under a key. -/
structure Update where
  session : Session
  event : Event
  save : Option (String × String) := none
deriving DecidableEq, Repr

namespace Session

def acknowledged (s : Session) : Session := { s with resetDue := none }

/-- The session that shows a failure until the delay is over, and a zero after that. -/
def failing (s : Session) (clock : Clock) : Session :=
  { s with entry := "0", resetDue := some (clock.steady + errorDelay) }

def calculate (s : Session) (clock : Clock) (input : Input) : Update :=
  let fresh := s.acknowledged
  match fresh.apply clock input with
  | .ok .refused => ⟨fresh, if s.isFailed then .changed else .ignored, none⟩
  | .ok (.changed next) => ⟨next, .changed, none⟩
  | .ok (.evaluated next entry) => ⟨next, .evaluated entry, some (historyKey, next.history.toJson)⟩
  | .error fault => ⟨fresh.failing clock, .failed fault, none⟩

def enter (s : Session) (clock : Clock) (input : Input) : Update :=
  match input with
  | .toggleTheme =>
    let theme := s.theme.toggle
    ⟨{ s with theme }, .changed, some (themeKey, theme.render)⟩
  | .toggleHistory => ⟨{ s with showHistory := !s.showHistory }, .changed, none⟩
  | input => s.calculate clock input

/-- Takes note of the time: a failure whose time has come goes off the display. -/
def tick (s : Session) (steady : Nat) : Update :=
  match s.resetDue with
  | some due => if due ≤ steady then ⟨s.acknowledged, .reset, none⟩ else ⟨s, .ignored, none⟩
  | none => ⟨s, .ignored, none⟩

end Session

structure Desk (σ : Type) where
  session : Session
  store : σ

namespace Desk

variable {σ : Type} [Store σ]

def start (store : σ) : Desk σ :=
  let load (key : String) : Option String := (Store.load store key).toOption.join
  ⟨Session.restore (load Session.themeKey) (load Session.historyKey), store⟩

/-- Puts an update into effect. A save that fails is given up. -/
def follow (desk : Desk σ) (update : Update) : Desk σ × Event :=
  let store :=
    match update.save with
    | some (key, text) => (Store.save desk.store key text).2
    | none => desk.store
  (⟨update.session, store⟩, update.event)

def enter (desk : Desk σ) (clock : Clock) (input : Input) : Desk σ × Event :=
  desk.follow (desk.session.enter clock input)

def tick (desk : Desk σ) (steady : Nat) : Desk σ × Event := desk.follow (desk.session.tick steady)

end Desk

end DeskCalculator
