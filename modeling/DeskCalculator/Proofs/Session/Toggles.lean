import DeskCalculator.Proofs.Session.Epochs
import DeskCalculator.Proofs.Session.Trace

/-! The two toggles of the screen. No calculation depends on the theme or on the panel of the history, so that setting
both aside before a step and after it comes to the same; a run without the toggles then does the same at all its
steps, whether a session keeps the end of a failure or a deadline under an epoch. -/
namespace DeskCalculator
open Session

def Action.isToggle : Action → Bool
  | .enter _ input => input.isToggle
  | .tick _ => false

/-- What is seen of a calculation, apart from the look of the screen. -/
structure View where
  display : String
  expression : String
  mode : Mode
  angle : AngleUnit
  base : Base
  history : History
  dates : DateFields
  binaryPreview? : Option String
  resetDue : Option Nat
deriving DecidableEq, Repr

namespace Session

def view (s : Session) : View where
  display := s.display
  expression := s.expression
  mode := s.mode
  angle := s.angle
  base := s.base
  history := s.history
  dates := s.dates
  binaryPreview? := s.binaryPreview?
  resetDue := s.resetDue

/-- The session with the theme and the panel set aside. -/
def plain (s : Session) : Session := { s with theme := .dark, showHistory := false }

end Session

def Effect.plain : Effect → Effect
  | .refused => .refused
  | .changed next => .changed next.plain
  | .evaluated next entry => .evaluated next.plain entry

namespace Session

section
variable (s : Session) (clock : Clock)

theorem append_plain (c : Char) : s.plain.append c = (s.append c).plain := by
  unfold append
  rw [apply_ite Effect.plain]
  rfl

theorem enterEquals_plain : s.plain.enterEquals clock = (s.enterEquals clock).map Effect.plain := by
  rcases s with ⟨entry, expression, mode, angle, base, theme, showHistory, history, pending, dates, due⟩
  -- The mode decides what there is to calculate; the branches do not unify before it is known.
  cases mode with
  | standard | scientific | programmer =>
    simp only [enterEquals, Outcome.map_bind]
    rfl
  | date => rfl

theorem enterFunction_plain (f : ScientificFunction) :
    s.plain.enterFunction f = (s.enterFunction f).map Effect.plain := by
  simp only [enterFunction, apply_ite (Except.map Effect.plain), Outcome.map_bind]
  rfl

theorem enterBitwise_plain (op : Bitwise) : s.plain.enterBitwise op = (s.enterBitwise op).map Effect.plain := by
  simp only [enterBitwise, apply_ite (Except.map Effect.plain), Outcome.map_bind]
  rfl

theorem enterDifference_plain : s.plain.enterDifference = s.enterDifference.map Effect.plain := by
  simp only [enterDifference, apply_ite (Except.map Effect.plain), Outcome.map_bind]
  rfl

theorem enterAge_plain : s.plain.enterAge clock = (s.enterAge clock).map Effect.plain := by
  simp only [enterAge, apply_ite (Except.map Effect.plain), Outcome.map_bind]
  rfl

theorem apply_plain (input : Input) : s.plain.apply clock input = (s.apply clock input).map Effect.plain := by
  cases input with
  | digit c =>
    simp only [apply, enterDigit, Outcome.map_ok, apply_ite Effect.plain, ← append_plain]
    rfl
  | opening | closing =>
    simp only [apply, enterParenthesis, Outcome.map_ok, apply_ite Effect.plain, ← append_plain]
    rfl
  | point | operator | toggleAngle | setBase | setStart | setEnd | setBirth =>
    simp only [apply, enterPoint, enterOperator, enterAngle, enterBase, enterDates, Outcome.map_ok,
      apply_ite Effect.plain]
    rfl
  | equals => exact s.enterEquals_plain clock
  | function f => exact s.enterFunction_plain f
  | bitwise op => exact s.enterBitwise_plain op
  | difference => exact s.enterDifference_plain
  | age => exact s.enterAge_plain clock
  | clear | backspace | setMode | toggleTheme | toggleHistory => rfl

theorem calculate_plain (input : Input) :
    s.plain.calculate clock input =
      { s.calculate clock input with session := (s.calculate clock input).session.plain } := by
  have hfresh : s.plain.acknowledged = s.acknowledged.plain := rfl
  simp only [calculate, hfresh, apply_plain]
  cases s.acknowledged.apply clock input with
  | error fault => rfl
  | ok effect => cases effect <;> rfl

theorem act_plain {action : Action} (h : action.isToggle = false) :
    s.plain.act action = { s.act action with session := (s.act action).session.plain } := by
  cases action with
  | enter clock input =>
    rw [act, act, enter_eq_calculate h, enter_eq_calculate h]
    exact s.calculate_plain clock input
  | tick steady =>
    simp only [act, tick, plain]
    split
    · split <;> rfl
    · rfl

theorem plain_act_toggle {action : Action} (h : action.isToggle = true) : (s.act action).session.plain = s.plain := by
  -- the two fields that a toggle sets are those that the plain session has forgotten
  cases action with
  | tick steady => exact Bool.noConfusion h
  | enter clock input => rcases Input.eq_of_isToggle h with rfl | rfl <;> rfl

end

end Session

theorem Desk.projects_plain {σ : Type} [Store σ] :
    Projects (Desk.act : Desk σ → Action → Desk σ × Event) respond (·.session.plain) (!·.isToggle) where
  event desk action hkept := by
    rw [act_event, respond, act_plain _ (by simpa using hkept)]
  state desk action hkept := by
    rw [act_session, respond, act_plain _ (by simpa using hkept)]
  spared desk action hspared := by
    rw [act_session, plain_act_toggle _ (by simpa using hspared)]

namespace Keyed

section
variable {σ : Type}

/-- What is seen on the screen. -/
def view (k : Keyed σ) : View where
  display := k.screen.entry
  expression := k.screen.expression
  mode := k.screen.mode
  angle := k.screen.angle
  base := k.screen.base
  history := k.screen.history
  dates := k.screen.dates
  binaryPreview? :=
    if k.screen.mode = .programmer && !k.showsFailure then some (convert k.screen.entry k.screen.base .bin) else none
  resetDue := k.resetDue

/-- The state with the look of the screen and the texts of the store set aside. -/
def plain (k : Keyed σ) : Keyed MemoryStore := { k with screen := k.screen.plain, store := {} }

theorem restored_plain (k : Keyed σ) : k.plain.restored = k.restored.plain := by
  unfold restored
  rw [apply_ite Session.plain]
  rfl

theorem tick_plain (k : Keyed σ) (steady : Nat) :
    (k.tick steady).1.plain = (k.plain.tick steady).1.plain ∧ (k.tick steady).2 = (k.plain.tick steady).2 := by
  have hshows : k.plain.showsFailure = k.showsFailure := rfl
  have hdeadline : k.plain.deadline = k.deadline := rfl
  have hepoch : k.plain.epoch = k.epoch := rfl
  simp only [tick, hshows, hdeadline, hepoch]
  split
  · split
    · split <;> exact ⟨rfl, rfl⟩
    · exact ⟨rfl, rfl⟩
  · exact ⟨rfl, rfl⟩

end

variable {σ : Type} [Store σ]

/-- What an action makes of all but the look and the texts. -/
def respond (k : Keyed MemoryStore) (action : Action) : Keyed MemoryStore × Event :=
  ((k.act action).1.plain, (k.act action).2)

theorem calculate_plain (k : Keyed σ) (clock : Clock) (input : Input) :
    (k.calculate clock input).1.plain = (k.plain.calculate clock input).1.plain ∧
      (k.calculate clock input).2 = (k.plain.calculate clock input).2 := by
  have hshows : k.plain.showsFailure = k.showsFailure := rfl
  -- Both calculate on the same screen but for its look, and what is saved is set aside afterwards.
  rw [calculate_eq, calculate_eq, restored_plain, apply_plain, hshows]
  cases k.restored.apply clock input with
  | error fault => exact ⟨rfl, rfl⟩
  | ok effect => cases effect <;> exact ⟨rfl, rfl⟩

theorem enter_eq_calculate (k : Keyed σ) (clock : Clock) {input : Input} (h : input.isToggle = false) :
    k.enter clock input = k.calculate clock input := by
  cases input with
  | toggleTheme | toggleHistory => exact Bool.noConfusion h
  | _ => rfl

theorem act_plain (k : Keyed σ) {action : Action} (h : action.isToggle = false) :
    (k.act action).1.plain = (k.plain.act action).1.plain ∧ (k.act action).2 = (k.plain.act action).2 := by
  cases action with
  | enter clock input =>
    rw [act, act, enter_eq_calculate _ clock h, enter_eq_calculate _ clock h]
    exact k.calculate_plain clock input
  | tick steady => exact k.tick_plain steady

theorem plain_act_toggle (k : Keyed σ) {action : Action} (h : action.isToggle = true) :
    (k.act action).1.plain = k.plain := by
  cases action with
  | tick steady => exact Bool.noConfusion h
  | enter clock input => rcases Input.eq_of_isToggle h with rfl | rfl <;> rfl

theorem projects_plain : Projects (act : Keyed σ → Action → Keyed σ × Event) respond plain (!·.isToggle) where
  event k action hkept := (k.act_plain (by simpa using hkept)).2
  state k action hkept := (k.act_plain (by simpa using hkept)).1
  spared k action hspared := plain_act_toggle k (by simpa using hspared)

end Keyed

/-- A run without its toggles answers every other action with the same event and leaves the same view after it, from
any session over any store, and from any screen with any deadline under an epoch. A toggle itself changes nothing
of the view, so that a failure stays on display, and its end stays due. -/
theorem toggles_are_transparent {σ : Type} [Store σ] (desk : Desk σ) (keyed : Keyed σ) (actions : List Action) :
    let kept := actions.filter (!·.isToggle)
    ((steps Desk.act desk actions).filter (!·.action.isToggle)).map (Step.seen (·.session.view)) =
        (steps Desk.act desk kept).map (Step.seen (·.session.view)) ∧
      ((steps Keyed.act keyed actions).filter (!·.action.isToggle)).map (Step.seen Keyed.view) =
        (steps Keyed.act keyed kept).map (Step.seen Keyed.view) ∧
      ∀ action : Action, action.isToggle = true →
        (desk.act action).1.session.view = desk.session.view ∧ (keyed.act action).1.view = keyed.view := by
  intro kept
  refine ⟨?_, ?_, ?_⟩
  · exact Desk.projects_plain.steps_spared Session.view desk actions
  · exact Keyed.projects_plain.steps_spared Keyed.view keyed actions
  · intro action htoggle
    have hsession := congrArg Session.view (plain_act_toggle desk.session htoggle)
    have hscreen := congrArg Keyed.view (keyed.plain_act_toggle htoggle)
    rw [Desk.act_session]
    exact ⟨hsession, hscreen⟩

end DeskCalculator
