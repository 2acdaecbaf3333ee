import DeskCalculator.Proofs.Outcome
import DeskCalculator.Session.Epochs

/-! The steps of the calculator against what an input does to a session. A step that is refused or fails leaves the
state that it has found, however many fields it would have set, and one that goes through leaves the session that the
input makes of the screen. -/
namespace DeskCalculator
open Session

namespace Keyed

variable {σ : Type}

namespace Handler

variable {α : Type} (k : Keyed σ)

theorem run_look_bind (step : Session → Handler σ α) : (look >>= step).run k = (step k.screen).run k := rfl

theorem run_edit_bind (change : Session → Session) (step : Unit → Handler σ α) :
    (edit change >>= step).run k = (step ()).run { k with screen := change k.screen } := rfl

end Handler

variable [Store σ]

/-- What a step leaves of a state, by the effect that it has or the fault that it ends with. -/
def left (k : Keyed σ) : Except Fault Effect → EStateM.Result Fault (Keyed σ) Event
  | .ok .refused => .ok .ignored k
  | .ok (.changed next) => .ok .changed { k with screen := next }
  | .ok (.evaluated next entry) =>
    .ok (.evaluated entry) { k with screen := next, store := (Store.save k.store historyKey next.history.toJson).2 }
  | .error fault => .error fault k

namespace Handler

section
variable (k : Keyed σ) (clock : Clock)

/-- A step behind a guard, which refuses all but what is accepted. -/
theorem run_guarded {refuses accepts : Prop} [Decidable refuses] [Decidable accepts] {step : Handler σ Event}
    {effect : Except Fault Effect} (hguard : refuses ↔ ¬ accepts) (hstep : accepts → step.run k = k.left effect) :
    (if refuses then return .ignored else step).run k = k.left (if accepts then effect else .ok .refused) := by
  by_cases haccepts : accepts
  · rw [if_neg (fun hrefuses => hguard.mp hrefuses haccepts), if_pos haccepts]
    exact hstep haccepts
  · rw [if_pos (hguard.mpr haccepts), if_neg haccepts]
    rfl

theorem run_guarded_effect {refuses accepts : Prop} [Decidable refuses] [Decidable accepts] {step : Handler σ Event}
    {effect : Effect} (hguard : refuses ↔ ¬ accepts) (hstep : accepts → step.run k = k.left (.ok effect)) :
    (if refuses then return .ignored else step).run k = k.left (.ok (if accepts then effect else .refused)) := by
  rw [run_guarded k hguard hstep, apply_ite Except.ok]

/-- A step that begins with what may fail, and goes on from the state that was found. -/
theorem run_lift_bind {α : Type} (x : Except Fault α) {step : α → Handler σ Event} {effect : α → Except Fault Effect}
    (hstep : ∀ a, (step a).run k = k.left (effect a)) : (liftExcept x >>= step).run k = k.left (x >>= effect) := by
  cases x with
  | error fault => rfl
  | ok a => exact hstep a

/-! ### Entry -/

/-- A character goes to the end of the entry, unless a guard or the length of the entry is against it. -/
theorem run_append {refuses accepts : Prop} [Decidable refuses] [Decidable accepts] (c : Char)
    (hguard : refuses ↔ ¬ accepts ∨ maxEntryLength ≤ k.screen.entry.length) :
    (if refuses then return .ignored else append c).run k =
      k.left (.ok (if accepts then k.screen.append c else .refused)) := by
  by_cases hfull : maxEntryLength ≤ k.screen.entry.length
  · have hrefused : k.screen.append c = .refused := if_pos hfull
    rw [hrefused, ite_self, if_pos (hguard.mpr (Or.inr hfull))]
    rfl
  · refine run_guarded_effect k (by simpa [hfull] using hguard) fun _ => ?_
    unfold append Session.append
    rw [run_look_bind, if_neg hfull]
    by_cases hzero : k.screen.entry = "0"
    · rw [if_pos hzero, if_pos hzero]
      rfl
    · rw [if_neg hzero, if_neg hzero]
      rfl

theorem run_digit (c : Char) : (digit c).run k = k.left (.ok (k.screen.enterDigit c)) := by
  unfold digit enterDigit
  rw [run_look_bind]
  exact run_append k c.toUpper (by simp)

theorem run_parenthesis (c : Char) : (parenthesis c).run k = k.left (.ok (k.screen.enterParenthesis c)) := by
  unfold parenthesis enterParenthesis
  rw [run_look_bind]
  exact run_append k c (by simp)

theorem run_point : point.run k = k.left (.ok k.screen.enterPoint) := by
  unfold point enterPoint
  rw [run_look_bind]
  -- The mode has a guard of its own, in front of the one on the entry.
  by_cases hmode : k.screen.mode.isDecimal = true
  · rw [if_neg (by simp [hmode])]
    exact run_guarded_effect k (by simp [hmode, or_iff_not_imp_left]) fun _ => rfl
  · rw [if_pos (by simp [hmode]), if_neg (by simp [hmode])]
    rfl

theorem run_operator (op : Operator) : (operator op).run k = k.left (.ok (k.screen.enterOperator op)) := by
  unfold operator enterOperator
  rw [run_look_bind]
  exact run_guarded_effect k (by simp) fun _ => rfl

theorem run_backspace : backspace.run k = k.left (.ok k.screen.enterBackspace) := by
  unfold backspace enterBackspace
  -- What is asked about the entry comes after the edit that shortens it.
  rw [run_edit_bind, run_look_bind]
  by_cases hrest : String.ofList k.screen.entry.toList.dropLast = "" || String.ofList k.screen.entry.toList.dropLast = "-"
  · simp only [if_pos hrest]
    rfl
  · simp only [if_neg hrest]
    rfl

/-! ### Settings -/

theorem run_toggleAngle : toggleAngle.run k = k.left (.ok k.screen.enterAngle) := by
  unfold toggleAngle enterAngle
  rw [run_look_bind]
  exact run_guarded_effect k Iff.rfl fun _ => rfl

theorem run_setBase (base : Base) : (setBase base).run k = k.left (.ok (k.screen.enterBase base)) := by
  unfold setBase enterBase
  rw [run_look_bind]
  exact run_guarded_effect k Iff.rfl fun _ => rfl

theorem run_setDates (change : DateFields → DateFields) :
    (setDates change).run k = k.left (.ok (k.screen.enterDates (change k.screen.dates))) := by
  unfold setDates enterDates
  rw [run_look_bind]
  exact run_guarded_effect k Iff.rfl fun _ => rfl

/-! ### Calculations -/

theorem run_equals : (equals clock).run k = k.left (k.screen.enterEquals clock) := by
  rcases k with ⟨⟨entry, expression, mode, angle, base, theme, showHistory, history, pending, dates, due⟩, store, epoch,
    deadline⟩
  unfold equals enterEquals
  rw [run_look_bind]
  -- In the programmer mode two things can fail, and what waits is taken only after both.
  cases mode with
  | standard | scientific => exact run_lift_bind _ _ fun value => rfl
  | programmer => exact run_lift_bind _ _ fun right => run_lift_bind _ _ fun value => rfl
  | date => rfl

theorem run_function (f : ScientificFunction) : (function f).run k = k.left (k.screen.enterFunction f) := by
  unfold function enterFunction
  rw [run_look_bind]
  refine run_guarded k Iff.rfl fun _ => run_lift_bind k _ fun value => ?_
  by_cases hfinite : value.isFinite = true
  · rw [if_neg (by simp [hfinite]), if_pos hfinite]
    rfl
  · rw [if_pos (by simp [hfinite]), if_neg hfinite]
    rfl

theorem run_bitwise (op : Bitwise) : (bitwise op).run k = k.left (k.screen.enterBitwise op) := by
  unfold bitwise enterBitwise
  rw [run_look_bind]
  -- An operator of two operands joins what waits to the entry before it waits itself.
  refine run_guarded k Iff.rfl fun _ => run_lift_bind k _ fun value => ?_
  by_cases hop : op.isBinary = true
  · rw [if_pos hop, if_pos hop]
    exact run_lift_bind k _ fun joined => rfl
  · rw [if_neg hop, if_neg hop]
    exact run_lift_bind k _ fun changed => rfl

theorem run_difference : difference.run k = k.left k.screen.enterDifference := by
  unfold difference enterDifference
  rw [run_look_bind]
  refine run_guarded k (by simp [or_iff_not_imp_left]) fun _ => ?_
  exact run_lift_bind k _ fun start => run_lift_bind k _ fun stop => rfl

theorem run_age : (age clock.today).run k = k.left (k.screen.enterAge clock) := by
  unfold age enterAge
  rw [run_look_bind]
  refine run_guarded k (by simp [or_iff_not_imp_left]) fun _ => ?_
  exact run_lift_bind k _ fun birth => rfl

/-- A step does to the state what its input does to the screen. -/
theorem run_perform (input : Input) : (perform clock input).run k = k.left (k.screen.apply clock input) := by
  cases input with
  | digit c => exact run_digit k c
  | point => exact run_point k
  | operator op => exact run_operator k op
  | opening | closing => exact run_parenthesis k _
  | equals => exact run_equals k clock
  | clear | setMode mode => rfl
  | backspace => exact run_backspace k
  | toggleAngle => exact run_toggleAngle k
  | setBase base => exact run_setBase k base
  | function f => exact run_function k f
  | bitwise op => exact run_bitwise k op
  | setStart text => exact run_setDates k fun dates => { dates with start := text }
  | setEnd text => exact run_setDates k fun dates => { dates with stop := text }
  | setBirth text => exact run_setDates k fun dates => { dates with birth := text }
  | difference => exact run_difference k
  | age => exact run_age k clock
  | toggleTheme | toggleHistory => rfl

end

end Handler

/-! ### Calculations as a whole -/

/-- The screen with a zero in the place of a failure. -/
def restored (k : Keyed σ) : Session := if k.showsFailure then { k.screen with entry := "0" } else k.screen

/-- What an input leaves, by what it does to the restored screen. A fault is seen only on the display, and in the
deadline. -/
theorem calculate_eq (k : Keyed σ) (clock : Clock) (input : Input) : k.calculate clock input =
    match k.restored.apply clock input with
    | .ok .refused =>
      ({ k with screen := k.restored, epoch := k.epoch + 1 }, if k.showsFailure then .changed else .ignored)
    | .ok (.changed next) => ({ k with screen := next, epoch := k.epoch + 1 }, .changed)
    | .ok (.evaluated next entry) =>
      let store := (Store.save k.store historyKey next.history.toJson).2
      ({ k with screen := next, store, epoch := k.epoch + 1 }, .evaluated entry)
    | .error fault =>
      let deadline : Deadline := ⟨k.epoch + 1, clock.steady + errorDelay⟩
      ({ k with screen := { k.screen with entry := errorText }, epoch := k.epoch + 1, deadline := some deadline },
        .failed fault) := by
  have hfound : (if k.showsFailure then { k with epoch := k.epoch + 1 }.withEntry "0"
      else { k with epoch := k.epoch + 1 }) = { k with screen := k.restored, epoch := k.epoch + 1 } := by
    unfold restored
    split <;> rfl
  have hdisplay : { k.restored with entry := errorText } = { k.screen with entry := errorText } := by
    unfold restored
    split <;> rfl
  rw [calculate]
  simp only [hfound, Handler.run_perform]
  -- A step that has failed leaves the restored screen, and the text of the failure goes over its zero.
  cases k.restored.apply clock input with
  | error fault => simp only [left, fail, withEntry, hdisplay]
  | ok effect => cases effect <;> rfl

end Keyed

end DeskCalculator
