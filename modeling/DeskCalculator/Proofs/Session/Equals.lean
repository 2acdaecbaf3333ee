import DeskCalculator.Proofs.Outcome
import DeskCalculator.Session.Step

/-! What Equals does, in each mode. Either the calculation has a value, and the display, the history and
the saved text are those of its result, or it has a fault and only the failure is shown. -/
namespace DeskCalculator.Session

def recorded (s : Session) (clock : Clock) (result : String) : History.Entry :=
  ⟨s.expression ++ s.entry, result, Int64.ofNat clock.wall⟩

/-- The step that ends a calculation with a result, and with a text that is shown for it. -/
def concluded (s : Session) (clock : Clock) (result shown : String) : Update :=
  let entry := s.recorded clock result
  let history := s.history.push entry
  ⟨{ s with entry := shown, expression := "", history, resetDue := none }, .evaluated entry,
    some (historyKey, history.toJson)⟩

def failed (s : Session) (clock : Clock) (fault : Fault) : Update :=
  ⟨s.acknowledged.failing clock, .failed fault, none⟩

theorem enter_equals_decimal {s : Session} (hmode : s.mode.isDecimal = true) (clock : Clock) :
    s.enter clock .equals
      = match evaluate (s.expression ++ s.entry) with
        | .ok v => s.concluded clock (Number.render v) (Number.render v)
        | .error fault => s.failed clock fault := by
  have happly : s.acknowledged.apply clock .equals = do
      let result := Number.render (← evaluate (s.expression ++ s.entry))
      return s.acknowledged.conclude clock result result := by
    -- What Equals does is chosen by the mode of the session.
    rcases s with ⟨entry, expression, mode, angle, base, theme, showHistory, history, pending, dates, due⟩
    cases mode with
    | standard | scientific => rfl
    | programmer | date => exact Bool.noConfusion hmode
  simp only [enter, calculate, happly]
  cases evaluate (s.expression ++ s.entry) <;> rfl

theorem entryInteger_eq_ok {s : Session} {y : Int64} : s.entryInteger = .ok y ↔ s.base.read s.entry = .ok y :=
  Outcome.reworded_eq_ok

/-- The integer that a calculation of the programmer's comes to. -/
def joinedInteger (s : Session) : Except Fault Int64 := do s.joinPending (← s.entryInteger)

theorem enter_equals_programmer {s : Session} (hmode : s.mode = .programmer) (clock : Clock) :
    s.enter clock .equals
      = match s.joinedInteger with
        | .ok n => { s with pending := none }.concluded clock (Base.dec.write n) (s.base.write n)
        | .error fault => s.failed clock fault := by
  have happly : s.acknowledged.apply clock .equals = do
      let n ← s.joinedInteger
      return { s.acknowledged with pending := none }.conclude clock (Base.dec.write n)
        (s.base.write n) := by
    rcases s with ⟨entry, expression, mode, angle, base, theme, showHistory, history, pending, dates, due⟩
    obtain rfl : mode = .programmer := hmode
    rw [joinedInteger, bind_assoc]
    rfl
  simp only [enter, calculate, happly]
  cases s.joinedInteger <;> rfl

theorem enter_equals_date {s : Session} (hmode : s.mode = .date) (clock : Clock) (entry : History.Entry) :
    (s.enter clock .equals).event ≠ .evaluated entry := by
  have happly : s.acknowledged.apply clock .equals = .ok .refused := by
    simp only [apply, enterEquals, acknowledged, hmode]
  simp only [enter, calculate, happly]
  cases s.isFailed <;> simp

end DeskCalculator.Session
