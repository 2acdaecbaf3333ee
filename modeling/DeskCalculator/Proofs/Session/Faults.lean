import DeskCalculator.Proofs.Expression.Faults
import DeskCalculator.Proofs.Session.Changes
import DeskCalculator.Proofs.Session.Handling

/-! Inputs that fail. What they fail with is the fault of an invalid expression, or of a factorial out of range, and
the state that they leave is the one that they have found, but for the display. -/
namespace DeskCalculator

/-- What an input fails with, if what waits for an operand can be joined to it. -/
def inputFaults : List Fault := expressionFaults ++ [Fault.invalidDate, Fault.factorial]

variable {made : List Fault}

theorem Bitwise.unary_fails {op : Bitwise} (hop : op.isBinary = false) (x : Int64) : FailsAs made (op.unary x) := by
  cases op with
  | not | shiftLeft | shiftRight => exact .ok _
  | and | or | xor => exact Bool.noConfusion hop

theorem Bitwise.binary_fails (op : Bitwise) (hmade : op.isBinary = false → Fault.unexpectedOperand ∈ made)
    (x y : Int64) : FailsAs made (op.binary x y) := by
  cases op with
  | and | or | xor => exact .ok _
  | not | shiftLeft | shiftRight => exact .error (hmade rfl)

theorem ScientificFunction.apply_fails (hmade : Fault.factorial ∈ made) (f : ScientificFunction) (x : Float)
    (unit : AngleUnit) : FailsAs made (f.apply x unit) := by
  cases f with
  | factorial =>
    change FailsAs made (factorialOf x)
    unfold factorialOf
    split
    · exact .ok _
    · exact .error hmade
  | _ => exact .ok _

theorem Date.read_fails (hmade : Fault.invalidDate ∈ made) (text : String) : FailsAs made (Date.read text) := by
  unfold Date.read
  split
  · exact .ok _
  · exact .error hmade

namespace Session

variable {s : Session} {clock : Clock}

theorem entryInteger_fails (hmade : Fault.notANumber ∈ made) : FailsAs made s.entryInteger := .reworded _ hmade

theorem enterEquals_fails (hmade : inputFaults ⊆ made) (hjoin : ∀ y, FailsAs made (s.joinPending y)) :
    FailsAs made (s.enterEquals clock) := by
  have hevaluate : FailsAs made (evaluate (s.expression ++ s.entry)) :=
    (evaluate_fails _).mono fun f hf => hmade (List.mem_append_left _ hf)
  unfold enterEquals
  split
  · exact hevaluate.bind fun _ _ => .ok _
  · exact hevaluate.bind fun _ _ => .ok _
  · exact (entryInteger_fails (hmade (by decide))).bind fun y _ => (hjoin y).bind fun _ _ => .ok _
  · exact .ok _

theorem enterFunction_fails (hmade : inputFaults ⊆ made) (f : ScientificFunction) :
    FailsAs made (s.enterFunction f) := by
  unfold enterFunction
  split
  · apply (f.apply_fails (hmade (by decide)) _ _).bind
    intro v _
    split
    · exact .ok _
    · exact .error (hmade (by decide))
  · exact .ok _

theorem enterBitwise_fails (hmade : inputFaults ⊆ made) (hjoin : ∀ y, FailsAs made (s.joinPending y))
    (op : Bitwise) : FailsAs made (s.enterBitwise op) := by
  unfold enterBitwise
  split
  · apply (entryInteger_fails (hmade (by decide))).bind
    intro x _
    split
    · exact (hjoin x).bind fun _ _ => .ok _
    · next hop => exact (op.unary_fails (Bool.eq_false_iff.mpr hop) x).bind fun _ _ => .ok _
  · exact .ok _

theorem enterDifference_fails (hmade : inputFaults ⊆ made) : FailsAs made s.enterDifference := by
  have hread := Date.read_fails (hmade (by decide : Fault.invalidDate ∈ inputFaults))
  unfold enterDifference
  split
  · exact (hread _).bind fun _ _ => (hread _).bind fun _ _ => .ok _
  · exact .ok _

theorem enterAge_fails (hmade : inputFaults ⊆ made) : FailsAs made (s.enterAge clock) := by
  unfold enterAge
  split
  · exact (Date.read_fails (hmade (by decide)) _).bind fun _ _ => .ok _
  · exact .ok _

theorem apply_fails (hmade : inputFaults ⊆ made) (hjoin : ∀ y, FailsAs made (s.joinPending y)) (input : Input) :
    FailsAs made (s.apply clock input) := by
  cases input with
  | equals => exact enterEquals_fails hmade hjoin
  | function f => exact enterFunction_fails hmade f
  | bitwise op => exact enterBitwise_fails hmade hjoin op
  | difference => exact enterDifference_fails hmade
  | age => exact enterAge_fails hmade
  | _ => exact .ok _

theorem apply_kind {input : Input} {fault : Fault} (h : s.apply clock input = .error fault) :
    fault.kind = .invalidExpression ∨ fault.kind = .outOfRange := by
  have hjoin (y : Int64) : FailsAs (Fault.unexpectedOperand :: inputFaults) (s.joinPending y) := by
    unfold joinPending
    split
    · exact Bitwise.binary_fails _ (fun _ => List.mem_cons_self) _ _
    · exact .ok y
  exact (apply_fails (List.subset_cons_self _ _) hjoin input fault h).elim
    (P := fun kind _ => kind = .invalidExpression ∨ kind = .outOfRange) (by decide)

end Session

open Session

namespace Keyed

variable {σ : Type} [Store σ] {k : Keyed σ} {clock : Clock} {input : Input} {fault : Fault}

/-- A step that fails has changed nothing up to there. -/
theorem Handler.left_of_error {left : Keyed σ} (h : (perform clock input).run k = .error fault left) : left = k := by
  rw [run_perform] at h
  cases happly : k.screen.apply clock input with
  | error raised =>
    rw [happly] at h
    exact (EStateM.Result.error.inj h).2.symm
  | ok effect =>
    rw [happly] at h
    cases effect <;> cases h

theorem apply_of_failed (h : (k.calculate clock input).2 = .failed fault) :
    k.restored.apply clock input = .error fault := by
  rw [calculate_eq] at h
  cases happly : k.restored.apply clock input with
  | error raised =>
    rw [happly] at h
    rw [Event.failed.inj h]
  | ok effect =>
    rw [happly] at h
    cases effect with
    | refused =>
      dsimp only at h
      split at h <;> cases h
    | changed next => cases h
    | evaluated next entry => cases h

theorem enter_failed (h : (k.enter clock input).2 = .failed fault) :
    k.enter clock input = k.calculate clock input := by
  cases input with
  | toggleTheme | toggleHistory => cases h
  | _ => rfl

end Keyed

/-- An input that fails changes nothing but the display, whatever the state is that it comes to, and whether a failure
is shown there already or not. The steps that it takes leave the state as they have found it where they fail, so that
all but the text of the failure is as before, on the screen and in the store; the failure is due to go off a second
later, and the fault is one of evaluation. A session, which keeps the entry behind a failure, has a zero there. -/
theorem failed_input_changes_display_only {σ : Type} [Store σ] {keyed : Keyed σ} {clock : Clock} {input : Input}
    {fault : Fault} (h : (keyed.enter clock input).2 = .failed fault) :
    let after := (keyed.enter clock input).1
    let deadline : Deadline := ⟨keyed.epoch + 1, clock.steady + 1000⟩
    after = { keyed with
      screen := { keyed.screen with entry := errorText }, epoch := keyed.epoch + 1, deadline := some deadline } ∧
    after.showsFailure = true ∧ after.resetDue = some (clock.steady + 1000) ∧
    (∀ (found left : Keyed σ) raised, (Keyed.Handler.perform clock input).run found = .error raised left →
      left = found) ∧
    (∀ desk : Desk σ, (desk.enter clock input).2 = .failed fault → (desk.enter clock input).1 =
      ⟨{ desk.session with entry := "0", resetDue := some (clock.steady + 1000) }, desk.store⟩) ∧
    fault.kind.isEvaluation = true ∧ (fault.kind = .invalidExpression ∨ fault.kind = .outOfRange) := by
  have hcalculate := Keyed.enter_failed h
  rw [hcalculate] at h ⊢
  have happly := Keyed.apply_of_failed h
  have hkind := apply_kind happly
  rw [Keyed.calculate_eq, happly]
  -- The deadline is of the epoch that the input has begun, which makes it the end of the failure.
  refine ⟨rfl, rfl, if_pos rfl, fun found left raised hstep => Keyed.Handler.left_of_error hstep, ?_, ?_, hkind⟩
  · intro desk hdesk
    obtain ⟨htoggle, hfault⟩ := enter_event_eq_failed_iff.mp hdesk
    rw [Desk.enter, enter_eq_calculate htoggle, calculate_of_error hfault]
    rfl
  · rcases hkind with hkind | hkind <;> rw [hkind] <;> rfl

/-- One divided by zero, once more while the failure of the first time is shown. -/
theorem failed_input_twice :
    let inputs := [Input.digit '1', .operator .divide, .equals]
    let keyed := (Keyed.start ({} : MemoryStore)).run (inputs.map (.enter ⟨0, 0, .epoch⟩))
    let after := (keyed.enter ⟨0, 400, .epoch⟩ .equals).1
    keyed.screen.entry = errorText ∧ keyed.resetDue = some 1000 ∧ after.screen = keyed.screen ∧
      after.store = keyed.store ∧ after.resetDue = some 1400 := by
  intro inputs keyed after
  have hevent : (keyed.enter ⟨0, 400, .epoch⟩ .equals).2 = .failed (Fault.divisionByZero.locate ⟨1, 2⟩) := by
    decide +kernel
  have hshown : keyed.screen.entry = errorText := by decide +kernel
  obtain ⟨hafter, -, hdue, -⟩ := failed_input_changes_display_only hevent
  refine ⟨hshown, by decide +kernel, ?_, ?_, hdue⟩
  · have hscreen := congrArg Keyed.screen hafter
    rw [← hshown] at hscreen
    exact hscreen
  · have hstore := congrArg Keyed.store hafter
    exact hstore

end DeskCalculator
