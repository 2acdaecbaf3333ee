import DeskCalculator.Proofs.Session.Characters
import DeskCalculator.Proofs.Session.Faults
import DeskCalculator.Proofs.Session.Waiting

/-! What belongs to a mode stays in it: the operator that waits and the parentheses. An expression in programmer
mode is that of an operator that waits, and dates have none. -/
namespace DeskCalculator

namespace Session

section
variable {s t : Session} {clock : Clock} {input : Input} {base : Base} {op : Bitwise} {x : Int64}

theorem Changes.expression_of_date (hs : s.mode = .date → s.expression = "") (h : Changes s clock input t) :
    t.mode = .date → t.expression = "" := by
  intro hdate
  -- What gives a session an expression belongs to another mode, and the switch to this one clears it.
  cases h with
  | operator hmode => exact absurd hdate (Mode.ne_of_isDecimal hmode rfl)
  | waiting hmode => exact absurd (hmode.symm.trans hdate) (by decide)
  | clear | setMode | calculated | joined => rfl
  | _ => exact hs hdate

theorem Reachable.expression_of_date (h : s.Reachable) : s.mode = .date → s.expression = "" := by
  apply h.invariant
  · intro theme history hdate
    rfl
  · intro s t action hs hmove
    cases hmove with
    | changed h => exact h.expression_of_date (s := s.acknowledged) hs
    | _ => exact hs

theorem Waits.expression_ne_empty (h : Waits s base op x) : s.expression ≠ "" := by
  rw [h.expression]
  intro hnil
  have hlength := congrArg String.length hnil
  simp at hlength

/-- Nothing waits, or an operator waits as it should. -/
def InOrder (s : Session) : Prop := Idle s ∨ ∃ base op x, Waits s base op x

theorem InOrder.pending (h : s.InOrder) (hpending : s.pending = some (op, x)) :
    s.mode = .programmer ∧ op.isBinary = true := by
  rcases h with hidle | ⟨base, op', x', hwaits⟩
  · rw [hidle.pending] at hpending
    cases hpending
  · rw [hwaits.pending] at hpending
    cases hpending
    exact ⟨hwaits.mode, hwaits.isBinary⟩

theorem InOrder.expression_iff (h : s.InOrder) (hmode : s.mode = .programmer) :
    s.expression ≠ "" ↔ s.pending.isSome = true := by
  rcases h with hidle | ⟨base, op, x, hwaits⟩
  · simp [hidle.pending, hidle.expression hmode]
  · simp [hwaits.pending, hwaits.expression_ne_empty]

/-- What waits takes every second operand, so that no fault of a bitwise operator is left. -/
theorem InOrder.apply_fails (h : s.InOrder) (clock : Clock) (input : Input) :
    FailsAs inputFaults (s.acknowledged.apply clock input) := by
  apply Session.apply_fails (List.Subset.refl _)
  intro y
  unfold joinPending
  split
  · next op x hpending =>
    apply op.binary_fails
    intro hop
    rw [(h.pending hpending).2] at hop
    exact Bool.noConfusion hop
  · exact .ok y

end

end Session

open Session

theorem Desk.inOrder_run {σ : Type} [Store σ] (store : σ) (actions : List Action) :
    ((start store).run actions).session.InOrder := by
  rcases idle_or_waits_run store actions with hidle | ⟨_, _, op, x, _, _, hwaits, _⟩
  · exact Or.inl hidle
  · exact Or.inr ⟨_, op, x, hwaits⟩

theorem Bitwise.isBinary_iff (op : Bitwise) : op.isBinary = true ↔ op = .and ∨ op = .or ∨ op = .xor := by
  cases op <;> decide

/-- The modes keep to themselves, after every run from every store. An operator waits in programmer mode only, and
it is one that takes two operands; that mode has an expression exactly while an operator waits. Dates have no
expression, and parentheses are on display in scientific mode only. No failure is ever one of a bitwise operator
that was given one operand too many or too few. -/
theorem modes_are_confined {σ : Type} [Store σ] (store : σ) (actions : List Action) :
    let desk := (Desk.start store).run actions
    let s := desk.session
    (∀ op x, s.pending = some (op, x) → s.mode = .programmer ∧ (op = .and ∨ op = .or ∨ op = .xor)) ∧
    (s.mode = .programmer → (s.expression ≠ "" ↔ s.pending.isSome = true)) ∧
    (s.mode = .date → s.expression = "") ∧
    (∀ c ∈ s.display.toList, c = '(' ∨ c = ')' → s.mode = .scientific) ∧
    (∀ clock input fault, (desk.enter clock input).2 = .failed fault →
      fault.detail ≠ "UNEXPECTED OPERAND" ∧ fault.detail ≠ "MISSING OPERAND") := by
  intro desk s
  have hreachable : s.Reachable := Desk.reachable_run store actions
  have horder : s.InOrder := Desk.inOrder_run store actions
  refine ⟨?_, horder.expression_iff, hreachable.expression_of_date, fun c hc => hreachable.mode_of_parenthesis hc, ?_⟩
  · intro op x hpending
    obtain ⟨hmode, hop⟩ := horder.pending hpending
    exact ⟨hmode, op.isBinary_iff.mp hop⟩
  · intro clock input fault hevent
    have hfails : s.acknowledged.apply clock input = .error fault := (enter_event_eq_failed_iff.mp hevent).2
    exact (horder.apply_fails clock input fault hfails).elim
      (P := fun _ detail => detail ≠ "UNEXPECTED OPERAND" ∧ detail ≠ "MISSING OPERAND") (by decide)

end DeskCalculator
