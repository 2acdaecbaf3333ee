import DeskCalculator.Proofs.Session.Programmer
import DeskCalculator.Proofs.Session.Repeat

/-! The operator that waits for its second operand. The first operand is kept twice, as an integer and as text in
the expression. The text is written in the base that is set when the operator is entered, and it stays as it is
when the base is switched after that. -/
namespace DeskCalculator

/-- Does an action switch the base? -/
def Action.switchesBase : Action → Bool
  | .enter _ (.setBase _) => true
  | _ => false

namespace Session

/-- An operator waits in programmer mode, its first operand in the expression as it is written in a base. -/
structure Waits (s : Session) (base : Base) (op : Bitwise) (x : Int64) : Prop where
  mode : s.mode = .programmer
  pending : s.pending = some (op, x)
  expression : s.expression = base.write x ++ " " ++ op.render ++ " "
  isBinary : op.isBinary = true
  fits : x.toInt.natAbs ≤ Base.maxMagnitude

/-- No operator waits, and in programmer mode there is no expression then. -/
structure Idle (s : Session) : Prop where
  pending : s.pending = none
  expression : s.mode = .programmer → s.expression = ""

section
variable {s t : Session} {clock : Clock} {input : Input} {base : Base} {op : Bitwise} {x : Int64}

/-- The session in which an operator waits from now on. -/
def awaiting (s : Session) (op : Bitwise) (x : Int64) : Session :=
  { s with expression := s.base.write x ++ " " ++ op.render ++ " ", pending := some (op, x), entry := "0" }

theorem apply_operator (hmode : s.mode = .programmer) (hop : op.isBinary = true) (hjoined : s.joinedInteger = .ok x)
    (clock : Clock) : s.apply clock (.bitwise op) = .ok (.changed (s.awaiting op x)) := by
  obtain ⟨y, hentry, hjoin⟩ := Outcome.bind_eq_ok.mp hjoined
  rw [apply, enterBitwise, if_pos hmode, hentry, Outcome.ok_bind, if_pos hop, hjoin]
  rfl

theorem Changes.of_idle (hs : Idle s) (h : Changes s clock input t) :
    Idle t ∨ ∃ op x, input = .bitwise op ∧ Waits t s.base op x ∧ t.base = s.base := by
  cases h with
  | waiting hmode hop hvalue =>
    exact Or.inr ⟨_, _, rfl, ⟨hmode, rfl, rfl, hop, natAbs_le_of_joinedInteger hvalue⟩, rfl⟩
  | clear | setMode | joined => exact Or.inl ⟨rfl, fun _ => rfl⟩
  | calculated => exact Or.inl ⟨hs.pending, fun _ => rfl⟩
  | operator hdecimal => exact Or.inl ⟨hs.pending, fun hmode => absurd hmode (Mode.ne_of_isDecimal hdecimal rfl)⟩
  | _ => exact Or.inl ⟨hs.pending, hs.expression⟩

theorem Changes.of_waits (hs : Waits s base op x) (h : Changes s clock input t) :
    Idle t ∨ (∃ op x, input = .bitwise op ∧ Waits t s.base op x ∧ t.base = s.base) ∨
      (Waits t base op x ∧ ((Action.enter clock input).switchesBase = false → t.base = s.base)) := by
  have hdecimal (h : s.mode.isDecimal = true) : False := Mode.ne_of_isDecimal h rfl hs.mode
  have hother {mode : Mode} (h : s.mode = mode) (hne : mode ≠ .programmer) : False :=
    hne (h.symm.trans hs.mode)
  cases h with
  | waiting hmode hop hvalue =>
    exact Or.inr (Or.inl ⟨_, _, rfl, ⟨hmode, rfl, rfl, hop, natAbs_le_of_joinedInteger hvalue⟩, rfl⟩)
  | clear | setMode | joined => exact Or.inl ⟨rfl, fun _ => rfl⟩
  | point hmode | operator hmode | calculated hmode => exact (hdecimal hmode).elim
  | opening hmode | closing hmode | function hmode | toggleAngle hmode => exact (hother hmode (by decide)).elim
  | setStart hmode | setEnd hmode | setBirth hmode => exact (hother hmode (by decide)).elim
  | difference hmode | age hmode => exact (hother hmode (by decide)).elim
  -- editing leaves the operand that waits alone, and so does the switch of the base
  | digit | backspace | transformed =>
    exact Or.inr (Or.inr ⟨⟨hs.mode, hs.pending, hs.expression, hs.isBinary, hs.fits⟩, fun _ => rfl⟩)
  | setBase =>
    exact Or.inr (Or.inr ⟨⟨hs.mode, hs.pending, hs.expression, hs.isBinary, hs.fits⟩, Bool.noConfusion⟩)

theorem Moves.of_idle {action : Action} (hs : Idle s) (h : Moves s action t) :
    Idle t ∨ ∃ clock op x, action = .enter clock (.bitwise op) ∧ Waits t s.base op x ∧ t.base = s.base := by
  cases h with
  | changed h =>
    have hfresh : Idle s.acknowledged := ⟨hs.pending, hs.expression⟩
    rcases h.of_idle hfresh with ht | ⟨op, x, rfl, ht⟩
    · exact Or.inl ht
    · exact Or.inr ⟨_, op, x, rfl, ht⟩
  | _ => exact Or.inl ⟨hs.pending, hs.expression⟩

theorem Moves.of_waits {action : Action} (hs : Waits s base op x) (h : Moves s action t) :
    Idle t ∨ (∃ clock op x, action = .enter clock (.bitwise op) ∧ Waits t s.base op x ∧ t.base = s.base) ∨
      (Waits t base op x ∧ (action.switchesBase = false → t.base = s.base)) := by
  cases h with
  | changed h =>
    have hfresh : Waits s.acknowledged base op x := ⟨hs.mode, hs.pending, hs.expression, hs.isBinary, hs.fits⟩
    rcases h.of_waits hfresh with ht | ⟨op, x, rfl, ht⟩ | ht
    · exact Or.inl ht
    · exact Or.inr (Or.inl ⟨_, op, x, rfl, ht⟩)
    · exact Or.inr (Or.inr ht)
  | _ => exact Or.inr (Or.inr ⟨⟨hs.mode, hs.pending, hs.expression, hs.isBinary, hs.fits⟩, fun _ => rfl⟩)

end

end Session

open Session

/-- An operator that waits after a run was entered in the course of it, and its operand is written in the base
of that time, which is still set if no action has switched it since. -/
theorem Desk.idle_or_waits_run {σ : Type} [Store σ] (store : σ) (actions : List Action) :
    let s := ((start store).run actions).session
    Idle s ∨ ∃ before past op x after, actions = before ++ .enter past (.bitwise op) :: after ∧
      Waits s ((start store).run before).session.base op x ∧
      ((∀ action ∈ after, action.switchesBase = false) → s.base = ((start store).run before).session.base) := by
  induction actions using List.reverseRecOn with
  | nil => exact Or.inl ⟨rfl, fun _ => rfl⟩
  | append_singleton actions last ih =>
    have hmoves := ((start store).run actions).session.moves_act last
    rw [← act_session, ← run_concat] at hmoves
    rcases ih with hidle | ⟨before, past, op, x, after, rfl, hwaits, hbase⟩
    · rcases hmoves.of_idle hidle with hnext | ⟨clock, op, x, rfl, hnext, hbase⟩
      · exact Or.inl hnext
      · exact Or.inr ⟨actions, clock, op, x, [], rfl, hnext, fun _ => hbase⟩
    · rcases hmoves.of_waits hwaits with hnext | ⟨clock, op, x, rfl, hnext, hbase⟩ | ⟨hnext, hkept⟩
      · exact Or.inl hnext
      · exact Or.inr ⟨_, clock, op, x, [], rfl, hnext, fun _ => hbase⟩
      · refine Or.inr ⟨before, past, op, x, after ++ [last], by simp, hnext, fun hafter => ?_⟩
        rw [hkept (hafter last (by simp))]
        exact hbase fun action haction => hafter action (List.mem_append_left _ haction)

end DeskCalculator
