import DeskCalculator.Proofs.Session.Epochs

/-! Inputs that are refused. A mode has no use for some inputs, and a full entry has no room for another character;
nothing is changed then, on display or behind it. On a failure nothing is refused, for the failure goes off. -/
namespace DeskCalculator

namespace Session

/-- What a session that shows no failure has no use for, or no room. -/
def Refuses (s : Session) : Input → Prop
  | .digit c => s.isDigit c.toUpper = false ∨ maxEntryLength ≤ s.entry.length
  | .point => s.mode.isDecimal = false ∨ '.' ∈ lastNumeral s.entry ∨ maxEntryLength ≤ s.entry.length
  | .operator _ => s.mode.isDecimal = false
  | .opening | .closing => s.mode ≠ .scientific ∨ maxEntryLength ≤ s.entry.length
  | .equals => s.mode = .date
  | .toggleAngle | .function _ => s.mode ≠ .scientific
  | .setBase _ | .bitwise _ => s.mode ≠ .programmer
  | .setStart _ | .setEnd _ | .setBirth _ => s.mode ≠ .date
  | .difference => s.mode ≠ .date ∨ s.dates.start = "" ∨ s.dates.stop = ""
  | .age => s.mode ≠ .date ∨ s.dates.birth = ""
  | .clear | .backspace | .setMode _ | .toggleTheme | .toggleHistory => False

section
variable {s : Session} {clock : Clock} {input : Input}

theorem append_eq_refused_iff {c : Char} : s.append c = .refused ↔ maxEntryLength ≤ s.entry.length := by
  unfold append
  by_cases hroom : maxEntryLength ≤ s.entry.length <;> simp [hroom]

theorem enterDigit_eq_refused_iff {c : Char} : s.enterDigit c = .refused ↔ s.Refuses (.digit c) := by
  unfold enterDigit
  by_cases hdigit : s.isDigit c.toUpper = true <;> simp [hdigit, Refuses, append_eq_refused_iff]

theorem enterParenthesis_eq_refused_iff {c : Char} :
    s.enterParenthesis c = .refused ↔ s.mode ≠ .scientific ∨ maxEntryLength ≤ s.entry.length := by
  unfold enterParenthesis
  by_cases hmode : s.mode = .scientific <;> simp [hmode, append_eq_refused_iff]

theorem enterPoint_eq_refused_iff : s.enterPoint = .refused ↔ s.Refuses .point := by
  simp [enterPoint, Refuses, or_iff_not_imp_left]

/-- Steps that come to an end in something other than a refusal. -/
theorem bind_ne_refused {α : Type} (x : Except Fault α) {f : α → Except Fault Effect}
    (hf : ∀ a, f a ≠ .ok .refused) : x >>= f ≠ .ok .refused := by
  intro h
  obtain ⟨a, -, ha⟩ := Outcome.bind_eq_ok.mp h
  exact hf a ha

theorem ite_eq_refused_iff {condition : Prop} [Decidable condition] {x : Except Fault Effect}
    (hx : x ≠ .ok .refused) : (if condition then x else .ok .refused) = .ok .refused ↔ ¬ condition := by
  by_cases h : condition <;> simp [h, hx]

theorem enterEquals_eq_refused_iff : s.enterEquals clock = .ok .refused ↔ s.mode = .date := by
  unfold enterEquals
  cases s.mode with
  | date => simp
  | standard | scientific =>
    simp only [reduceCtorEq, iff_false]
    exact bind_ne_refused _ fun v => nofun
  | programmer =>
    simp only [reduceCtorEq, iff_false]
    exact bind_ne_refused _ fun x => bind_ne_refused _ fun n => nofun

theorem enterFunction_eq_refused_iff {f : ScientificFunction} :
    s.enterFunction f = .ok .refused ↔ s.mode ≠ .scientific := by
  apply ite_eq_refused_iff
  apply bind_ne_refused
  intro v
  split <;> nofun

theorem enterBitwise_eq_refused_iff {op : Bitwise} :
    s.enterBitwise op = .ok .refused ↔ s.mode ≠ .programmer := by
  apply ite_eq_refused_iff
  apply bind_ne_refused
  intro x
  split
  · exact bind_ne_refused _ fun n => nofun
  · exact bind_ne_refused _ fun n => nofun

theorem enterDifference_eq_refused_iff : s.enterDifference = .ok .refused ↔ s.Refuses .difference := by
  refine (ite_eq_refused_iff ?_).trans ?_
  · exact bind_ne_refused _ fun start => bind_ne_refused _ fun stop => nofun
  · simp [Refuses, or_iff_not_imp_left]

theorem enterAge_eq_refused_iff : s.enterAge clock = .ok .refused ↔ s.Refuses .age := by
  refine (ite_eq_refused_iff ?_).trans ?_
  · exact bind_ne_refused _ fun birth => nofun
  · simp [Refuses, or_iff_not_imp_left]

theorem apply_eq_refused_iff (h : input.isToggle = false) :
    s.apply clock input = .ok .refused ↔ s.Refuses input := by
  cases input with
  | toggleTheme | toggleHistory => exact Bool.noConfusion h
  | clear | backspace | setMode mode => simp [apply, Refuses, enterBackspace]
  | digit c => exact (Except.ok.injEq ..).to_iff.trans enterDigit_eq_refused_iff
  | point => exact (Except.ok.injEq ..).to_iff.trans enterPoint_eq_refused_iff
  | opening | closing => exact (Except.ok.injEq ..).to_iff.trans enterParenthesis_eq_refused_iff
  | operator op => simp [apply, Refuses, enterOperator]
  | toggleAngle => simp [apply, Refuses, enterAngle]
  | setBase base => simp [apply, Refuses, enterBase]
  | setStart text | setEnd text | setBirth text => simp [apply, Refuses, enterDates]
  | equals => exact enterEquals_eq_refused_iff
  | function f => exact enterFunction_eq_refused_iff
  | bitwise op => exact enterBitwise_eq_refused_iff
  | difference => exact enterDifference_eq_refused_iff
  | age => exact enterAge_eq_refused_iff

theorem acknowledged_of_not_isFailed (h : s.isFailed = false) : s.acknowledged = s :=
  acknowledged_of_none (Option.not_isSome_iff_eq_none.mp (Bool.eq_false_iff.mp h))

theorem calculate_event_eq_ignored_iff : (s.calculate clock input).event = .ignored ↔
    s.isFailed = false ∧ s.acknowledged.apply clock input = .ok .refused := by
  cases happly : s.acknowledged.apply clock input with
  | error fault => simp [calculate, happly]
  | ok effect => cases effect <;> simp [calculate, happly]

/-- On a failure no input is ignored, also one that is refused: the failure goes off the display. -/
theorem enter_event_eq_ignored_iff :
    (s.enter clock input).event = .ignored ↔ s.isFailed = false ∧ s.Refuses input := by
  cases htoggle : input.isToggle with
  | true => rcases Input.eq_of_isToggle htoggle with rfl | rfl <;> simp [enter, Refuses]
  | false =>
    rw [enter_eq_calculate htoggle, calculate_event_eq_ignored_iff]
    refine and_congr_right fun hfailed => ?_
    rw [acknowledged_of_not_isFailed hfailed, apply_eq_refused_iff htoggle]

theorem enter_of_ignored (h : (s.enter clock input).event = .ignored) :
    s.enter clock input = ⟨s, .ignored, none⟩ := by
  cases htoggle : input.isToggle with
  | true => rcases Input.eq_of_isToggle htoggle with rfl | rfl <;> simp [enter] at h
  | false =>
    rw [enter_eq_calculate htoggle] at h ⊢
    obtain ⟨hfailed, happly⟩ := calculate_event_eq_ignored_iff.mp h
    rw [acknowledged_of_not_isFailed hfailed] at happly
    simp [calculate, acknowledged_of_not_isFailed hfailed, happly, hfailed]

/-- An action that is ignored leaves all of the session as it was, and saves nothing. -/
theorem act_of_ignored {action : Action} (h : (s.act action).event = .ignored) :
    s.act action = ⟨s, .ignored, none⟩ := by
  cases action with
  | enter clock input => exact enter_of_ignored h
  | tick steady =>
    have hevent : (s.tick steady).event = .ignored := h
    exact tick_of_ne_reset (by simp [hevent])

end

end Session

open Session

theorem Desk.act_of_ignored {σ : Type} [Store σ] {desk : Desk σ} {action : Action}
    (h : (desk.act action).2 = .ignored) : desk.act action = (desk, .ignored) := by
  rw [act_event] at h
  rw [act_eq_follow, Session.act_of_ignored h]
  rfl

/-- Ignored is untouched, after any run from any store. An action that is ignored, be it an input or a time, leaves
the session and the store as they were. Under epochs it may begin one, or give up a deadline that is void, and leaves
the screen, the store and the end of a failure. An input is ignored exactly if no failure is shown and it is of those
that the session refuses. -/
theorem ignored_is_untouched {σ : Type} [Store σ] (store : σ) (actions : List Action) :
    let desk := (Desk.start store).run actions
    let keyed := (Keyed.start store).run actions
    let s := desk.session
    (∀ action, (desk.act action).2 = .ignored → (desk.act action).1 = desk) ∧
    (∀ action, (keyed.act action).2 = .ignored →
      (keyed.act action).1.screen = keyed.screen ∧ (keyed.act action).1.store = keyed.store ∧
        (keyed.act action).1.resetDue = keyed.resetDue) ∧
    (∀ clock input, (desk.enter clock input).2 = .ignored ↔ s.display ≠ errorText ∧ s.Refuses input) ∧
    (∀ clock input, s.display = errorText → (desk.enter clock input).2 ≠ .ignored) := by
  intro desk keyed s
  have hreachable : s.Reachable := Desk.reachable_run store actions
  have hshows : keyed.Shows desk := Keyed.shows_run store actions
  have hignored (clock : Clock) (input : Input) :
      (desk.enter clock input).2 = .ignored ↔ s.display ≠ errorText ∧ s.Refuses input := by
    have hevent : (desk.enter clock input).2 = (s.enter clock input).event := rfl
    rw [hevent, enter_event_eq_ignored_iff, ne_eq, hreachable.display_eq_errorText_iff, isFailed, Bool.not_eq_true]
  refine ⟨?_, ?_, hignored, ?_⟩
  · intro action h
    rw [Desk.act_of_ignored h]
  · intro action h
    -- both accounts answer alike, so that the desk is what it was, and it is what the screen shows
    obtain ⟨hnext, hevent⟩ := hshows.act hreachable action
    rw [h] at hevent
    rw [Desk.act_of_ignored hevent.symm] at hnext
    exact ⟨hnext.screen.trans hshows.screen.symm, hnext.store.trans hshows.store.symm,
      hnext.resetDue.trans hshows.resetDue.symm⟩
  · intro clock input hdisplay h
    exact ((hignored clock input).mp h).1 hdisplay

end DeskCalculator
