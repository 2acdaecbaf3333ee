import DeskCalculator.Proofs.Session.Characters

/-! How long a failure is shown. No entry spells the failure, so the display shows it exactly while its end is
due; the end that is due is that of the last input, and it stays due until an input or its time comes. -/
namespace DeskCalculator

/-- An action under which a failure that is due then stays on display. -/
def Action.Spares (due : Nat) : Action → Prop
  | .enter _ input => input.isToggle = true
  | .tick steady => steady < due

namespace Session

section
variable {s t : Session} {clock : Clock} {input : Input}

theorem Reachable.display_eq_errorText_iff (h : s.Reachable) :
    s.display = errorText ↔ s.resetDue.isSome = true := by
  unfold display
  by_cases hfailed : s.isFailed = true
  · rw [if_pos hfailed]
    exact ⟨fun _ => hfailed, fun _ => rfl⟩
  · rw [if_neg hfailed]
    exact ⟨fun herror => absurd herror h.entry_ne_errorText, fun hdue => absurd hdue hfailed⟩

theorem tick_of_due {due steady : Nat} (h : s.resetDue = some due) (hdue : due ≤ steady) :
    s.tick steady = ⟨s.acknowledged, .reset, none⟩ := by
  simp only [tick, h, if_pos hdue]

theorem tick_of_not_due {steady : Nat} (h : ∀ due, s.resetDue = some due → steady < due) :
    s.tick steady = ⟨s, .ignored, none⟩ := by
  cases hreset : s.resetDue with
  | none => simp only [tick, hreset]
  | some due => simp only [tick, hreset, if_neg (Nat.not_le.mpr (h due hreset))]

theorem tick_event_eq_reset_iff {steady : Nat} :
    (s.tick steady).event = .reset ↔ ∃ due, s.resetDue = some due ∧ due ≤ steady := by
  constructor
  · intro hevent
    by_contra hnone
    have hwaits : ∀ due, s.resetDue = some due → steady < due := fun due hsome =>
      Nat.not_le.mp fun hdue => hnone ⟨due, hsome, hdue⟩
    rw [tick_of_not_due hwaits] at hevent
    cases hevent
  · rintro ⟨due, hsome, hdue⟩
    rw [tick_of_due hsome hdue]

theorem tick_of_ne_reset {steady : Nat} (h : (s.tick steady).event ≠ .reset) :
    s.tick steady = ⟨s, .ignored, none⟩ := by
  apply tick_of_not_due
  intro due hsome
  by_contra hdue
  exact h (tick_event_eq_reset_iff.mpr ⟨due, hsome, Nat.not_lt.mp hdue⟩)

theorem resetDue_enter_of_ok {effect : Effect} (h : s.acknowledged.apply clock input = .ok effect) :
    (effect.next s.acknowledged).resetDue = none := by
  rcases accounted_apply h with rfl | h
  · rfl
  · exact h.resetDue_eq

theorem resetDue_enter_iff {due : Nat} :
    (s.enter clock input).session.resetDue = some due ↔
      (s.resetDue = some due ∧ input.isToggle = true) ∨
      ∃ fault, (s.enter clock input).event = .failed fault ∧ due = clock.steady + errorDelay := by
  cases htoggle : input.isToggle with
  | true =>
    have hsame : (s.enter clock input).session.resetDue = s.resetDue := by
      rcases Input.eq_of_isToggle htoggle with rfl | rfl <;> rfl
    have hnone : ∀ fault, (s.enter clock input).event ≠ .failed fault := fun fault hevent => by
      rw [(enter_event_eq_failed_iff.mp hevent).1] at htoggle
      exact Bool.noConfusion htoggle
    simp [hsame, hnone]
  | false =>
    cases happly : s.acknowledged.apply clock input with
    | error fault =>
      have hevent := enter_event_eq_failed_iff.mpr ⟨htoggle, happly⟩
      rw [enter_eq_calculate htoggle] at hevent ⊢
      rw [calculate_of_error happly]
      simp [failed, failing, eq_comm]
    | ok effect =>
      have hnone : ∀ fault, (s.enter clock input).event ≠ .failed fault := fun fault hevent => by
        have herror := (enter_event_eq_failed_iff.mp hevent).2
        rw [happly] at herror
        cases herror
      simp only [hnone, false_and, exists_false, or_false, Bool.false_eq_true, and_false, iff_false]
      rw [enter_eq_calculate htoggle, calculate_session_of_ok happly, resetDue_enter_of_ok happly]
      simp

theorem resetDue_tick_iff {due steady : Nat} :
    (s.tick steady).session.resetDue = some due ↔ s.resetDue = some due ∧ steady < due := by
  cases hreset : s.resetDue with
  | none =>
    rw [tick_of_not_due (by simp [hreset])]
    simp [hreset]
  | some last =>
    by_cases hdue : last ≤ steady
    · rw [tick_of_due hreset hdue]
      simp only [acknowledged, reduceCtorEq, Option.some.injEq, false_iff]
      omega
    · rw [tick_of_not_due (by simp only [hreset, Option.some.injEq]; omega)]
      simp only [hreset, Option.some.injEq]
      omega

/-- The end of a failure is due after an action if it was before and the action spares it, or if the action
is an input that fails. -/
theorem resetDue_act_iff {action : Action} {due : Nat} :
    (s.act action).session.resetDue = some due ↔
      (s.resetDue = some due ∧ action.Spares due) ∨
      ∃ clock input fault, action = .enter clock input ∧ (s.enter clock input).event = .failed fault ∧
        due = clock.steady + errorDelay := by
  cases action with
  | enter clock input => simpa [Action.Spares, act] using resetDue_enter_iff
  | tick steady => simpa [Action.Spares, act] using resetDue_tick_iff

end

end Session

open Session

/-- The end of a failure that is due after a run is that of its last input but for toggles, which failed, and
the time for it has not come since. -/
theorem Desk.resetDue_run_iff {σ : Type} [Store σ] (store : σ) {actions : List Action} {due : Nat} :
    ((start store).run actions).session.resetDue = some due ↔
      ∃ before clock input fault after, actions = before ++ .enter clock input :: after ∧
        (((start store).run before).enter clock input).2 = .failed fault ∧
        due = clock.steady + errorDelay ∧ ∀ action ∈ after, action.Spares due := by
  induction actions using List.reverseRecOn with
  | nil =>
    have hnone : ((start store).run []).session.resetDue = none := rfl
    simp [hnone]
  | append_singleton actions last ih =>
    rw [run_concat, act_session, resetDue_act_iff, ih]
    constructor
    · rintro (⟨⟨before, clock, input, fault, after, rfl, hevent, hdue, hspares⟩, hlast⟩ |
        ⟨clock, input, fault, rfl, hevent, hdue⟩)
      · refine ⟨before, clock, input, fault, after ++ [last], by simp, hevent, hdue, ?_⟩
        intro action haction
        rcases List.mem_append.mp haction with haction | haction
        · exact hspares action haction
        · exact List.mem_singleton.mp haction ▸ hlast
      · exact ⟨actions, clock, input, fault, [], rfl, hevent, hdue, by simp⟩
    · -- the last action is the failing input, or one that came after it
      rintro ⟨before, clock, input, fault, after, hsplit, hevent, hdue, hspares⟩
      rcases List.eq_nil_or_concat' after with rfl | ⟨front, action, rfl⟩
      · obtain ⟨rfl, hlast⟩ := List.append_inj' hsplit rfl
        exact Or.inr ⟨clock, input, fault, List.singleton_inj.mp hlast, hevent, hdue⟩
      · rw [← List.cons_append, ← List.append_assoc] at hsplit
        obtain ⟨rfl, hlast⟩ := List.append_inj' hsplit rfl
        obtain rfl := List.singleton_inj.mp hlast
        exact Or.inl ⟨⟨before, clock, input, fault, front, rfl, hevent, hdue, fun next hnext =>
          hspares next (List.mem_append_left _ hnext)⟩, hspares last (by simp)⟩

end DeskCalculator
