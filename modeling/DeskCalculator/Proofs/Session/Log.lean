import DeskCalculator.Proofs.Session.Saving

/-! The history as the log of a run. Equals is the only input that adds to it, one calculation for each event that
tells of one; what a start brings along stands behind these, and the oldest ones go. Each of these events, and no
other one, comes with a save of the history. -/
namespace DeskCalculator
open Session

/-- The calculation that an event tells of. -/
def Event.told? : Event → Option History.Entry
  | .evaluated entry => some entry
  | _ => none

namespace Session

section
variable {s next : Session} {clock : Clock} {input : Input} {entry : History.Entry}

theorem input_of_evaluated (h : s.apply clock input = .ok (.evaluated next entry)) : input = .equals := by
  cases input with
  | equals => rfl
  | digit c =>
    simp only [apply, enterDigit, append] at h
    split_ifs at h <;> cases h
  | opening | closing =>
    simp only [apply, enterParenthesis, append] at h
    split_ifs at h <;> cases h
  | point | operator | toggleAngle | setBase | setStart | setEnd | setBirth =>
    simp only [apply, enterPoint, enterOperator, enterAngle, enterBase, enterDates] at h
    split_ifs at h <;> cases h
  | clear | backspace | setMode | toggleTheme | toggleHistory => cases h
  | function f =>
    simp only [apply, enterFunction] at h
    split_ifs at h
    · obtain ⟨v, -, h⟩ := Outcome.bind_eq_ok.mp h
      split_ifs at h
      cases h
    · cases h
  | bitwise | difference | age =>
    simp only [apply, enterBitwise, enterDifference, enterAge] at h
    split_ifs at h <;> simp [Outcome.bind_eq_ok, pure, Except.pure] at h

theorem history_of_evaluated (h : s.apply clock input = .ok (.evaluated next entry)) :
    next.history = s.history.push entry := by
  obtain rfl := input_of_evaluated h
  simp only [apply, enterEquals] at h
  -- in every mode that has a result, the history is pushed at the end
  split at h
  · obtain ⟨v, -, h⟩ := Outcome.bind_eq_ok.mp h
    cases h
    rfl
  · obtain ⟨v, -, h⟩ := Outcome.bind_eq_ok.mp h
    cases h
    rfl
  · obtain ⟨x, -, h⟩ := Outcome.bind_eq_ok.mp h
    obtain ⟨n, -, h⟩ := Outcome.bind_eq_ok.mp h
    cases h
    rfl
  · cases h

/-- What an update does to the history: it adds the calculation that its event tells of and saves the whole, or it
leaves the history alone. -/
inductive Logs (s : Session) : Update → Prop
  | added {t : Session} {entry : History.Entry} (hhistory : t.history = s.history.push entry) :
      Logs s ⟨t, .evaluated entry, some (historyKey, t.history.toJson)⟩
  | spared {t : Session} {event : Event} {save : Option (String × String)} (hevent : event.told? = none)
      (hhistory : t.history = s.history) (hsave : ∀ text, save ≠ some (historyKey, text)) :
      Logs s ⟨t, event, save⟩

theorem logs_calculate (s : Session) (clock : Clock) (input : Input) : Logs s (s.calculate clock input) := by
  cases happly : s.acknowledged.apply clock input with
  | error fault =>
    rw [calculate_of_error happly]
    exact .spared rfl rfl (by simp)
  | ok effect =>
    simp only [calculate, happly]
    cases effect with
    | refused =>
      have hevent : (if s.isFailed then Event.changed else .ignored).told? = none := by split <;> rfl
      exact .spared hevent rfl (by simp)
    | changed next => exact .spared rfl (history_of_changed (s := s.acknowledged) happly) (by simp)
    | evaluated next entry => exact .added (history_of_evaluated (s := s.acknowledged) happly)

theorem logs_act (s : Session) (action : Action) : Logs s (s.act action) := by
  apply act_cases
  case theme =>
    have hkeys : themeKey ≠ historyKey := by decide
    exact .spared rfl rfl fun text hsave => hkeys (Prod.mk.inj (Option.some.inj hsave)).1
  case calculated => exact s.logs_calculate
  case panel | reset | ignored => exact .spared rfl rfl (by simp)

theorem history_act (s : Session) (action : Action) :
    (s.act action).session.history = s.history.pushAll (s.act action).event.told?.toList := by
  have hlogs := s.logs_act action
  generalize s.act action = update at hlogs ⊢
  cases hlogs with
  | added hhistory => exact hhistory
  | spared hevent hhistory =>
    rw [hevent]
    exact hhistory

/-- The texts under the key of the history, of those that an update saves. -/
theorem save_act (s : Session) (action : Action) :
    (s.act action).save.toList.filter (·.1 = historyKey) =
      (s.act action).event.told?.toList.map fun _ => (historyKey, (s.act action).session.history.toJson) := by
  have hlogs := s.logs_act action
  generalize s.act action = update at hlogs ⊢
  cases hlogs with
  | added hhistory => simp [Event.told?]
  | @spared t event save hevent hhistory hsave =>
    rw [hevent]
    cases save with
    | none => rfl
    | some kept =>
      have hkey : kept.1 ≠ historyKey := fun hkey => hsave kept.2 (by rw [← hkey])
      simp [hkey]

end
end Session

/-- The calculations that the events of a run tell of, one after the other. -/
def evaluations {S : Type} (trace : List (Step S)) : List History.Entry := trace.filterMap (·.event.told?)

theorem evaluations_seen {S V : Type} (view : S → V) (trace : List (Step S)) :
    evaluations (trace.map (Step.seen view)) = evaluations trace := by
  rw [evaluations, List.filterMap_map]
  rfl

namespace Desk

variable {σ : Type} [Store σ]

theorem history_run (desk : Desk σ) (actions : List Action) :
    (desk.run actions).session.history =
      desk.session.history.pushAll (evaluations (steps Desk.act desk actions)) := by
  induction actions generalizing desk with
  | nil => rfl
  | cons action rest ih =>
    have hstep := desk.session.history_act action
    rw [← act_session, ← act_event] at hstep
    rw [run, ih, hstep, steps, evaluations, evaluations, List.filterMap_cons]
    cases (desk.act action).2.told? <;> rfl

/-- The calculations that a store brings along. -/
def restored (store : σ) : List History.Entry :=
  (Store.load store historyKey).toOption.join.elim [] History.toldBy

theorem entries_start (store : σ) :
    (start store).session.history.entries = (restored store).take History.limit := by
  simp only [start, restore, restored]
  cases (Store.load store historyKey).toOption.join with
  | none => rfl
  | some document => exact congrArg History.entries (History.getD_ofJson document)

section
variable {desk : Desk (GuardedStore σ)}

theorem written_act (h : historyKey ∉ desk.store.unwritable) (action : Action) :
    (desk.act action).1.store.unwritable = desk.store.unwritable ∧
      (desk.act action).1.store.written.filter (·.1 = historyKey) =
        desk.store.written.filter (·.1 = historyKey) ++
          (desk.session.act action).save.toList.filter (·.1 = historyKey) := by
  rw [act_eq_follow, follow]
  cases (desk.session.act action).save with
  | none => simp
  | some kept =>
    obtain ⟨key, text⟩ := kept
    simp only [Store.save]
    by_cases hkey : key ∈ desk.store.unwritable
    · -- a text that is not let through is not one of the history
      have hne : key ≠ historyKey := by
        rintro rfl
        exact h hkey
      simp [hkey, hne]
    · simp [hkey]

/-- The saves of the history that a run asks for are those of the steps with a calculation, of which each asks for
one with the whole history that it leaves. -/
theorem written_run (h : historyKey ∉ desk.store.unwritable) (actions : List Action) :
    (desk.run actions).store.written.filter (·.1 = historyKey) =
      desk.store.written.filter (·.1 = historyKey) ++
        ((steps Desk.act desk actions).filter (·.event.told?.isSome)).map fun step =>
          (historyKey, step.state.session.history.toJson) := by
  induction actions generalizing desk with
  | nil => simp [run, steps]
  | cons action rest ih =>
    obtain ⟨hsame, hwritten⟩ := written_act h action
    have hallowed : historyKey ∉ (desk.act action).1.store.unwritable := hsame ▸ h
    have hsave := desk.session.save_act action
    rw [← act_session, ← act_event] at hsave
    rw [run, ih hallowed, hwritten, hsave, steps, List.append_assoc]
    congr 1
    cases hevent : (desk.act action).2.told? <;> simp [hevent]

end

end Desk

open Desk

/-- The history after any run is the ten newest of the calculations that its events told of and, behind them, of the
ten that the start brought along. Where an event tells of none the history stays as it is. A store that lets every
save through has been asked to save the history once for each calculation, each time the whole of it. -/
theorem history_is_log_of_run {σ : Type} [Store σ] (store : σ) (actions : List Action) :
    let desk := (start store).run actions
    let trace := (steps Desk.act (start store) actions).map (Step.seen Desk.session)
    let guarded : GuardedStore σ := { inner := store }
    desk.session.history.entries = ((evaluations trace).reverse ++ (restored store).take 10).take 10 ∧
    (∀ action, (∀ entry, (desk.act action).2 ≠ .evaluated entry) →
      (desk.act action).1.session.history = desk.session.history) ∧
    ((start guarded).run actions).store.written.filter (·.1 = historyKey) =
      (trace.filter (·.event.told?.isSome)).map fun step => (historyKey, step.state.history.toJson) := by
  intro desk trace guarded
  refine ⟨?_, ?_, ?_⟩
  · rw [history_run, History.entries_pushAll, entries_start, evaluations_seen]
    rfl
  · intro action hevent
    have hlogs := desk.session.logs_act action
    rw [act_event] at hevent
    rw [act_session]
    generalize desk.session.act action = update at hlogs hevent
    cases hlogs with
    | added => exact absurd rfl (hevent _)
    | spared _ hhistory => exact hhistory
  · have hsame : (start guarded).session = (start store).session := rfl
    have htrace : (steps Desk.act (start guarded) actions).map (Step.seen Desk.session) = trace := by
      rw [steps_session, hsame, ← steps_session]
    rw [written_run (by simp [start, guarded]), ← htrace, List.filter_map, List.map_map]
    rfl

/-- A seven on which Equals is pressed is recorded, and the history with it is saved once. -/
theorem seven_is_recorded :
    let actions := [Input.setMode .programmer, .digit '7', .equals].map (Action.enter ⟨0, 0, .epoch⟩)
    let desk := (start ({} : MemoryStore)).run actions
    let guarded : GuardedStore MemoryStore := { inner := {} }
    desk.session.history.entries = [⟨"7", "7", 0⟩] ∧
      ((start guarded).run actions).store.written.filter (·.1 = historyKey) =
        [(historyKey, desk.session.history.toJson)] := by
  intro actions desk guarded
  obtain ⟨hentries, -, hwritten⟩ := history_is_log_of_run ({} : MemoryStore) actions
  rw [hentries, hwritten]
  exact ⟨by decide +kernel, by decide +kernel⟩

end DeskCalculator
