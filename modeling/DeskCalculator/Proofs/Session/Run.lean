import DeskCalculator.Session.Step
import Mathlib.Data.List.Induction

/-! Inputs entered one after another, and runs in which time passes too. The store takes no part in what
happens to the session: it is read at the start, and only written after that. -/
namespace DeskCalculator

namespace Session

def entered (s : Session) : List (Clock × Input) → Session
  | [] => s
  | (clock, input) :: rest => (s.enter clock input).session.entered rest

theorem entered_append (s : Session) (before after : List (Clock × Input)) :
    s.entered (before ++ after) = (s.entered before).entered after := by
  induction before generalizing s with
  | nil => rfl
  | cons first rest ih => exact ih (s.enter first.1 first.2).session

theorem calculate_of_changed {s t : Session} {clock : Clock} {input : Input}
    (h : s.acknowledged.apply clock input = .ok (.changed t)) : s.calculate clock input = ⟨t, .changed, none⟩ := by
  simp only [calculate, h]

theorem enter_of_changed {s t : Session} {clock : Clock} {input : Input}
    (h : s.acknowledged.apply clock input = .ok (.changed t)) : s.enter clock input = ⟨t, .changed, none⟩ := by
  cases input
  -- the toggles of the screen are refused in the midst of a calculation
  case toggleTheme | toggleHistory => exact absurd (Except.ok.inj h) (by simp)
  all_goals exact calculate_of_changed h

/-- A display without a failure shows the entry. -/
theorem shown_of_display_ne {s : Session} (h : s.display ≠ errorText) : s.resetDue = none ∧ s.display = s.entry := by
  cases hdue : s.resetDue with
  | none => exact ⟨rfl, by simp [display, isFailed, hdue]⟩
  | some due => exact absurd (by simp [display, isFailed, hdue]) h

theorem acknowledged_of_none {s : Session} (h : s.resetDue = none) : s.acknowledged = s := by
  rw [acknowledged, ← h]

def act (s : Session) : Action → Update
  | .enter clock input => s.enter clock input
  | .tick steady => s.tick steady

/-- The sessions that a run can come to, whatever texts the store holds at its start. -/
inductive Reachable : Session → Prop
  | start (theme history : Option String) : Reachable (restore theme history)
  | act {s : Session} (h : Reachable s) (action : Action) : Reachable (s.act action).session

end Session

namespace Desk

variable {σ : Type} [Store σ]

def act (desk : Desk σ) : Action → Desk σ × Event
  | .enter clock input => desk.enter clock input
  | .tick steady => desk.tick steady

def run (desk : Desk σ) : List Action → Desk σ
  | [] => desk
  | action :: rest => (desk.act action).1.run rest

theorem run_append (desk : Desk σ) (before after : List Action) :
    desk.run (before ++ after) = (desk.run before).run after := by
  induction before generalizing desk with
  | nil => rfl
  | cons first rest ih => exact ih (desk.act first).1

theorem run_concat (desk : Desk σ) (actions : List Action) (action : Action) :
    desk.run (actions ++ [action]) = ((desk.run actions).act action).1 :=
  desk.run_append actions [action]

theorem act_eq_follow (desk : Desk σ) (action : Action) :
    desk.act action = desk.follow (desk.session.act action) := by
  cases action <;> rfl

theorem act_session (desk : Desk σ) (action : Action) :
    (desk.act action).1.session = (desk.session.act action).session := by
  rw [act_eq_follow, follow]

theorem act_event (desk : Desk σ) (action : Action) :
    (desk.act action).2 = (desk.session.act action).event := by
  rw [act_eq_follow, follow]

theorem reachable_run (store : σ) (actions : List Action) :
    ((start store).run actions).session.Reachable := by
  induction actions using List.reverseRecOn with
  | nil => exact .start _ _
  | append_singleton actions action ih =>
    rw [run_concat, act_session]
    exact ih.act action

end Desk

end DeskCalculator
