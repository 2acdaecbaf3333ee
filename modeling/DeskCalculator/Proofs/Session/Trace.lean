import DeskCalculator.Proofs.Session.Run

/-! Runs step by step. A machine whose steps are determined by a part of its state, and which leaves that part alone
at some of the actions, does at all the other actions what it does when it is spared these. -/
namespace DeskCalculator

/-- A step of a run: an action, the event that answered it, and the state that was left. -/
structure Step (S : Type) where
  action : Action
  event : Event
  state : S
deriving DecidableEq, Repr

/-- A step as far as a part of its state shows it. -/
def Step.seen {S V : Type} (view : S → V) (step : Step S) : Step V := ⟨step.action, step.event, view step.state⟩

/-- The steps of a machine that answers every action with an event. -/
def steps {S : Type} (act : S → Action → S × Event) (s : S) : List Action → List (Step S)
  | [] => []
  | action :: rest => ⟨action, (act s action).2, (act s action).1⟩ :: steps act (act s action).1 rest

/-- At the actions that are kept, a machine does what another one does with the part of its state; at those that are
spared it leaves that part as it is. -/
structure Projects {S C : Type} (act : S → Action → S × Event) (next : C → Action → C × Event) (part : S → C)
    (kept : Action → Bool) : Prop where
  event : ∀ s {action}, kept action = true → (act s action).2 = (next (part s) action).2
  state : ∀ s {action}, kept action = true → part (act s action).1 = (next (part s) action).1
  spared : ∀ s {action}, kept action = false → part (act s action).1 = part s

section
variable {S C V : Type} {act : S → Action → S × Event} {next : C → Action → C × Event} {part : S → C}
  {kept : Action → Bool}

theorem map_seen_seen (view : C → V) (trace : List (Step S)) :
    (trace.map (Step.seen part)).map (Step.seen view) = trace.map (Step.seen fun s => view (part s)) := by
  rw [List.map_map]
  rfl

theorem Projects.steps_filter (h : Projects act next part kept) (s : S) (actions : List Action) :
    ((steps act s actions).filter (kept ·.action)).map (Step.seen part) =
      steps next (part s) (actions.filter kept) := by
  -- A spared action is a step of the left side only, and leaves the part from which the right side goes on.
  induction actions generalizing s with
  | nil => rfl
  | cons action rest ih =>
    cases hkept : kept action with
    | false =>
      rw [steps, List.filter_cons_of_neg (by simp [hkept]), List.filter_cons_of_neg (by simp [hkept]), ih,
        h.spared s hkept]
    | true =>
      rw [steps, List.filter_cons_of_pos hkept, List.filter_cons_of_pos (by exact hkept), steps, List.map_cons, ih,
        Step.seen, h.event s hkept, h.state s hkept]

theorem Projects.steps_of_kept (h : Projects act next part kept) (s : S) {actions : List Action}
    (hkept : ∀ action ∈ actions, kept action = true) :
    (steps act s actions).map (Step.seen part) = steps next (part s) actions := by
  induction actions generalizing s with
  | nil => rfl
  | cons action rest ih =>
    obtain ⟨hfirst, hrest⟩ := List.forall_mem_cons.mp hkept
    rw [steps, steps, List.map_cons, ih _ hrest, Step.seen, h.event s hfirst, h.state s hfirst]

/-- The steps that are kept in a run are those of the run without the actions that are spared. -/
theorem Projects.steps_spared (h : Projects act next part kept) (view : C → V) (s : S) (actions : List Action) :
    ((steps act s actions).filter (kept ·.action)).map (Step.seen fun s => view (part s)) =
      (steps act s (actions.filter kept)).map (Step.seen fun s => view (part s)) := by
  have hkept : ∀ action ∈ actions.filter kept, kept action = true := fun _ h => (List.mem_filter.mp h).2
  have hsteps := (h.steps_filter s actions).trans (h.steps_of_kept s hkept).symm
  rw [← map_seen_seen, hsteps, map_seen_seen]

end

/-- What an action makes of a session, and its event. -/
def Session.respond (s : Session) (action : Action) : Session × Event :=
  ((s.act action).session, (s.act action).event)

/-- All that a desk does is determined by its session. -/
theorem Desk.projects_session {σ : Type} [Store σ] :
    Projects (Desk.act : Desk σ → Action → Desk σ × Event) Session.respond Desk.session fun _ => true where
  event desk _ _ := desk.act_event _
  state desk _ _ := desk.act_session _
  spared _ _ hspared := Bool.noConfusion hspared

end DeskCalculator
