import DeskCalculator.Proofs.Session.Failure
import DeskCalculator.Proofs.Session.Handling

/-! Failures under epochs. A session keeps only the end of a failure that counts, and what stood on the display before
it; the calculator with its epochs shows the same, answers the same and keeps the same texts. -/
namespace DeskCalculator
open Session

namespace Keyed

variable {σ : Type}

/-- The screen is what the session shows, the texts are those of its store, and no deadline is ahead of the epoch. -/
structure Shows (k : Keyed σ) (desk : Desk σ) : Prop where
  screen : k.screen = { desk.session with entry := desk.session.display, resetDue := none }
  store : k.store = desk.store
  resetDue : k.resetDue = desk.session.resetDue
  epoch_le : ∀ deadline, k.deadline = some deadline → deadline.epoch ≤ k.epoch

section
variable {k : Keyed σ} {desk : Desk σ}

theorem Shows.showsFailure_eq (h : k.Shows desk) (hs : desk.session.Reachable) :
    k.showsFailure = desk.session.isFailed := by
  rw [showsFailure, h.screen, Bool.eq_iff_iff, decide_eq_true_eq]
  exact hs.display_eq_errorText_iff

theorem screen_with_zero (h : k.Shows desk) (hs : desk.session.Reachable) (hfailed : desk.session.isFailed = true) :
    { k.screen with entry := "0" } = desk.session.acknowledged := by
  rw [h.screen, acknowledged, ← hs.entry_of_isFailed hfailed]

/-- Both calculate on the same session. -/
theorem Shows.restored_eq (h : k.Shows desk) (hs : desk.session.Reachable) :
    k.restored = desk.session.acknowledged := by
  rw [restored, h.showsFailure_eq hs]
  by_cases hfailed : desk.session.isFailed = true
  · rw [if_pos hfailed]
    exact screen_with_zero h hs hfailed
  · rw [if_neg hfailed, h.screen, display, if_neg hfailed]
    rfl

/-- A deadline of an epoch that is over is void. -/
theorem shows_next {t : Session} {store kept : σ} {epoch : Nat} {deadline : Option Deadline} (ht : t.resetDue = none)
    (hstore : store = kept) (hepoch : ∀ old, deadline = some old → old.epoch ≤ epoch) :
    Shows ⟨t, store, epoch + 1, deadline⟩ ⟨t, kept⟩ := by
  have hdisplay : t.display = t.entry := by simp [display, isFailed, ht]
  refine ⟨?_, hstore, ?_, fun old hold => (hepoch old hold).trans (Nat.le_succ _)⟩
  · rw [hdisplay, ← ht]
  · rw [ht]
    cases deadline with
    | none => rfl
    | some old => exact if_neg (Nat.ne_of_lt (Nat.lt_succ_of_le (hepoch old rfl)))

end

variable [Store σ]

theorem run_concat (k : Keyed σ) (actions : List Action) (action : Action) :
    k.run (actions ++ [action]) = ((k.run actions).act action).1 := by
  induction actions generalizing k with
  | nil => rfl
  | cons first rest ih => exact ih (k.act first).1

section
variable {k : Keyed σ} {desk : Desk σ}

theorem Shows.calculate (h : k.Shows desk) (hs : desk.session.Reachable) (clock : Clock) (input : Input) :
    (k.calculate clock input).1.Shows (desk.follow (desk.session.calculate clock input)).1 ∧
      (k.calculate clock input).2 = (desk.session.calculate clock input).event := by
  rw [calculate_eq, h.restored_eq hs, h.showsFailure_eq hs, Session.calculate]
  cases happly : desk.session.acknowledged.apply clock input with
  | error fault =>
    refine ⟨⟨?_, h.store, if_pos rfl, fun _ hd => Option.some.inj hd ▸ Nat.le_refl _⟩, rfl⟩
    simp only [h.screen]
    rfl
  | ok effect =>
    have hnext := resetDue_enter_of_ok happly
    cases effect with
    | refused => exact ⟨shows_next hnext h.store h.epoch_le, rfl⟩
    | changed next => exact ⟨shows_next hnext h.store h.epoch_le, rfl⟩
    | evaluated next entry =>
      have hsaved := congrArg (fun store => (Store.save store historyKey next.history.toJson).2) h.store
      exact ⟨shows_next hnext hsaved h.epoch_le, rfl⟩

theorem Shows.enter (h : k.Shows desk) (hs : desk.session.Reachable) (clock : Clock) (input : Input) :
    (k.enter clock input).1.Shows (desk.enter clock input).1 ∧
      (k.enter clock input).2 = (desk.enter clock input).2 := by
  cases input with
  | toggleTheme =>
    simp only [Keyed.enter, h.screen, h.store]
    exact ⟨⟨rfl, rfl, h.resetDue, h.epoch_le⟩, rfl⟩
  | toggleHistory =>
    simp only [Keyed.enter, h.screen]
    exact ⟨⟨rfl, h.store, h.resetDue, h.epoch_le⟩, rfl⟩
  | _ => exact h.calculate hs clock _

theorem Shows.tick (h : k.Shows desk) (hs : desk.session.Reachable) (steady : Nat) :
    (k.tick steady).1.Shows (desk.tick steady).1 ∧ (k.tick steady).2 = (desk.tick steady).2 := by
  -- The end that the session keeps is the deadline, if that is of this epoch.
  have hreset := h.resetDue
  unfold Keyed.resetDue at hreset
  rw [Desk.tick]
  unfold Keyed.tick
  cases hdeadline : k.deadline with
  | none =>
    rw [hdeadline] at hreset
    rw [tick_of_not_due (by simp [← hreset])]
    exact ⟨h, rfl⟩
  | some deadline =>
    rw [hdeadline] at hreset
    by_cases hdue : deadline.due ≤ steady
    · by_cases hepoch : deadline.epoch = k.epoch
      · -- of this epoch, so it is the end that the session keeps
        simp only [if_pos hepoch] at hreset
        have hfailed : desk.session.isFailed = true := by simp [isFailed, ← hreset]
        have hshows : k.showsFailure = true := (h.showsFailure_eq hs).trans hfailed
        simp only [if_pos hdue, hepoch, hshows, decide_true, Bool.and_self, if_true]
        rw [tick_of_due hreset.symm hdue, withEntry, screen_with_zero h hs hfailed]
        exact ⟨⟨rfl, h.store, rfl, by simp⟩, rfl⟩
      · -- of an epoch that is over, and the session has none
        simp only [if_neg hepoch] at hreset
        simp only [if_pos hdue, hepoch, decide_false, Bool.false_and, Bool.false_eq_true, if_false]
        rw [tick_of_not_due (by simp [← hreset])]
        exact ⟨⟨h.screen, h.store, hreset, by simp⟩, rfl⟩
    · simp only [if_neg hdue]
      rw [tick_of_not_due]
      · exact ⟨h, rfl⟩
      · intro due hsome
        rw [← hreset] at hsome
        by_cases hepoch : deadline.epoch = k.epoch
        · simp only [if_pos hepoch, Option.some.injEq] at hsome
          omega
        · simp [if_neg hepoch] at hsome

/-- Whatever happens, both go on to show the same, and answer with the same event. -/
theorem Shows.act (h : k.Shows desk) (hs : desk.session.Reachable) (action : Action) :
    (k.act action).1.Shows (desk.act action).1 ∧ (k.act action).2 = (desk.act action).2 := by
  cases action with
  | enter clock input => exact h.enter hs clock input
  | tick steady => exact h.tick hs steady

end

theorem shows_run (store : σ) (actions : List Action) :
    Shows ((start store).run actions) ((Desk.start store).run actions) := by
  induction actions using List.reverseRecOn with
  | nil => exact ⟨rfl, rfl, rfl, by simp [run, start]⟩
  | append_singleton actions action ih =>
    rw [run_concat, Desk.run_concat]
    exact (ih.act (Desk.reachable_run store actions) action).1

end Keyed

/-- The showing of a failure after any run from any store. The display shows a failure exactly while its end
is due, a second after the last input but for toggles, which failed; a time that is not before that end is
what resets the display, and it changes nothing else; any other time changes nothing at all. All of it is as
under epochs. -/
theorem failure_lifecycle {σ : Type} [Store σ] (store : σ) (actions : List Action) :
    let desk := (Desk.start store).run actions
    let keyed := (Keyed.start store).run actions
    let s := desk.session
    (s.display = errorText ↔ s.resetDue.isSome = true) ∧
    (∀ due, s.resetDue = some due ↔ ∃ before clock input fault after,
      actions = before ++ .enter clock input :: after ∧ input.isToggle = false ∧
        (((Desk.start store).run before).enter clock input).2 = .failed fault ∧
        due = clock.steady + 1000 ∧ ∀ action ∈ after, action.Spares due) ∧
    (∀ steady, (desk.tick steady).2 = .reset ↔
      s.display = errorText ∧ ∃ due, s.resetDue = some due ∧ due ≤ steady) ∧
    (∀ steady, (desk.tick steady).2 = .reset →
      (desk.tick steady).1 = ⟨{ s with entry := "0", resetDue := none }, desk.store⟩ ∧
        (desk.tick steady).1.session.display = "0") ∧
    (∀ steady, (desk.tick steady).2 ≠ .reset → desk.tick steady = (desk, .ignored)) ∧
    keyed.screen.entry = s.display ∧ keyed.resetDue = s.resetDue ∧
    ∀ action, (keyed.act action).2 = (desk.act action).2 := by
  intro desk keyed s
  have hreachable : s.Reachable := Desk.reachable_run store actions
  have hshows : keyed.Shows desk := Keyed.shows_run store actions
  have hdisplay := hreachable.display_eq_errorText_iff
  have hreset (steady : Nat) : (desk.tick steady).2 = .reset ↔ ∃ due, s.resetDue = some due ∧ due ≤ steady :=
    tick_event_eq_reset_iff
  refine ⟨hdisplay, ?_, ?_, ?_, ?_, ?_, hshows.resetDue, ?_⟩
  · -- An input that fails is no toggle, so that the law of the end of a failure need not say so.
    intro due
    rw [Desk.resetDue_run_iff store]
    constructor
    · rintro ⟨before, clock, input, fault, after, hsplit, hevent, hdue, hspares⟩
      have htoggle := (enter_event_eq_failed_iff.mp hevent).1
      exact ⟨before, clock, input, fault, after, hsplit, htoggle, hevent, hdue, hspares⟩
    · rintro ⟨before, clock, input, fault, after, hsplit, -, hevent, hdue, hspares⟩
      exact ⟨before, clock, input, fault, after, hsplit, hevent, hdue, hspares⟩
  · intro steady
    rw [hreset, hdisplay]
    constructor
    · rintro ⟨due, hsome, hdue⟩
      exact ⟨by rw [hsome]; rfl, due, hsome, hdue⟩
    · exact fun h => h.2
  · -- A failure has a zero behind it, and that is all that is left of it.
    intro steady hevent
    obtain ⟨due, hsome, hdue⟩ := (hreset steady).mp hevent
    have hentry : s.entry = "0" := hreachable.entry_of_isFailed (by simp [isFailed, hsome])
    have htick : (desk.tick steady).1 = ⟨{ s with entry := "0", resetDue := none }, desk.store⟩ := by
      rw [Desk.tick, tick_of_due hsome hdue, ← hentry]
      rfl
    rw [htick]
    exact ⟨rfl, rfl⟩
  · intro steady hevent
    have hwaits : ∀ due, s.resetDue = some due → steady < due := fun due hsome =>
      Nat.not_le.mp fun hdue => hevent ((hreset steady).mpr ⟨due, hsome, hdue⟩)
    rw [Desk.tick, tick_of_not_due hwaits]
    rfl
  · rw [hshows.screen]
  · exact fun action => (hshows.act hreachable action).2

end DeskCalculator
