import DeskCalculator.Proofs.Session.Restart
import DeskCalculator.Proofs.Session.Trace

/-! Saves that fail. The store is asked at the start only, and what it answers to a save is not listened to, so that
two stores with the same texts make for the same run, whatever they fail to keep. Each save is of the whole history,
or of the theme, so that one that succeeds makes up for those that failed before. -/
namespace DeskCalculator
open Session

/-- A store that has a text when it has said that it was saved. -/
class KeepsSaved (σ : Type) [Store σ] : Prop where
  load_save {store : σ} {key text : String} (h : (Store.save store key text).1 = .ok ()) :
    Store.load (Store.save store key text).2 key = .ok (some text)

instance (priority := low) {σ : Type} [Store σ] [LawfulStore σ] : KeepsSaved σ where
  load_save _ := LawfulStore.load_save _ _ _

/-- A store whose saves fail or are let through to the store behind it, as it is laid down for one after the other;
from then on they are all let through. -/
structure FalteringStore (σ : Type) where
  inner : σ
  failing : List Bool := []

namespace FalteringStore

variable {σ : Type} [Store σ]

instance : Store (FalteringStore σ) where
  load store key := Store.load store.inner key
  save store key text :=
    if store.failing.headD false then (.error Fault.storage, { store with failing := store.failing.tail })
    else
      let (saved, inner) := Store.save store.inner key text
      (saved, { inner, failing := store.failing.tail })

instance [KeepsSaved σ] : KeepsSaved (FalteringStore σ) where
  load_save {store key text} h := by
    simp only [Store.save, Store.load] at h ⊢
    split at h
    · cases h
    · next hpasses =>
      rw [if_neg hpasses]
      exact KeepsSaved.load_save h

end FalteringStore

namespace Session

/-- A text from which all of what is kept under a key is read back. -/
def IsTextOf (s : Session) (key text : String) : Prop :=
  key = historyKey ∧ History.ofJson text = .ok s.history ∨ key = themeKey ∧ Theme.ofName text = .ok s.theme

section
variable {s : Session} {update : Update}

theorem Saves.isTextOf {key text : String} (h : Saves s update) (hsave : update.save = some (key, text)) :
    update.session.IsTextOf key text := by
  cases h with
  | nothing => cases hsave
  | theme =>
    cases hsave
    exact Or.inr ⟨rfl, Theme.ofName_render _⟩
  | history =>
    cases hsave
    exact Or.inl ⟨rfl, History.ofJson_toJson _⟩

theorem Saves.of_history_ne (h : Saves s update) (hne : update.session.history ≠ s.history) :
    ∃ text, update.save = some (historyKey, text) := by
  cases h with
  | nothing htheme hhistory => exact absurd hhistory hne
  | theme hhistory => exact absurd hhistory hne
  | history => exact ⟨_, rfl⟩

theorem Saves.of_theme_ne (h : Saves s update) (hne : update.session.theme ≠ s.theme) :
    ∃ text, update.save = some (themeKey, text) := by
  cases h with
  | nothing htheme => exact absurd htheme hne
  | theme => exact ⟨_, rfl⟩
  | history htheme => exact absurd htheme hne

end

end Session

namespace Desk

variable {σ τ : Type} [Store σ] [Store τ]

theorem start_session_congr {a : σ} {b : τ}
    (h : ∀ key ∈ [themeKey, historyKey], (Store.load a key).toOption.join = (Store.load b key).toOption.join) :
    (start a).session = (start b).session := by
  simp only [start, h themeKey (by simp), h historyKey (by simp)]

theorem steps_session (desk : Desk σ) (actions : List Action) :
    (steps Desk.act desk actions).map (Step.seen Desk.session) = steps respond desk.session actions :=
  projects_session.steps_of_kept desk fun _ _ => rfl

theorem act_store_of_save {desk : Desk σ} {action : Action} {key text : String}
    (h : (desk.session.act action).save = some (key, text)) :
    (desk.act action).1.store = (Store.save desk.store key text).2 := by
  rw [act_eq_follow, follow, h]

end Desk

open Desk

/-- Two stores that can be read alike at the start, each failing to save as it may, make for the same events and the
same sessions step by step. What a step changes of the history or of the theme it saves; the text is the whole of
it at any time, and the store has it from then on if it succeeds to save it. -/
theorem failing_saves_lose_nothing {σ τ : Type} [Store σ] [Store τ] {a : σ} {b : τ}
    (hload : ∀ key ∈ [themeKey, historyKey],
      (Store.load a key).toOption.join = (Store.load b key).toOption.join) (actions : List Action) :
    (steps Desk.act (start a) actions).map (Step.seen Desk.session) =
        (steps Desk.act (start b) actions).map (Step.seen Desk.session) ∧
      ∀ action,
        let desk := (start a).run actions
        let update := desk.session.act action
        let next := (desk.act action).1
        (next.session.history ≠ desk.session.history → ∃ text, update.save = some (historyKey, text)) ∧
        (next.session.theme ≠ desk.session.theme → ∃ text, update.save = some (themeKey, text)) ∧
        ∀ key text, update.save = some (key, text) → next.session.IsTextOf key text ∧
          (KeepsSaved σ → (Store.save desk.store key text).1 = .ok () → Store.load next.store key = .ok (some text)) := by
  constructor
  -- both runs are read off the one session they start with
  · rw [steps_session, steps_session, start_session_congr hload]
  · intro action desk update next
    have hsaves : Saves desk.session update := desk.session.saves_act action
    have hnext : next.session = update.session := desk.act_session action
    rw [hnext]
    refine ⟨hsaves.of_history_ne, hsaves.of_theme_ne, ?_⟩
    intro key text hsave
    refine ⟨hsaves.isTextOf hsave, ?_⟩
    intro hkeeps hsaved
    rw [act_store_of_save hsave]
    exact KeepsSaved.load_save hsaved

/-- The save of the first result fails, and that of the second one has both. -/
theorem second_save_has_both_results :
    let faltering : FalteringStore MemoryStore := { inner := {}, failing := [true] }
    let equals : Action := .enter ⟨0, 0, .epoch⟩ .equals
    let actions : List Action := [.enter ⟨0, 0, .epoch⟩ (.setMode .programmer), .enter ⟨0, 0, .epoch⟩ (.digit '7'), equals]
    let desk := (start faltering).run actions
    let next := (desk.act equals).1
    (steps Desk.act (start faltering) actions).map (Step.seen Desk.session) =
        (steps Desk.act (start ({} : MemoryStore)) actions).map (Step.seen Desk.session) ∧
      Store.load desk.store historyKey = .ok none ∧ next.session.history.entries = [⟨"7", "7", 0⟩, ⟨"7", "7", 0⟩] ∧
      ∃ text, Store.load next.store historyKey = .ok (some text) ∧
        History.ofJson text = .ok next.session.history := by
  intro faltering equals actions desk next
  have hload : ∀ key ∈ [themeKey, historyKey],
      (Store.load faltering key).toOption.join = (Store.load ({} : MemoryStore) key).toOption.join :=
    fun _ _ => rfl
  have hnone : Store.load desk.store historyKey = .ok none := by decide +kernel
  have hentries : next.session.history.entries = [⟨"7", "7", 0⟩, ⟨"7", "7", 0⟩] := by decide +kernel
  have hbefore : desk.session.history.entries = [⟨"7", "7", 0⟩] := by decide +kernel
  obtain ⟨hsteps, hlast⟩ := failing_saves_lose_nothing hload actions
  obtain ⟨hhistory, -, hsave⟩ := hlast equals
  have hne : next.session.history ≠ desk.session.history := by
    intro hsame
    rw [hsame, hbefore] at hentries
    simp at hentries
  obtain ⟨text, htext⟩ := hhistory hne
  obtain ⟨hwhole, hkept⟩ := hsave historyKey text htext
  have hsaved : (Store.save desk.store historyKey text).1 = .ok () := by
    have hpasses : desk.store.failing = [] := by decide +kernel
    simp only [Store.save, hpasses]
    rfl
  refine ⟨hsteps, hnone, hentries, text, hkept inferInstance hsaved, ?_⟩
  rcases hwhole with ⟨-, hread⟩ | ⟨hkey, -⟩
  · exact hread
  · exact absurd hkey (by decide)

end DeskCalculator
