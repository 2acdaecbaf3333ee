import DeskCalculator.Proofs.History
import DeskCalculator.Proofs.Session.Changes
import DeskCalculator.Proofs.Store.File

/-! A calculator that is started again. The store has the theme and the history of the session at every time, since
each action that changes one of them saves it; what the session starts with is only what can be read of the store,
and that stays as it is until it is saved anew. -/
namespace DeskCalculator

open Session

theorem Theme.ofName_render (theme : Theme) : Theme.ofName theme.render = .ok theme := by
  cases theme <;> rfl

namespace Session

/-- A new session goes on with the theme and the history of another one, and with an empty calculation. -/
structure Resumes (fresh running : Session) : Prop where
  theme : fresh.theme = running.theme
  history : fresh.history = running.history
  display : fresh.display = "0"
  expression : fresh.expression = ""

section
variable {s t : Session} {clock : Clock} {input : Input}

theorem Changes.theme_eq (h : Changes s clock input t) : t.theme = s.theme := by
  cases h <;> rfl

theorem Changes.history_eq (h : Changes s clock input t) (hinput : input ≠ .equals) : t.history = s.history := by
  cases h with
  | calculated | joined => exact absurd rfl hinput
  | _ => rfl

theorem enterEquals_ne_changed (next : Session) : s.enterEquals clock ≠ .ok (.changed next) := by
  intro h
  unfold enterEquals at h
  split at h
  · obtain ⟨v, -, h⟩ := Outcome.bind_eq_ok.mp h
    cases h
  · obtain ⟨v, -, h⟩ := Outcome.bind_eq_ok.mp h
    cases h
  · obtain ⟨x, -, h⟩ := Outcome.bind_eq_ok.mp h
    obtain ⟨n, -, h⟩ := Outcome.bind_eq_ok.mp h
    cases h
  · cases h

/-- Equals changes the history, but it does not come out as a mere change. -/
theorem history_of_changed {next : Session} (h : s.apply clock input = .ok (.changed next)) :
    next.history = s.history := by
  have hinput : input ≠ .equals := by
    rintro rfl
    exact enterEquals_ne_changed next h
  obtain h | hchanges := accounted_apply h
  · cases h
  · exact hchanges.history_eq hinput

/-- What an update saves is what it changes of the theme and of the history. -/
inductive Saves (s : Session) : Update → Prop
  | nothing {t : Session} {event : Event} (htheme : t.theme = s.theme) (hhistory : t.history = s.history) :
      Saves s ⟨t, event, none⟩
  | theme {t : Session} {event : Event} (hhistory : t.history = s.history) :
      Saves s ⟨t, event, some (themeKey, t.theme.render)⟩
  | history {t : Session} {event : Event} (htheme : t.theme = s.theme) :
      Saves s ⟨t, event, some (historyKey, t.history.toJson)⟩

theorem saves_calculate (s : Session) (clock : Clock) (input : Input) : Saves s (s.calculate clock input) := by
  cases happly : s.acknowledged.apply clock input with
  | error fault =>
    rw [calculate_of_error happly]
    exact .nothing rfl rfl
  | ok effect =>
    have haccounted := accounted_apply happly
    simp only [calculate, happly]
    cases effect with
    | refused => exact .nothing rfl rfl
    | evaluated next entry =>
      obtain h | hchanges := haccounted
      · cases h
      · exact .history hchanges.theme_eq
    | changed next =>
      obtain h | hchanges := haccounted
      · cases h
      · exact .nothing hchanges.theme_eq (history_of_changed (s := s.acknowledged) happly)

/-- What holds of each update that an action can make holds of the one it makes. -/
theorem act_cases {P : Update → Prop} (s : Session) (action : Action)
    (theme : P ⟨{ s with theme := s.theme.toggle }, .changed, some (themeKey, s.theme.toggle.render)⟩)
    (panel : P ⟨{ s with showHistory := !s.showHistory }, .changed, none⟩)
    (calculated : ∀ clock input, P (s.calculate clock input))
    (reset : P ⟨s.acknowledged, .reset, none⟩) (ignored : P ⟨s, .ignored, none⟩) : P (s.act action) := by
  cases action with
  | enter clock input =>
    cases htoggle : input.isToggle with
    | true =>
      rcases Input.eq_of_isToggle htoggle with rfl | rfl
      · exact theme
      · exact panel
    | false =>
      rw [act, enter_eq_calculate htoggle]
      exact calculated clock input
  | tick steady =>
    rw [act, tick]
    split
    · split
      · exact reset
      · exact ignored
    · exact ignored

theorem saves_act (s : Session) (action : Action) : Saves s (s.act action) := by
  apply act_cases
  case theme => exact .theme rfl
  case calculated => exact s.saves_calculate
  case panel | reset | ignored => exact .nothing rfl rfl

end

end Session

namespace Desk

section
variable {σ τ : Type} [Store σ] [Store τ]

theorem start_theme_congr {a : σ} {b : τ} (h : Store.load a themeKey = Store.load b themeKey) :
    (start a).session.theme = (start b).session.theme := by
  simp only [start, restore, h]

theorem start_history_congr {a : σ} {b : τ} (h : Store.load a historyKey = Store.load b historyKey) :
    (start a).session.history = (start b).session.history := by
  simp only [start, restore, h]

theorem getD_loaded {α : Type} {store : σ} {key text : String} {read : String → Except Fault α} {value : α}
    (hload : Store.load store key = .ok (some text)) (hread : read text = .ok value) (other : α) :
    ((Store.load store key).toOption.join.bind fun text => (read text).toOption).getD other = value := by
  rw [hload, Except.toOption, Option.join_some, Option.bind_some, hread]
  rfl

theorem start_theme {store : σ} {theme : Theme} (h : Store.load store themeKey = .ok (some theme.render)) :
    (start store).session.theme = theme := getD_loaded h theme.ofName_render default

theorem start_history {store : σ} {history : History}
    (h : Store.load store historyKey = .ok (some history.toJson)) : (start store).session.history = history :=
  getD_loaded h history.ofJson_toJson History.empty

/-- What a calculator starts with on the store of another one is what that one has. -/
def IsKept (desk : Desk σ) : Prop := Resumes (start desk.store).session desk.session

theorem isKept_start (store : σ) : (start store).IsKept := ⟨rfl, rfl, rfl, rfl⟩

theorem IsKept.act [LawfulStore σ] {desk : Desk σ} (h : desk.IsKept) (action : Action) :
    (desk.act action).1.IsKept := by
  have hkeys : themeKey ≠ historyKey := by decide
  have hsaves := desk.session.saves_act action
  rw [act_eq_follow]
  generalize desk.session.act action = update at hsaves
  -- of what the store had before, a save leaves the text under the other key
  cases hsaves with
  | nothing htheme hhistory => exact ⟨h.theme.trans htheme.symm, h.history.trans hhistory.symm, rfl, rfl⟩
  | @theme t event hhistory =>
    have hkept := start_history_congr (LawfulStore.load_save_of_ne desk.store hkeys.symm t.theme.render)
    have hsaved := start_theme (LawfulStore.load_save desk.store themeKey t.theme.render)
    exact ⟨hsaved, (hkept.trans h.history).trans hhistory.symm, rfl, rfl⟩
  | @history t event htheme =>
    have hkept := start_theme_congr (LawfulStore.load_save_of_ne desk.store hkeys t.history.toJson)
    have hsaved := start_history (LawfulStore.load_save desk.store historyKey t.history.toJson)
    exact ⟨(hkept.trans h.theme).trans htheme.symm, hsaved, rfl, rfl⟩

theorem IsKept.run [LawfulStore σ] {desk : Desk σ} (h : desk.IsKept) (actions : List Action) :
    (desk.run actions).IsKept := by
  induction actions generalizing desk with
  | nil => exact h
  | cons action rest ih => exact ih (h.act action)

/-- No save of a run fails. -/
def SavesSucceed (desk : Desk σ) : List Action → Prop
  | [] => True
  | action :: rest =>
    (∀ kept ∈ (desk.session.act action).save, (Store.save desk.store kept.1 kept.2).1 = .ok ()) ∧
      (desk.act action).1.SavesSucceed rest

instance SavesSucceed.decidable (desk : Desk σ) : (actions : List Action) → Decidable (desk.SavesSucceed actions)
  | [] => inferInstanceAs (Decidable True)
  | action :: rest =>
    have := decidable (desk.act action).1 rest
    inferInstanceAs (Decidable (_ ∧ _))

end

theorem synced_act {desk : Desk FileStore} {action : Action} (h : desk.store.Synced)
    (hsaves : ∀ kept ∈ (desk.session.act action).save, (Store.save desk.store kept.1 kept.2).1 = .ok ()) :
    (desk.act action).1.store.Synced := by
  rw [act_eq_follow]
  cases hsave : (desk.session.act action).save with
  | none =>
    simp only [follow, hsave]
    exact h
  | some kept =>
    simp only [follow, hsave]
    exact FileStore.synced_flush (hsaves kept hsave)

theorem synced_run {desk : Desk FileStore} (h : desk.store.Synced) {actions : List Action}
    (hsaves : desk.SavesSucceed actions) : (desk.run actions).store.Synced := by
  induction actions generalizing desk with
  | nil => exact h
  | cons action rest ih => exact ih (synced_act h hsaves.1) hsaves.2

end Desk

open Desk

/-- At any point of a run, a calculator that is started on the same store, or on the file of that store opened
anew, goes on with the theme and the history. -/
theorem restart_resumes :
    (∀ (store : MemoryStore) (actions : List Action),
      let last := (start store).run actions
      Resumes (start last.store).session last.session) ∧
    (∀ (disk : Disk) (path : Path) (store : FileStore) (actions : List Action),
      FileStore.openAt disk path = .ok store → (start store).SavesSucceed actions →
        let last := (start store).run actions
        ∃ reopened, last.store.reopen = .ok reopened ∧ Resumes (start reopened).session last.session) := by
  constructor
  · intro store actions
    exact (isKept_start store).run actions
  · intro disk path store actions hopen hsaves last
    have hkept : last.IsKept := (isKept_start store).run actions
    obtain ⟨saved, hread, hkeys⟩ := synced_run (FileStore.synced_openAt hopen) hsaves
    have hsame (key : String) :
        Store.load (⟨last.store.disk, last.store.path, saved⟩ : FileStore) key = Store.load last.store key :=
      congrArg Except.ok (hkeys key)
    refine ⟨_, congrArg (Except.map _) hread, ?_, ?_, rfl, rfl⟩
    · rw [start_theme_congr (hsame themeKey), hkept.theme]
    · rw [start_history_congr (hsame historyKey), hkept.history]

theorem restart_resumes_after_seven :
    let path : Path := { names := ["store.json"] }
    let actions : List Action := [.enter ⟨0, 0, .epoch⟩ .toggleTheme, .enter ⟨0, 0, .epoch⟩ (.setMode .programmer),
      .enter ⟨0, 0, .epoch⟩ (.digit '7'), .enter ⟨0, 0, .epoch⟩ .equals]
    let store : FileStore := ⟨.empty, path, ∅⟩
    FileStore.openAt .empty path = .ok store ∧ (start store).SavesSucceed actions ∧
      ((start store).run actions).session.history.entries = [⟨"7", "7", 0⟩] ∧
      ∃ reopened, ((start store).run actions).store.reopen = .ok reopened ∧
        Resumes (start reopened).session ((start store).run actions).session := by
  intro path actions store
  have hopen : FileStore.openAt .empty path = .ok store := by rfl
  have hsaves : (start store).SavesSucceed actions := by decide +kernel
  have hentries : ((start store).run actions).session.history.entries = [⟨"7", "7", 0⟩] := by decide +kernel
  exact ⟨hopen, hsaves, hentries, restart_resumes.2 .empty path store actions hopen hsaves⟩

end DeskCalculator
