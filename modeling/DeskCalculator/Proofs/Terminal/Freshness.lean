import DeskCalculator.Proofs.Session.Epochs
import DeskCalculator.Terminal.Console

/-! The screen of a console shows its session. Whatever a console does that changes the session, it draws the screen
anew before it waits again; where it draws nothing, the session is as it was or the console has ended. -/
namespace DeskCalculator

namespace Key

/-- What a key enters into the session. -/
def input? : Key → Option Input
  | .input pressed => some pressed
  | .help | .quit => none

/-- What keys enter, each at its time, up to the one that quits. -/
def entered (keys : List (Clock × Key)) : List Action :=
  (keys.takeWhile (·.2 ≠ .quit)).filterMap fun (clock, key) => key.input?.map (.enter clock)

section
variable (clock : Clock) (rest : List (Clock × Key))

@[simp] theorem entered_nil : entered [] = [] := rfl

@[simp] theorem entered_help : entered ((clock, .help) :: rest) = entered rest := rfl

@[simp] theorem entered_quit : entered ((clock, .quit) :: rest) = [] := rfl

@[simp] theorem entered_input (pressed : Input) :
    entered ((clock, .input pressed) :: rest) = .enter clock pressed :: entered rest := rfl

end

end Key

namespace Writing

def drawn? : Writing → Option String
  | .screen drawn => some drawn
  | .notice _ | .help => none

/-- The screen that was drawn last. -/
def lastDrawn? (written : List Writing) : Option String := (written.filterMap drawn?).getLast?

theorem lastDrawn?_screen (written : List Writing) (drawn : String) :
    lastDrawn? (written ++ [.screen drawn]) = some drawn := by
  rw [lastDrawn?, List.filterMap_append]
  exact List.getLast?_concat

theorem lastDrawn?_notice (written : List Writing) (fault : Fault) :
    lastDrawn? (written ++ [.notice fault]) = lastDrawn? written := by
  rw [lastDrawn?, List.filterMap_append, lastDrawn?]
  exact congrArg List.getLast? (List.append_nil _)

end Writing

namespace Keyed

/-- A time that resets nothing leaves what is on the screen, also where it makes a deadline void. -/
theorem screen_tick {σ : Type} {k : Keyed σ} {steady : ℕ} (h : (k.tick steady).2 ≠ .reset) :
    (k.tick steady).1.screen = k.screen := by
  unfold tick at h ⊢
  split
  · next deadline hdeadline =>
    simp only [hdeadline] at h
    split
    · next hdue =>
      rw [if_pos hdue] at h
      split
      · next hepoch => exact absurd (by rw [if_pos hepoch]) h
      · rfl
    · rfl
  · rfl

end Keyed

namespace Console

theorem map_timed (clocks : ℕ → Clock) (keys : List Key) : (timed clocks keys).map Prod.snd = keys :=
  List.ext_getElem (by simp [timed]) (by simp [timed])

theorem timed_append_cons (clocks : ℕ → Clock) (before : List Key) (key : Key) (after : List Key) :
    ∃ rest, timed clocks (before ++ key :: after) =
      timed clocks before ++ (clocks before.length, key) :: rest := by
  refine ⟨after.mapIdx fun i key => (clocks (i + 1 + before.length), key), ?_⟩
  simp [timed, List.mapIdx_append, List.mapIdx_cons]

section
variable {σ : Type} [Store σ]

variable {console : Console σ} {clocks : ℕ → Clock} {keys : List Key} {written : List Writing}

theorem press_console (console : Console σ) (keys : List (Clock × Key)) : (console.press keys).1 =
    ⟨console.desk.run (Key.entered keys), console.running && !(keys.map Prod.snd).contains .quit⟩ := by
  induction keys generalizing console with
  | nil => simp [press, Desk.run]
  | cons first rest ih =>
    obtain ⟨clock, key⟩ := first
    cases key with
    | help =>
      have hgoes : (Key.quit == Key.help) = false := rfl
      simp [press, ih, hgoes]
    | quit => simp [press, Desk.run]
    | input pressed =>
      have hgoes : (Key.quit == Key.input pressed) = false := rfl
      simp [press, ih, Desk.run, Desk.act, hgoes]

/-- Keys after the one that quits are not pressed. -/
theorem press_quit (console : Console σ) (clock : Clock) (before after : List (Clock × Key)) :
    console.press (before ++ (clock, .quit) :: after) = console.press (before ++ [(clock, .quit)]) := by
  induction before generalizing console with
  | nil => rfl
  | cons first rest ih =>
    obtain ⟨time, key⟩ := first
    cases key with
    | help => simp only [List.cons_append, press, ih]
    | quit => rfl
    | input input => simp only [List.cons_append, press, ih]

/-- What is written last for keys that do not quit is the screen. -/
theorem press_ends (console : Console σ) {keys : List (Clock × Key)} (h : .quit ∉ keys.map Prod.snd) :
    ∃ said, (console.press keys).2 = said ++ [(console.press keys).1.screen] := by
  induction keys generalizing console with
  | nil => exact ⟨[], rfl⟩
  | cons first rest ih =>
    obtain ⟨clock, key⟩ := first
    have hrest : .quit ∉ rest.map Prod.snd := fun hmem => h (List.mem_cons_of_mem _ hmem)
    cases key with
    | quit => exact absurd (List.mem_cons_self ..) h
    | help =>
      obtain ⟨said, hsaid⟩ := ih console hrest
      exact ⟨.help :: said, congrArg (Writing.help :: ·) hsaid⟩
    | input pressed =>
      set next : Console σ := { console with desk := (console.desk.enter clock pressed).1 }
      set announced := announcements (console.desk.enter clock pressed).2
      obtain ⟨said, hsaid⟩ := ih next hrest
      have hpress : console.press ((clock, .input pressed) :: rest) =
          ((next.press rest).1, announced ++ (next.press rest).2) := rfl
      exact ⟨announced ++ said, by rw [hpress, hsaid, List.append_assoc]⟩

/-- What was written shows the session, as long as the console has not ended. -/
def IsShown (console : Console σ) (written : List Writing) : Prop :=
  console.running = true → Writing.lastDrawn? written = some (Screen.draw console.desk.session)

theorem isShown_press (console : Console σ) (keys : List (Clock × Key)) (written : List Writing) :
    (console.press keys).1.IsShown (written ++ (console.press keys).2) := by
  -- A console that is still running was not quit, and its keys end with a screen.
  intro hrunning
  have hquit : .quit ∉ keys.map Prod.snd := by
    rw [press_console, Bool.and_eq_true, Bool.not_eq_true', List.contains_eq_mem] at hrunning
    exact of_decide_eq_false hrunning.2
  obtain ⟨said, hsaid⟩ := console.press_ends hquit
  rw [hsaid, ← List.append_assoc]
  exact Writing.lastDrawn?_screen _ _

theorem line_of_error {text : String} {fault : Fault} (h : Key.ofLine text = .error fault) :
    console.line clocks text = (console, [.notice fault]) := by
  rw [line, h]

theorem line_of_ok {text : String} (h : Key.ofLine text = .ok keys) :
    console.line clocks text = console.press (timed clocks keys) := by
  rw [line, h]

theorem wait_of_ne_reset {steady : ℕ} (h : (console.desk.tick steady).2 ≠ .reset) :
    console.wait steady = (console, []) := by
  have htick : console.desk.tick steady = (console.desk, .ignored) := by
    rw [Desk.tick, Session.tick_of_ne_reset h]
    rfl
  rw [wait, htick]
  rfl

theorem wait_of_reset {steady : ℕ} (h : (console.desk.tick steady).2 = .reset) :
    (console.wait steady).2 = [(console.wait steady).1.screen] := if_pos h

theorem IsShown.handle (h : console.IsShown written) (signal : Signal) :
    (console.handle signal).1.IsShown (written ++ (console.handle signal).2) := by
  cases signal with
  | line clocks text =>
    rw [Console.handle]
    cases hline : Key.ofLine text with
    | error fault =>
      intro hrunning
      rw [line_of_error hline] at hrunning ⊢
      exact (Writing.lastDrawn?_notice written fault).trans (h hrunning)
    | ok keys =>
      rw [line_of_ok hline]
      exact isShown_press console _ written
  | interrupt clock => exact isShown_press console [(clock, .input .clear)] written
  | timeout steady =>
    rw [Console.handle]
    by_cases hevent : (console.desk.tick steady).2 = .reset
    · -- whatever was written before, the screen is drawn anew
      intro _
      rw [wait_of_reset hevent]
      exact Writing.lastDrawn?_screen _ _
    · rw [wait_of_ne_reset hevent, List.append_nil]
      exact h
  | endOfInput => exact fun hrunning => Bool.noConfusion hrunning

theorem IsShown.serve (h : console.IsShown written) (signals : List Signal) :
    (console.serve signals).1.IsShown (written ++ (console.serve signals).2) := by
  induction signals generalizing console written with
  | nil => rwa [Console.serve, List.append_nil]
  | cons signal rest ih =>
    rw [Console.serve]
    split
    · have hnext := ih (h.handle signal)
      rwa [List.append_assoc] at hnext
    · rwa [List.append_nil]

end
end Console

open Console

/-- Whenever a console waits, after any signals, the last screen that it drew is that of its session. A line that
cannot be read enters nothing and is answered with the reason only. Of a line that can be read, the inputs up to where
it quits are entered, each at its own time, and what comes after that makes no difference. A time that resets nothing
changes nothing, and nothing on the screen either where a deadline of an older epoch is given up. -/
theorem screen_is_never_stale {σ : Type} [Store σ] (store : σ) (clock : Clock) (options : Options)
    (signals : List Signal) :
    let opened := Console.start store clock options
    let served := opened.1.serve signals
    let console := served.1
    (console.running = true →
      Writing.lastDrawn? (opened.2 ++ served.2) = some (Screen.draw console.desk.session)) ∧
    (∀ clocks text fault, Key.ofLine text = .error fault → console.line clocks text = (console, [.notice fault])) ∧
    (∀ clocks text keys, Key.ofLine text = .ok keys → (console.line clocks text).1 =
      ⟨console.desk.run (Key.entered (timed clocks keys)), console.running && !keys.contains .quit⟩) ∧
    (∀ clocks text before after, Key.ofLine text = .ok (before ++ .quit :: after) →
      console.line clocks text = console.press (timed clocks (before ++ [.quit]))) ∧
    (∀ steady, (console.desk.tick steady).2 ≠ .reset → console.wait steady = (console, [])) ∧
    ∀ (keyed : Keyed σ) (steady : ℕ), (keyed.tick steady).2 ≠ .reset →
      (keyed.tick steady).1.screen = keyed.screen := by
  intro opened served console
  have hopened : opened.1.IsShown opened.2 := isShown_press _ _ []
  refine ⟨hopened.serve signals, ?_, ?_, ?_, ?_, ?_⟩
  · exact fun clocks text fault h => line_of_error h
  · intro clocks text keys h
    rw [line_of_ok h, press_console, map_timed]
  · -- What comes after the key that quits moves no time of the keys before it.
    intro clocks text before after h
    obtain ⟨rest, hrest⟩ := timed_append_cons clocks before .quit after
    obtain ⟨later, hlater⟩ := timed_append_cons clocks before .quit []
    rw [line_of_ok h, hrest, hlater, press_quit, press_quit _ _ _ later]
  · exact fun steady h => wait_of_ne_reset h
  · exact fun keyed steady h => Keyed.screen_tick h

/-- A sum is typed into a new console, one key each millisecond, and its screen is drawn. -/
theorem sum_is_drawn :
    let clocks (i : ℕ) : Clock := ⟨i, i, .epoch⟩
    let opened := Console.start ({} : MemoryStore) (clocks 0) {}
    let served := opened.1.serve [.line clocks "1+2="]
    served.1.running = true ∧ served.1.desk.session.display = "3" ∧
      served.1.desk.session.history.entries.map (·.timestamp) = [3] ∧
      Writing.lastDrawn? (opened.2 ++ served.2) = some (Screen.draw served.1.desk.session) := by
  intro clocks opened served
  have hrunning : served.1.running = true := by decide +kernel
  have hdrawn := (screen_is_never_stale ({} : MemoryStore) (clocks 0) {} [.line clocks "1+2="]).1 hrunning
  exact ⟨hrunning, by decide +kernel, by decide +kernel, hdrawn⟩

end DeskCalculator
