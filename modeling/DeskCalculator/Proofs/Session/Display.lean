import DeskCalculator.Proofs.Calendar.Lines
import DeskCalculator.Proofs.Session.Numerals

/-! The display of the standard calculator and of the dates. It shows numerals, and result lines, until one
of the two keys that cut into a text that was not typed is pressed on such a text. -/
namespace DeskCalculator
open Number Calendar

/-- A result line without its unit ends in a figure. -/
theorem Calendar.IsResultLine.exists_shortened {text : String} (h : IsResultLine text) :
    ∃ front digit, (shortened text).toList = front ++ [digit] ∧ ' ' ∈ front ∧ digit.isDigit = true := by
  obtain ⟨front, digit, unit, htext, hblank, hdigit, -⟩ := h.exists_last
  have hsplit : text.toList = front ++ [digit] ++ [unit] := by simp [htext]
  have hrest := toList_shortened hsplit (d := ' ') (by simp [hblank]) (by decide)
  exact ⟨front, digit, hrest, hblank, hdigit⟩

namespace Session

/-- What the display may show: in standard mode a failure or a numeral, and for dates a zero, a failure or a
result line. -/
def DisplayValid (s : Session) : Prop :=
  (s.mode = .standard → s.display = errorText ∨ IsNumeral s.display) ∧
  (s.mode = .date → s.display = "0" ∨ s.display = errorText ∨ IsResultLine s.display)

/-- A point put into an exponent; the only digit of an exponent or the unit of a result line taken away. The
entry is what is on display, or the zero behind a failure. -/
def Slips (s : Session) : Action → Prop
  | .enter _ .point => s.mode = .standard ∧ 'e' ∈ s.entry.toList ∧ s.entry.length < maxEntryLength
  | .enter _ .backspace =>
    (s.mode = .standard ∧ EndsInShortExponent s.entry) ∨ (s.mode = .date ∧ s.entry ≠ "0")
  | _ => False

/-- The entries that are kept to as long as nothing slips. -/
structure EntryInForm (mode : Mode) (entry : String) : Prop where
  standard : mode = .standard → IsLaidOut entry
  date : mode = .date → entry = "0" ∨ IsResultLine entry

structure InForm (s : Session) : Prop where
  entry : EntryInForm s.mode s.entry
  failed : s.isFailed = true → s.entry = "0"

theorem entryInForm_zero (mode : Mode) : EntryInForm mode "0" :=
  ⟨fun _ => isLaidOut_zero, fun _ => Or.inl rfl⟩

section
variable {s t : Session} {clock : Clock} {input : Input} {action : Action}

/-- Every change but a slip leaves the entry in the form of the mode. -/
theorem Changes.entryInForm (hs : EntryInForm s.mode s.entry) (hslip : ¬ Slips s (.enter clock input))
    (h : Changes s clock input t) : EntryInForm t.mode t.entry := by
  have hother {mode : Mode} (hmode : s.mode = mode) (hstandard : mode ≠ .standard) (hdate : mode ≠ .date)
      (text : String) : EntryInForm s.mode text :=
    ⟨fun h => absurd (hmode.symm.trans h) hstandard, fun h => absurd (hmode.symm.trans h) hdate⟩
  have hdecimal (hmode : s.mode.isDecimal = true) {text : String}
      (hstandard : s.mode = .standard → IsLaidOut text) : EntryInForm s.mode text :=
    ⟨hstandard, fun hdate => absurd hdate (Mode.ne_of_isDecimal hmode rfl)⟩
  have hline (hmode : s.mode = .date) {text : String} (htext : IsResultLine text) :
      EntryInForm s.mode text :=
    ⟨fun h => absurd (hmode.symm.trans h) (by decide), fun _ => Or.inr htext⟩
  cases h with
  | @digit c hdigit =>
    constructor
    · intro hmode
      have hmode : s.mode = .standard := hmode
      rw [isDigit, hmode] at hdigit
      exact (hs.standard hmode).extended hdigit
    · intro hmode
      have hmode : s.mode = .date := hmode
      rw [isDigit, hmode] at hdigit
      exact Bool.noConfusion hdigit
  | point hmode hpoint hroom =>
    refine hdecimal hmode fun hstandard => ?_
    exact (hs.standard hstandard).push_point (fun he => hslip ⟨hstandard, he, hroom⟩) hpoint
  | calculated hmode hvalue =>
    exact hdecimal hmode fun _ => isLaidOut_render (code_lt_of_evaluate hvalue)
  | backspace =>
    constructor
    · intro hmode
      exact (hs.standard hmode).shortened fun hshort => hslip (Or.inl ⟨hmode, hshort⟩)
    · intro hmode
      have hzero : s.entry = "0" := Classical.byContradiction fun hne => hslip (Or.inr ⟨hmode, hne⟩)
      change shortened s.entry = "0" ∨ _
      rw [hzero]
      exact Or.inl rfl
  | operator | clear | setMode | waiting => exact entryInForm_zero _
  | opening hmode | closing hmode | function hmode | joined hmode | transformed hmode | setBase hmode =>
    exact hother hmode (by decide) (by decide) _
  | difference hmode => exact hline hmode (Or.inl ⟨_, _, rfl⟩)
  | age hmode => exact hline hmode (Or.inr ⟨_, _, rfl⟩)
  | toggleAngle | setStart | setEnd | setBirth => exact hs

/-- What one action preserves, if it is no slip. -/
theorem Moves.inForm (hs : s.InForm) (hslip : ¬ Slips s action) (h : Moves s action t) : t.InForm := by
  refine ⟨?_, h.entry_of_isFailed hs.failed⟩
  cases h with
  | theme | panel | waited | refused | reset => exact hs.entry
  | failed => exact entryInForm_zero _
  | changed h => exact h.entryInForm (s := s.acknowledged) hs.entry hslip

theorem InForm.displayValid (hs : s.InForm) : s.DisplayValid := by
  unfold DisplayValid display
  by_cases hfailed : s.isFailed = true
  · rw [if_pos hfailed]
    exact ⟨fun _ => Or.inl rfl, fun _ => Or.inr (Or.inl rfl)⟩
  · rw [if_neg hfailed]
    constructor
    · intro hmode
      obtain ⟨sign, whole, fraction, exponent, h⟩ := hs.entry.standard hmode
      exact Or.inr h.isNumeral
    · intro hmode
      exact (hs.entry.date hmode).imp_right Or.inr

/-- A text with the letter of an exponent is no failure, and no numeral unless a digit ends it. -/
theorem not_displayValid_of_exponent {front : List Char} {c : Char} (hmode : s.mode = .standard)
    (htext : s.display.toList = front ++ [c]) (he : 'e' ∈ front) (hc : c.isDigit = false) :
    ¬ s.DisplayValid := by
  have hmem : 'e' ∈ s.display.toList := by simp [htext, he]
  rintro ⟨hstandard, -⟩
  rcases hstandard hmode with herror | hnumeral
  · rw [herror] at hmem
    exact absurd hmem (by decide)
  · exact not_isNumeral htext hmem hc hnumeral

/-- A text with a blank is neither a zero nor a failure, and no result line if a digit ends it. -/
theorem not_displayValid_of_figure {front : List Char} {c : Char} (hmode : s.mode = .date)
    (htext : s.display.toList = front ++ [c]) (hblank : ' ' ∈ front) (hc : c.isDigit = true) :
    ¬ s.DisplayValid := by
  have hmem : ' ' ∈ s.display.toList := by simp [htext, hblank]
  rintro ⟨-, hdate⟩
  rcases hdate hmode with hzero | herror | hline
  · rw [hzero] at hmem
    exact absurd hmem (by decide)
  · rw [herror] at hmem
    exact absurd hmem (by decide)
  · obtain ⟨front', digit, unit, hends, -, -, hunit⟩ := hline.exists_last
    have hsame : front ++ [c] = front' ++ [digit] ++ [unit] := by simp [← htext, hends]
    obtain rfl := List.singleton_inj.mp (List.append_inj' hsame rfl).2
    rw [hc] at hunit
    exact Bool.noConfusion hunit

/-- A slip leaves a display that is not valid, if all was in form before. -/
theorem InForm.not_displayValid (hs : s.InForm) (hslip : Slips s action) :
    ¬ (s.act action).session.DisplayValid := by
  cases action with
  | tick steady => exact hslip.elim
  | enter clock input =>
    change ¬ (s.enter clock input).session.DisplayValid
    cases input with
    | point =>
      obtain ⟨hmode, he, hroom⟩ := hslip
      have hpoint := (hs.entry.standard hmode).point_not_mem_lastNumeral he
      have happly : s.acknowledged.apply clock .point =
          .ok (.changed { s.acknowledged with entry := s.entry.push '.' }) := by
        simp [apply, enterPoint, acknowledged, hmode, Mode.isDecimal, hpoint, hroom]
      rw [enter_eq_calculate rfl, calculate_session_of_ok happly]
      exact not_displayValid_of_exponent hmode (String.toList_push ..) he (by decide)
    | backspace =>
      rw [enter_eq_calculate rfl, calculate_session_of_ok rfl]
      rcases hslip with ⟨hmode, hshort⟩ | ⟨hmode, hne⟩
      · obtain ⟨front, sign, hrest, he, hsign⟩ := hshort.exists_shortened
        exact not_displayValid_of_exponent hmode hrest he hsign
      · have hline := (hs.entry.date hmode).resolve_left hne
        obtain ⟨front, digit, hrest, hblank, hdigit⟩ := hline.exists_shortened
        exact not_displayValid_of_figure hmode hrest hblank hdigit
    | _ => exact hslip.elim

end

end Session

open Session

section
variable {σ : Type} [Store σ] (store : σ) {actions : List Action}

theorem inForm_run (h : ∀ before action, before ++ [action] <+: actions →
    ¬ Slips ((Desk.start store).run before).session action) :
    ((Desk.start store).run actions).session.InForm := by
  induction actions using List.reverseRecOn with
  | nil => exact ⟨entryInForm_zero _, fun _ => rfl⟩
  | append_singleton actions action ih =>
    have hs := ih fun before next hinitial => h before next (hinitial.trans (List.prefix_append ..))
    rw [Desk.run_concat, Desk.act_session]
    exact (moves_act _ action).inForm hs (h actions action (List.prefix_refl _))

theorem nothing_slips (h : ∀ before, before <+: actions → ((Desk.start store).run before).session.DisplayValid) :
    ∀ before action, before ++ [action] <+: actions →
      ¬ Slips ((Desk.start store).run before).session action := by
  induction actions using List.reverseRecOn with
  | nil => exact fun before action hinitial => absurd (List.prefix_nil.mp hinitial) (by simp)
  | append_singleton actions last ih =>
    have hbefore := ih fun before hinitial => h before (hinitial.trans (List.prefix_append ..))
    intro before action hinitial
    rcases List.prefix_concat_iff.mp hinitial with heq | hinitial
    · obtain ⟨rfl, hlast⟩ := List.append_inj' heq rfl
      obtain rfl := List.singleton_inj.mp hlast
      have hvalid := h (before ++ [action]) (List.prefix_refl _)
      rw [Desk.run_concat, Desk.act_session] at hvalid
      -- nothing slipped before, so that a slip would be seen
      exact fun hslip => (inForm_run store hbefore).not_displayValid hslip hvalid
    · exact hbefore before action hinitial

end

/-- The display is valid all along a run exactly if no action of the run slips. -/
theorem display_valid_iff_nothing_slips {σ : Type} [Store σ] (store : σ) (actions : List Action) :
    (∀ before, before <+: actions → ((Desk.start store).run before).session.DisplayValid) ↔
      ∀ before action, before ++ [action] <+: actions →
        ¬ Slips ((Desk.start store).run before).session action := by
  constructor
  · exact nothing_slips store
  · intro h before hinitial
    exact (inForm_run store fun front action hfront => h front action (hfront.trans hinitial)).displayValid

/-- Backspace twice and a point on 1e+21, and Backspace on a difference of dates. -/
theorem editing_cuts_exponent_and_line :
    let shown (inputs : List Input) := ((Desk.start ({} : MemoryStore)).run (inputs.map (.enter ⟨0, 0, .epoch⟩))).session
    let large := Input.digit '1' :: List.replicate 21 (.digit '0') ++ [.equals]
    let line := [Input.setMode .date, .setStart "2024-01-01", .setEnd "2024-12-31", .difference]
    let short := shown (large ++ [.backspace, .backspace])
    let pointed := shown (large ++ [.point])
    let cut := shown (line ++ [.backspace])
    (short.display = "1e+" ∧ ¬ short.DisplayValid) ∧ (pointed.display = "1e+21." ∧ ¬ pointed.DisplayValid) ∧
      (cut.display = "365d | 11m | 0" ∧ ¬ cut.DisplayValid) := by
  intro shown large line short pointed cut
  have hshort : short.mode = .standard ∧ short.display = "1e+" := by decide +kernel
  have hpointed : pointed.mode = .standard ∧ pointed.display = "1e+21." := by decide +kernel
  have hcut : cut.mode = .date ∧ cut.display = "365d | 11m | 0" := by decide +kernel
  clear_value short pointed cut
  refine ⟨⟨hshort.2, ?_⟩, ⟨hpointed.2, ?_⟩, ⟨hcut.2, ?_⟩⟩
  · have htext : short.display.toList = ['1', 'e'] ++ ['+'] := by rw [hshort.2]; rfl
    exact not_displayValid_of_exponent hshort.1 htext (by decide) (by decide)
  · have htext : pointed.display.toList = ['1', 'e', '+', '2', '1'] ++ ['.'] := by rw [hpointed.2]; rfl
    exact not_displayValid_of_exponent hpointed.1 htext (by decide) (by decide)
  · have htext : cut.display.toList = "365d | 11m | ".toList ++ ['0'] := by rw [hcut.2]; rfl
    exact not_displayValid_of_figure hcut.1 htext (by decide) (by decide)

end DeskCalculator
