import DeskCalculator.Proofs.Calendar.Lines
import DeskCalculator.Proofs.Number.Layout
import DeskCalculator.Proofs.Programmer.Canonical

/-! The characters of each mode. An entry has none but those of the mode that is set, so that parentheses stand
in scientific mode only, and no entry spells a failure. -/
namespace DeskCalculator

def decimalDigits : List Char := (List.range 10).map Nat.digitChar

/-- The characters of decimal numerals. -/
def numeralCharacters : List Char := decimalDigits ++ ['-', '.', 'e', '+']

/-- The characters that an entry may have in a mode. -/
def Mode.characters : Mode → List Char
  | .standard => numeralCharacters
  | .scientific => '(' :: ')' :: numeralCharacters
  | .programmer => '-' :: (List.range 16).map Base.digit
  | .date => decimalDigits ++ '-' :: Calendar.marks

theorem mem_decimalDigits {c : Char} (hc : c.isDigit = true) : c ∈ decimalDigits :=
  Text.forall_digit (P := (· ∈ decimalDigits)) (by decide) hc

theorem Mode.zero_mem_characters (mode : Mode) : '0' ∈ mode.characters := by cases mode <;> decide

theorem Mode.mem_characters_of_isDecimal {mode : Mode} (hmode : mode.isDecimal = true) {c : Char}
    (hc : c ∈ numeralCharacters) : c ∈ mode.characters := by
  cases mode with
  | standard => exact hc
  | scientific => exact List.mem_cons_of_mem _ (List.mem_cons_of_mem _ hc)
  | programmer | date => exact Bool.noConfusion hmode

theorem Number.mem_render {x : Float} (hx : Binary64.code x < Binary64.infinityCode) {c : Char}
    (hc : c ∈ (render x).toList) : c ∈ numeralCharacters := by
  obtain ⟨sign, whole, fraction, exponent, h⟩ := isLaidOut_render hx
  rcases h.mem hc with hdigit | hmark
  · exact List.mem_append_left _ (mem_decimalDigits hdigit)
  · exact List.mem_append_right _ hmark

theorem Base.mem_characters {base : Base} {c : Char} (hdigit : base.isDigit c = true) (hcase : c.isLower = false) :
    c ∈ Mode.programmer.characters := by
  obtain ⟨k, hk, rfl⟩ := exists_digit hdigit hcase
  have hradix := base.radix_bounds
  exact List.mem_cons_of_mem _ (List.mem_map_of_mem (List.mem_range.mpr (by omega)))

theorem Base.IsCanonical.mem {base : Base} {text : String} (h : base.IsCanonical text) {c : Char}
    (hc : c ∈ text.toList) : c ∈ Mode.programmer.characters := by
  rcases h with rfl | ⟨sign, d, ds, htext, hsign, -, hds⟩
  · rw [List.mem_singleton.mp hc]
    decide
  · rcases List.mem_append.mp (htext ▸ hc) with hc | hc
    · rcases hsign with rfl | rfl
      · simp at hc
      · rw [List.mem_singleton.mp hc]
        decide
    · exact mem_characters (hds c hc).1 (hds c hc).2

theorem Calendar.IsResultLine.mem_characters {text : String} (h : IsResultLine text) {c : Char}
    (hc : c ∈ text.toList) : c ∈ Mode.date.characters := by
  rcases h.mem hc with hdigit | hmark
  · exact List.mem_append_left _ (mem_decimalDigits hdigit)
  · exact List.mem_append_right _ hmark

namespace Session

def EntryIsSpelled (mode : Mode) (entry : String) : Prop := ∀ c ∈ entry.toList, c ∈ mode.characters

theorem entryIsSpelled_zero (mode : Mode) : EntryIsSpelled mode "0" := by
  intro c hc
  rw [List.mem_singleton.mp hc]
  exact mode.zero_mem_characters

section
variable {s t : Session} {clock : Clock} {input : Input}

theorem mem_characters_of_isDigit {c : Char} (hdigit : s.isDigit c = true) (hcase : c.isLower = false) :
    c ∈ s.mode.characters := by
  unfold isDigit at hdigit
  split at hdigit
  · next hmode =>
    rw [hmode]
    exact Base.mem_characters hdigit hcase
  · next hmode =>
    rw [hmode]
    exact List.mem_append_left _ (mem_decimalDigits hdigit)
  · next hmode =>
    rw [hmode]
    exact Mode.mem_characters_of_isDecimal rfl (List.mem_append_left _ (mem_decimalDigits hdigit))
  · exact Bool.noConfusion hdigit

/-- Every change leaves an entry in the characters of the mode that is set after it. -/
theorem Changes.entryIsSpelled (hs : EntryIsSpelled s.mode s.entry) (h : Changes s clock input t) :
    EntryIsSpelled t.mode t.entry := by
  have hextended {c : Char} (hc : c ∈ s.mode.characters) : EntryIsSpelled s.mode (extended s.entry c) := by
    intro d hd
    rcases mem_extended hd with hd | rfl
    · exact hs d hd
    · exact hc
  have hnumber (hmode : s.mode.isDecimal = true) {v : Float} (hv : Binary64.code v < Binary64.infinityCode) :
      EntryIsSpelled s.mode (Number.render v) :=
    fun c hc => Mode.mem_characters_of_isDecimal hmode (Number.mem_render hv hc)
  have hinteger (hmode : s.mode = .programmer) {base : Base} {text : String} (htext : base.IsCanonical text) :
      EntryIsSpelled s.mode text := by
    rw [hmode]
    exact fun c => htext.mem
  have hline (hmode : s.mode = .date) {text : String} (htext : Calendar.IsResultLine text) :
      EntryIsSpelled s.mode text := by
    rw [hmode]
    exact fun c => htext.mem_characters
  -- Only a switch changes the mode, and it leaves a zero, which every mode has.
  cases h with
  | digit hdigit => exact hextended (mem_characters_of_isDigit hdigit (Char.isLower_toUpper_eq_false _))
  | opening hmode | closing hmode =>
    apply hextended
    rw [hmode]
    decide
  | point hmode =>
    intro c hc
    change c ∈ (s.entry.push '.').toList at hc
    rw [String.toList_push] at hc
    rcases List.mem_append.mp hc with hc | hc
    · exact hs c hc
    · rw [List.mem_singleton.mp hc]
      exact Mode.mem_characters_of_isDecimal hmode (by decide)
  | backspace =>
    intro c hc
    rcases mem_shortened hc with hc | rfl
    · exact hs c hc
    · exact s.mode.zero_mem_characters
  | operator | clear | setMode | waiting => exact entryIsSpelled_zero _
  | calculated hmode hvalue => exact hnumber hmode (code_lt_of_evaluate hvalue)
  | function hmode hvalue hfinite =>
    exact hnumber (by rw [hmode]; rfl) ((Binary64.isFinite_iff _).mp hfinite)
  | joined hmode | transformed hmode => exact hinteger hmode (s.base.isCanonical_write _)
  | setBase hmode => exact hinteger hmode (Base.isCanonical_convert _ _ _)
  | difference hmode => exact hline hmode (Or.inl ⟨_, _, rfl⟩)
  | age hmode => exact hline hmode (Or.inr ⟨_, _, rfl⟩)
  | toggleAngle | setStart | setEnd | setBirth => exact hs

theorem Reachable.entryIsSpelled (h : s.Reachable) : EntryIsSpelled s.mode s.entry :=
  h.entry_invariant (P := fun mode _ entry => EntryIsSpelled mode entry) (fun mode _ => entryIsSpelled_zero mode)
    Changes.entryIsSpelled

theorem Reachable.entry_ne_errorText (h : s.Reachable) : s.entry ≠ errorText := by
  have hnone (mode : Mode) : 'r' ∉ mode.characters := by cases mode <;> decide
  intro herror
  apply hnone s.mode
  apply h.entryIsSpelled
  rw [herror]
  decide

/-- A parenthesis on display is one that was typed in scientific mode. -/
theorem Reachable.mode_of_parenthesis (h : s.Reachable) {c : Char} (hc : c ∈ s.display.toList)
    (hparenthesis : c = '(' ∨ c = ')') : s.mode = .scientific := by
  have hmode : ∀ mode : Mode, ∀ c, c = '(' ∨ c = ')' → c ∈ mode.characters → mode = .scientific := by
    intro mode c hc hmem
    cases mode with
    | scientific => rfl
    | standard | programmer | date =>
      exfalso
      revert hmem
      rcases hc with rfl | rfl <;> decide
  unfold display at hc
  split at hc
  -- a failure is shown by letters only
  · exfalso
    revert hc
    rcases hparenthesis with rfl | rfl <;> decide
  · exact hmode _ c hparenthesis (h.entryIsSpelled c hc)

end

end Session

end DeskCalculator
