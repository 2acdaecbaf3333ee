import DeskCalculator.Proofs.Programmer.Canonical
import Mathlib

/-! The display of the programmer's calculator. Whatever is done, in whatever order, it shows a failure or a
canonical numeral of the base that is set; a base switch changes text and base together. -/
namespace DeskCalculator

namespace Session

def EntryIsCanonical (mode : Mode) (base : Base) (entry : String) : Prop :=
  mode = .programmer → base.IsCanonical entry

/-- Every change of the entry in programmer mode leaves a canonical numeral of the base. -/
theorem Changes.entryIsCanonical {s t : Session} {clock : Clock} {input : Input}
    (hs : EntryIsCanonical s.mode s.base s.entry) (h : Changes s clock input t) :
    EntryIsCanonical t.mode t.base t.entry := by
  have hother {mode : Mode} (hmode : s.mode = mode) (hne : mode ≠ .programmer) (text : String) :
      EntryIsCanonical s.mode s.base text := fun hprogrammer => absurd (hmode.symm.trans hprogrammer) hne
  have hdecimal (hmode : s.mode.isDecimal = true) (text : String) : EntryIsCanonical s.mode s.base text :=
    fun hprogrammer => absurd hprogrammer (Mode.ne_of_isDecimal hmode rfl)
  cases h with
  | @digit c hdigit =>
    intro hmode
    have hmode : s.mode = .programmer := hmode
    have hvalid : s.base.isDigit c.toUpper = true := by
      rw [isDigit, hmode] at hdigit
      exact hdigit
    exact (hs hmode).extended hvalid (Char.isLower_toUpper_eq_false c)
  | backspace => exact fun hmode => (hs hmode).shortened
  | joined | transformed => exact fun _ => s.base.isCanonical_write _
  | setBase => exact fun _ => Base.isCanonical_convert _ _ _
  | clear | setMode | waiting => exact fun _ => Base.isCanonical_zero _
  | opening hmode | closing hmode | function hmode => exact hother hmode (by decide) _
  | difference hmode | age hmode => exact hother hmode (by decide) _
  | point hmode | operator hmode | calculated hmode => exact hdecimal hmode _
  | toggleAngle | setStart | setEnd | setBirth => exact hs

theorem Reachable.entryIsCanonical {s : Session} (h : s.Reachable) :
    EntryIsCanonical s.mode s.base s.entry :=
  h.entry_invariant (fun _ base _ => base.isCanonical_zero) Changes.entryIsCanonical

end Session

open Session

/-- In programmer mode the display shows a failure or a canonical numeral of the base, after every run from
every store. A number on it that fits 64 bits is read, and is written back as it stands. -/
theorem programmer_display_isCanonical {σ : Type} [Store σ] (store : σ) (actions : List Action) :
    let s := ((Desk.start store).run actions).session
    s.mode = .programmer →
      (s.display = errorText ∨ s.base.IsCanonical s.display) ∧
      (s.display ≠ errorText → s.base.magnitude (Text.takeSign s.display.toList).2 ≤ 2 ^ 63 - 1 →
        ∃ n, s.base.read s.display = .ok n ∧ s.base.write n = s.display) := by
  intro s hmode
  have hcanonical : s.display = errorText ∨ s.base.IsCanonical s.display := by
    unfold display
    by_cases hfailed : s.isFailed = true
    · rw [if_pos hfailed]
      exact Or.inl rfl
    · rw [if_neg hfailed]
      exact Or.inr ((Desk.reachable_run store actions).entryIsCanonical hmode)
  exact ⟨hcanonical, fun hshown hfits => (hcanonical.resolve_left hshown).read hfits⟩

/-- The complement of 1F, after a switch to base eight. -/
theorem programmer_display_after_switch :
    let clock : Clock := ⟨0, 0, .epoch⟩
    let inputs := [Input.setMode .programmer, .setBase .hex, .digit '1', .digit 'f', .bitwise .not, .setBase .oct]
    let s := ((Desk.start ({} : MemoryStore)).run (inputs.map (.enter clock))).session
    s.mode = .programmer ∧ s.display = "-40" ∧ s.base.IsCanonical s.display ∧
      ∃ n, s.base.read s.display = .ok n ∧ s.base.write n = s.display := by
  intro clock inputs s
  have hdisplay : s.display = "-40" := by decide +kernel
  have hmode : s.mode = .programmer := by decide +kernel
  have hshown : s.display ≠ errorText := by
    rw [hdisplay]
    decide
  obtain ⟨hcanonical, hread⟩ := programmer_display_isCanonical ({} : MemoryStore) (inputs.map (.enter clock)) hmode
  refine ⟨hmode, hdisplay, hcanonical.resolve_left hshown, hread hshown ?_⟩
  decide +kernel

end DeskCalculator
