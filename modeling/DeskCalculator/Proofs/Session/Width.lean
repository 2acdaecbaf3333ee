import DeskCalculator.Proofs.Calendar.Width
import DeskCalculator.Proofs.Number.Width
import DeskCalculator.Proofs.Programmer.Conversion
import DeskCalculator.Proofs.Session.Programmer
import DeskCalculator.Proofs.Session.Repeat

/-! The width of the display. Keys are refused when the entry is full; results of calculations, integers in another
base and lines of dates are not, and each of them fits for a reason of its own. -/
namespace DeskCalculator

/-- A text that is not empty and that there is room for on the display. -/
structure FitsDisplay (text : String) : Prop where
  ne_empty : text ≠ ""
  length_le : text.length ≤ Session.maxEntryLength

theorem fitsDisplay_zero : FitsDisplay "0" := ⟨by decide, by decide⟩

theorem FitsDisplay.shortened {text : String} (h : FitsDisplay text) : FitsDisplay (shortened text) := by
  simp only [DeskCalculator.shortened]
  split
  · exact fitsDisplay_zero
  · next hkept =>
    simp only [Bool.or_eq_true, decide_eq_true_eq, not_or] at hkept
    refine ⟨hkept.1, ?_⟩
    have hlength := h.length_le
    rw [← String.length_toList] at hlength
    rw [String.length_ofList, List.length_dropLast]
    omega

theorem fitsDisplay_push {text : String} (hroom : text.length < Session.maxEntryLength) (c : Char) :
    FitsDisplay (text.push c) := by
  constructor
  · intro hnil
    have hlength := congrArg String.length hnil
    simp at hlength
  · rw [String.length_push]
    exact hroom

theorem fitsDisplay_extended {text : String} (hroom : text.length < Session.maxEntryLength) (c : Char) :
    FitsDisplay (extended text c) := by
  unfold extended
  split
  · have hempty : "".length < Session.maxEntryLength := by decide
    exact fitsDisplay_push hempty c
  · exact fitsDisplay_push hroom c

theorem fitsDisplay_render {v : Float} (hv : Binary64.code v < Binary64.infinityCode) :
    FitsDisplay (Number.render v) :=
  ⟨Number.render_ne_empty hv, (Number.length_render_le hv).trans (by decide)⟩

theorem fitsDisplay_write (base : Base) {n : Int64} (hn : n.toInt.natAbs ≤ Base.maxMagnitude) :
    FitsDisplay (base.write n) :=
  ⟨base.write_ne_empty n, base.length_write_le hn⟩

theorem fitsDisplay_line {text : String} (h : Calendar.IsResultLine text) : FitsDisplay text :=
  ⟨h.ne_empty, h.length_le⟩

namespace Session

section
variable {s t : Session} {clock : Clock} {input : Input}

/-- Every change leaves an entry that fits. An integer that was read or calculated is never the least one, which has
64 digits in base two. -/
theorem Changes.fitsDisplay (hs : FitsDisplay s.entry) (h : Changes s clock input t) : FitsDisplay t.entry := by
  cases h with
  | digit _ hroom | opening _ hroom | closing _ hroom => exact fitsDisplay_extended hroom _
  | point _ _ hroom => exact fitsDisplay_push hroom _
  | backspace => exact hs.shortened
  | operator | clear | setMode | waiting => exact fitsDisplay_zero
  -- results, integers and lines are never refused, and are short enough as they are
  | calculated _ hvalue => exact fitsDisplay_render (code_lt_of_evaluate hvalue)
  | function _ _ hfinite => exact fitsDisplay_render ((Binary64.isFinite_iff _).mp hfinite)
  | joined _ hvalue => exact fitsDisplay_write _ (natAbs_le_of_joinedInteger hvalue)
  | transformed _ _ _ hvalue => exact fitsDisplay_write _ (Bitwise.natAbs_le_of_unary hvalue)
  | setBase =>
    change FitsDisplay (convert _ _ _)
    rw [Base.convert_eq_write]
    exact fitsDisplay_write _ (Base.natAbs_valueOf_le _ _)
  | difference => exact fitsDisplay_line (Or.inl ⟨_, _, rfl⟩)
  | age => exact fitsDisplay_line (Or.inr ⟨_, _, rfl⟩)
  | toggleAngle | setStart | setEnd | setBirth => exact hs

theorem Reachable.fitsDisplay (h : s.Reachable) : FitsDisplay s.display := by
  have hentry : FitsDisplay s.entry := by
    apply h.entry_invariant (P := fun _ _ entry => FitsDisplay entry)
    · intro mode base
      exact fitsDisplay_zero
    · intro s t clock input hs hchange
      exact hchange.fitsDisplay hs
  unfold display
  split
  · exact ⟨by decide, by decide⟩
  · exact hentry

end

end Session

/-- The display is never empty and never shows more than 64 characters, after every run from every store. -/
theorem display_fits {σ : Type} [Store σ] (store : σ) (actions : List Action) :
    let s := ((Desk.start store).run actions).session
    s.display ≠ "" ∧ s.display.length ≤ 64 := by
  intro s
  have hfits : FitsDisplay s.display := (Desk.reachable_run store actions).fitsDisplay
  exact ⟨hfits.ne_empty, hfits.length_le⟩

/-- The display is full when a minus sign stands before 63 digits. -/
example :
    let inputs := [Input.setMode .programmer, .digit '4', .bitwise .not] ++ List.replicate 18 (.digit '0') ++
      [.setBase .bin]
    ((Desk.start ({} : MemoryStore)).run (inputs.map (.enter ⟨0, 0, .epoch⟩))).session.display.length = 64 := by
  decide +kernel

end DeskCalculator
