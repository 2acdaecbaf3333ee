import DeskCalculator.Proofs.Session.Characters

/-! Functions of the number on display. What is written of a finite number is read back to its last character, so that
a function works on the number that is shown; only the sign of a zero, which is not written, is lost. -/
namespace DeskCalculator

/-- Digits are scanned with a minus sign before them as they are without it. -/
theorem Numeral.scan_signed (negative : Bool) {c : Char} {cs rest : List Char} {d : Decimal} (hc : c.isDigit = true)
    (h : scan (c :: cs) = some (⟨false, d⟩, rest)) :
    scan (Token.signed negative (c :: cs)) = some (⟨negative, d⟩, rest) := by
  cases negative with
  | false => exact h
  | true =>
    have hunsigned : Text.takeSign (c :: cs) = (false, c :: cs) :=
      Text.takeSign_of_ne (Number.ne_of_isDigit hc (by decide)) (Number.ne_of_isDigit hc (by decide)) cs
    have hsigned : Text.takeSign (Token.signed true (c :: cs)) = (true, c :: cs) := rfl
    simp only [scan, hunsigned, hsigned] at h ⊢
    split at h
    · cases h
    · next hfound =>
      rw [if_neg hfound]
      simp only [Option.some.injEq, Prod.mk.injEq, Numeral.mk.injEq] at h ⊢
      exact ⟨⟨trivial, h.1.2⟩, h.2⟩

namespace Number
open Binary64

/-- What is written of a number: the sign of a zero is not. -/
def unsignedZero (x : Float) : Float := if x == 0.0 then 0.0 else x

section
variable {x : Float} (hx : code x < infinityCode)
include hx

theorem beq_zero_iff : (x == 0.0) = true ↔ code x = 0 := by
  have hzero : code 0.0 = 0 := by decide +kernel
  rw [beq_iff_alike hx (by rw [hzero]; decide), Alike, hzero]
  exact ⟨And.left, fun h => ⟨h, fun hne => absurd h hne⟩⟩

theorem scan_render :
    ∃ n, Numeral.scan (render x).toList = some (n, []) ∧ n.value = unsignedZero x := by
  obtain ⟨d, hscan, hcode⟩ := scan_renderCode hx
  obtain ⟨c, cs, hcons, hc⟩ := renderCode_head hx
  rw [hcons] at hscan
  refine ⟨⟨isNegative x && decide (0 < code x), d⟩, ?_, ?_⟩
  · rw [render_eq hx, String.toList_ofList, hcons]
    exact Numeral.scan_signed _ hc hscan
  · rw [Numeral.value, hcode, unsignedZero]
    by_cases hzero : code x = 0
    · rw [if_pos ((beq_zero_iff hx).mpr hzero), hzero]
      simp only [Nat.lt_irrefl, decide_false, Bool.and_false]
      decide +kernel
    · rw [if_neg (mt (beq_zero_iff hx).mp hzero), decide_eq_true (Nat.pos_of_ne_zero hzero), Bool.and_true,
        ofCode_parts]

theorem dropBlanks_render : Text.dropBlanks (render x).toList = (render x).toList := by
  obtain ⟨c, cs, hcons, hc⟩ := renderCode_head hx
  rw [render_eq hx, String.toList_ofList, hcons, Token.signed]
  split
  · exact Text.dropBlanks_of_not_isBlank (by decide) _
  · exact Text.dropBlanks_of_not_isBlank (Text.isBlank_of_isDigit hc) _

theorem leading_render : Numeral.leading (render x) = unsignedZero x := by
  obtain ⟨n, hscan, hvalue⟩ := scan_render hx
  simp only [Numeral.leading, dropBlanks_render hx, hscan, hvalue]

theorem render_ne_errorText : render x ≠ Session.errorText := by
  have hnone : 'r' ∉ numeralCharacters := by decide
  intro herror
  apply hnone
  apply mem_render hx
  rw [herror]
  decide

end

end Number

namespace Session

theorem enter_function {s : Session} (hmode : s.mode = .scientific) (clock : Clock) (f : ScientificFunction) :
    s.enter clock (.function f)
      = match f.apply (Numeral.leading s.entry) s.angle with
        | .ok y =>
          if y.isFinite then ⟨{ s.acknowledged with entry := Number.render y }, .changed, none⟩
          else s.failed clock Fault.notANumber
        | .error fault => s.failed clock fault := by
  have happly : s.acknowledged.apply clock (.function f) = (do
      let y ← f.apply (Numeral.leading s.entry) s.angle
      if y.isFinite then return .changed { s.acknowledged with entry := Number.render y }
      else .error Fault.notANumber) := if_pos hmode
  rw [enter_eq_calculate rfl]
  simp only [calculate, happly]
  cases f.apply (Numeral.leading s.entry) s.angle with
  | error fault => rfl
  | ok y =>
    rw [Outcome.ok_bind]
    by_cases hfinite : y.isFinite = true
    · simp only [if_pos hfinite]
      rfl
    · simp only [if_neg hfinite]
      rfl

end Session

open Session

/-- A finite number that is written is read back as it is, but for minus zero, which is written as zero. The whole
of what is written is scanned, with an exponent or without, so that a function of the scientific calculator is a
function of the very number that is on display. -/
theorem shown_number_is_read_back {x : Float} (hx : x.isFinite = true) :
    (Text.dropBlanks (Number.render x).toList = (Number.render x).toList ∧
      ∃ numeral, Numeral.scan (Number.render x).toList = some (numeral, []) ∧ numeral.value = Number.unsignedZero x) ∧
    Numeral.leading (Number.render x) = Number.unsignedZero x ∧
    ∀ (s : Session) (clock : Clock) (f : ScientificFunction), s.mode = .scientific → s.display = Number.render x →
      s.enter clock (.function f)
        = match f.apply (Number.unsignedZero x) s.angle with
          | .ok y =>
            if y.isFinite then ⟨{ s with entry := Number.render y }, .changed, none⟩
            else s.failed clock Fault.notANumber
          | .error fault => s.failed clock fault := by
  have hcode := (Binary64.isFinite_iff x).mp hx
  refine ⟨⟨Number.dropBlanks_render hcode, Number.scan_render hcode⟩, Number.leading_render hcode, ?_⟩
  intro s clock f hmode hdisplay
  obtain ⟨hdue, hentry⟩ := shown_of_display_ne (hdisplay ▸ Number.render_ne_errorText hcode)
  rw [enter_function hmode, ← hentry, hdisplay, Number.leading_render hcode, acknowledged_of_none hdue]

/-- A number below zero that is written with digits after the point and with an exponent. -/
theorem shown_exponent_is_read_back :
    let x := Float.ofBits 0xC63F8DEF8808B024
    x.isFinite = true ∧ Number.render x = "-2.5e+30" ∧ Numeral.leading "-2.5e+30" = x := by
  intro x
  have hfinite : x.isFinite = true := by decide +kernel
  have htext : Number.render x = "-2.5e+30" := by decide +kernel
  have hback := (shown_number_is_read_back hfinite).2.1
  have hne : (x == 0.0) = false := by decide +kernel
  rw [htext, Number.unsignedZero, hne] at hback
  exact ⟨hfinite, htext, hback⟩

end DeskCalculator
