import DeskCalculator.Proofs.Programmer.Integers

/-! Which texts are read as which integers. A text that starts with an integer is read as it wherever this can be written
back, and there is one integer of 64 bits for which it cannot, the least. -/
namespace DeskCalculator

namespace Base

theorem read_eq_ok_iff {base : Base} {text : String} {v : Int64} : base.read text = .ok v ↔
    (∃ leading : base.Leading text, leading.value = v.toInt) ∧ v ≠ Int64.minValue := by
  constructor
  · intro h
    refine ⟨?_, ne_minValue_of_natAbs_le (natAbs_le_of_read h)⟩
    rcases isEmpty_or_nonempty (base.Leading text) with hempty | ⟨⟨leading⟩⟩
    · rw [read_of_isEmpty hempty] at h
      cases h
    · rw [leading.read_eq] at h
      split at h
      · cases h
      · next hfits =>
        obtain rfl := Except.ok.inj h
        unfold maxMagnitude at hfits
        exact ⟨leading, (Int64.toInt_ofInt_of_le (by omega) (by omega)).symm⟩
  · rintro ⟨⟨leading, hvalue⟩, hne⟩
    rw [leading.read_eq, hvalue, if_neg (not_lt.mpr (natAbs_le_of_ne_minValue hne)), Int64.ofInt_toInt]

theorem read_eq_error_iff {base : Base} {text : String} {fault : Fault} : base.read text = .error fault ↔
    (IsEmpty (base.Leading text) ∧ fault = Fault.noInteger) ∨
      (∃ leading : base.Leading text, maxMagnitude < leading.value.natAbs) ∧ fault = Fault.integerOverflow := by
  constructor
  · intro h
    rcases isEmpty_or_nonempty (base.Leading text) with hempty | ⟨⟨leading⟩⟩
    · rw [read_of_isEmpty hempty] at h
      exact Or.inl ⟨hempty, (Except.error.inj h).symm⟩
    · rw [leading.read_eq] at h
      split at h
      · next hlarge => exact Or.inr ⟨⟨leading, hlarge⟩, (Except.error.inj h).symm⟩
      · cases h
  · rintro (⟨hempty, rfl⟩ | ⟨⟨leading, hlarge⟩, rfl⟩)
    · exact read_of_isEmpty hempty
    · rw [leading.read_eq, if_pos hlarge]

end Base

open Base

/-- Integers of 64 bits are read back from what is written for them, and texts are read as the integers that they start
with, in every base, but for the one integer that is the least. It is written as any other; but a text that starts with
it is refused like one that starts with an integer of more than 64 bits. Every refusal is a failure to parse. -/
theorem integers_are_read_iff_not_least (base : Base) :
    (∀ n : Int64, base.read (base.write n) = .ok n ↔ n ≠ Int64.minValue) ∧
    ∀ text : String,
      (∀ v : Int64, base.read text = .ok v ↔
        (∃ leading : base.Leading text, leading.value = v.toInt) ∧ v ≠ Int64.minValue) ∧
      (∀ fault, base.read text = .error fault ↔
        (IsEmpty (base.Leading text) ∧ fault = Fault.noInteger) ∨
          (∃ leading : base.Leading text, 2 ^ 63 - 1 < leading.value.natAbs) ∧ fault = Fault.integerOverflow) ∧
      ∀ fault, base.read text = .error fault → fault.kind = .parseFailure := by
  refine ⟨fun n => ⟨fun h => ?_, base.read_write⟩, fun text => ⟨fun v => read_eq_ok_iff, fun fault => ?_, ?_⟩⟩
  · exact ne_minValue_of_natAbs_le (natAbs_le_of_read h)
  · exact read_eq_error_iff
  · intro fault h
    rcases read_eq_error_iff.mp h with ⟨-, rfl⟩ | ⟨-, rfl⟩ <;> rfl

/-- The least integer is written, and what is written starts with it, but is not read. -/
theorem least_integer_is_not_read :
    let text := "-9223372036854775808"
    Base.dec.write Int64.minValue = text ∧ (∃ leading : Base.dec.Leading text, leading.value = Int64.minValue.toInt) ∧
      Base.dec.read text = .error Fault.integerOverflow := by
  intro text
  have hwritten : Base.dec.write Int64.minValue = text := by decide +kernel
  have hleading := Base.dec.exists_leading_write Int64.minValue
  rw [hwritten] at hleading
  exact ⟨hwritten, hleading, by decide +kernel⟩

end DeskCalculator
