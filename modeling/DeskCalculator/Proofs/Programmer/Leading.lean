import DeskCalculator.Programmer.Base
import DeskCalculator.Proofs.Text.Digits
import Mathlib.Data.List.Induction
import Mathlib.Data.List.TakeWhile
import Mathlib.Data.Nat.Digits.Defs

/-! What a text starts with, told without a reader: blanks, a sign and a run of digits, with the value of the digits by
their places. A text that starts with an integer is read by these parts alone, and any other text is refused. -/
namespace DeskCalculator.Base
open Text

/-- The value of digits by their places. -/
def placeValue (base : Base) (run : List Char) : ℕ :=
  Nat.ofDigits base.radix (run.reverse.map fun c => (digitValue? c).getD 0)

theorem magnitude_eq_placeValue (base : Base) (run : List Char) : base.magnitude run = base.placeValue run := by
  -- a digit at the end moves all the others up by one place
  induction run using List.reverseRecOn with
  | nil => rfl
  | append_singleton run c ih =>
    calc base.magnitude (run ++ [c])
        = base.magnitude run * base.radix + (digitValue? c).getD 0 := by simp [magnitude]
      _ = (digitValue? c).getD 0 + base.radix * base.placeValue run := by rw [ih, Nat.add_comm, Nat.mul_comm]
      _ = base.placeValue (run ++ [c]) := by
        rw [placeValue, placeValue, List.reverse_append, List.reverse_singleton, List.singleton_append, List.map_cons,
          Nat.ofDigits_cons]

/-- The parts of a text that starts with an integer: blanks, a sign or none, and a run of digits that is over where the
rest of the text begins. -/
structure Leading (base : Base) (text : String) where
  blanks : List Char
  sign : List Char
  run : List Char
  rest : List Char
  text_eq : text.toList = blanks ++ (sign ++ (run ++ rest))
  isBlank : ∀ c ∈ blanks, isBlank c = true
  isSign : sign = [] ∨ sign = ['+'] ∨ sign = ['-']
  run_ne_nil : run ≠ []
  isDigit : ∀ c ∈ run, base.isDigit c = true
  ends : ∀ c ∈ rest.head?, base.isDigit c = false

/-- Characters that stand for digits have their numbers between those of the signs and those of the blanks beyond
ASCII. -/
theorem toNat_of_digitValue? {c : Char} {k : ℕ} (h : digitValue? c = some k) : 48 ≤ c.toNat ∧ c.toNat ≤ 122 := by
  unfold digitValue? at h
  split_ifs at h with hdigit hlower hupper
  · exact (Char.isDigit_iff_toNat.mp hdigit).imp_right fun hle => hle.trans (by decide)
  · obtain ⟨hle, hle'⟩ := Bool.and_eq_true_iff.mp hlower
    have hlower : 97 ≤ c.toNat := of_decide_eq_true hle
    exact ⟨(by decide : 48 ≤ 97).trans hlower, of_decide_eq_true hle'⟩
  · have hupper : 65 ≤ c.toNat ∧ c.toNat ≤ 90 := of_decide_eq_true hupper
    exact ⟨(by decide : 48 ≤ 65).trans hupper.1, hupper.2.trans (by decide)⟩

theorem front_of_isDigit {base : Base} {c : Char} (hc : base.isDigit c = true) :
    isBlank c = false ∧ c ≠ '+' ∧ c ≠ '-' := by
  obtain ⟨k, hk, -⟩ := (Option.any_eq_true _ _).mp hc
  have hrange := toNat_of_digitValue? hk
  refine ⟨Bool.eq_false_iff.mpr fun hblank => ?_, ?_, ?_⟩
  · simp only [isBlank, Bool.or_eq_true, Bool.and_eq_true, decide_eq_true_eq, beq_iff_eq] at hblank
    omega
  · rintro rfl
    exact absurd hrange.1 (by decide)
  · rintro rfl
    exact absurd hrange.1 (by decide)

namespace Leading

variable {base : Base} {text : String}

def value (leading : base.Leading text) : ℤ :=
  if leading.sign = ['-'] then -(base.placeValue leading.run : ℤ) else base.placeValue leading.run

/-- Blanks, sign and digits are taken off one after another. -/
theorem scan (leading : base.Leading text) :
    takeSign (dropBlanks text.toList) = (leading.sign == ['-'], leading.run ++ leading.rest) ∧
      (leading.run ++ leading.rest).takeWhile base.isDigit = leading.run := by
  constructor
  · obtain ⟨c, cs, hcons⟩ := List.exists_cons_of_ne_nil leading.run_ne_nil
    obtain ⟨hblank, hplus, hminus⟩ := front_of_isDigit (leading.isDigit c (by simp [hcons]))
    have hfront : dropBlanks text.toList = dropBlanks (leading.sign ++ (leading.run ++ leading.rest)) := by
      rw [leading.text_eq]
      exact List.dropWhile_append_of_pos leading.isBlank
    rw [hfront]
    rcases leading.isSign with hsign | hsign | hsign
    · rw [hsign, hcons, List.nil_append, List.cons_append, dropBlanks_of_not_isBlank hblank,
        takeSign_of_ne hplus hminus]
      rfl
    · rw [hsign, List.singleton_append, dropBlanks_of_not_isBlank (by decide)]
      rfl
    · rw [hsign, List.singleton_append, dropBlanks_of_not_isBlank (by decide)]
      rfl
  · exact (takeRun leading.isDigit leading.ends).1

theorem natAbs_value (leading : base.Leading text) : leading.value.natAbs = base.placeValue leading.run := by
  unfold value
  split <;> omega

theorem read_eq (leading : base.Leading text) :
    base.read text = if maxMagnitude < leading.value.natAbs then .error Fault.integerOverflow
      else .ok (Int64.ofInt leading.value) := by
  obtain ⟨hscan, hrun⟩ := leading.scan
  rw [natAbs_value]
  simp only [read, hscan, hrun, if_neg leading.run_ne_nil, magnitude_eq_placeValue, value, beq_iff_eq]

/-- A sign, or none, and digits up to the end of the text. -/
def ofSigned {sign run : List Char} (text_eq : text.toList = sign ++ run) (hsign : sign = [] ∨ sign = ['-'])
    (run_ne_nil : run ≠ []) (isDigit : ∀ c ∈ run, base.isDigit c = true) : base.Leading text where
  blanks := []
  sign
  run
  rest := []
  text_eq := by rw [text_eq, List.nil_append, List.append_nil]
  isBlank := by simp
  isSign := hsign.imp_right Or.inr
  run_ne_nil
  isDigit
  ends := by simp

theorem value_ofSigned {sign run : List Char} (text_eq : text.toList = sign ++ run) (hsign : sign = [] ∨ sign = ['-'])
    (run_ne_nil : run ≠ []) (isDigit : ∀ c ∈ run, base.isDigit c = true) :
    (ofSigned text_eq hsign run_ne_nil isDigit).value
      = if sign = ['-'] then -(base.magnitude run : ℤ) else base.magnitude run := by
  rw [magnitude_eq_placeValue]
  rfl

end Leading

/-- If there is a digit after the blanks and the sign, the parts that are taken off one after another are those of a
text that starts with an integer. -/
theorem exists_leading {base : Base} {text : String}
    (h : (takeSign (dropBlanks text.toList)).2.takeWhile base.isDigit ≠ []) : Nonempty (base.Leading text) := by
  obtain ⟨sign, hsign, hsigned⟩ := exists_sign (dropBlanks text.toList)
  set digits := (takeSign (dropBlanks text.toList)).2
  constructor
  exact {
    blanks := text.toList.takeWhile Text.isBlank
    sign
    run := digits.takeWhile base.isDigit
    rest := digits.dropWhile base.isDigit
    text_eq := by
      rw [List.takeWhile_append_dropWhile, ← hsigned]
      exact List.takeWhile_append_dropWhile.symm
    isBlank := fun c hc => List.mem_takeWhile_imp hc
    isSign := hsign
    run_ne_nil := h
    isDigit := fun c hc => List.mem_takeWhile_imp hc
    ends := dropWhile_ends base.isDigit digits }

theorem read_of_isEmpty {base : Base} {text : String} (h : IsEmpty (base.Leading text)) :
    base.read text = .error Fault.noInteger := by
  have hnone : (takeSign (dropBlanks text.toList)).2.takeWhile base.isDigit = [] := by
    by_contra hrun
    exact h.elim (exists_leading hrun).some
  simp [read, hnone]

end DeskCalculator.Base
