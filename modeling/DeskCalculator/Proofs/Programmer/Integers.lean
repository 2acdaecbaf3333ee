import DeskCalculator.Programmer.Bitwise
import DeskCalculator.Proofs.Outcome
import DeskCalculator.Proofs.Programmer.Leading
import Mathlib.Algebra.Order.Ring.Int
import Mathlib.Data.List.TakeWhile

/-! Integers that are written in a base are read back in it. The one exception is the least integer, whose
magnitude is not read; no calculation gives it, since what is read is greater and the results of bitwise
operators have 32 bits. -/
namespace DeskCalculator.Base
open Text

def digit (k : ℕ) : Char := (Nat.digitChar k).toUpper

theorem digitValue?_digit {k : ℕ} (hk : k < 16) : digitValue? (digit k) = some k := by
  have hall : ∀ k : Fin 16, digitValue? (digit k) = some k.val := by decide
  exact hall ⟨k, hk⟩

theorem radix_bounds (base : Base) : 1 < base.radix ∧ base.radix ≤ 16 := by cases base <;> decide

theorem isDigit_digit (base : Base) {k : ℕ} (hk : k < base.radix) : base.isDigit (digit k) = true := by
  have hradix := base.radix_bounds
  simp [isDigit, digitValue?_digit (by omega : k < 16), hk]

theorem digits_eq (base : Base) (n : ℕ) :
    base.digits n
      = if n < base.radix then [digit n] else base.digits (n / base.radix) ++ [digit (n % base.radix)] := by
  rw [digits, Nat.toDigits_eq_if base.radix_bounds.1]
  split_ifs
  · rfl
  · rw [List.map_append, digits]
    rfl

theorem digits_ne_nil (base : Base) (n : ℕ) : base.digits n ≠ [] := by
  rw [digits, ne_eq, List.map_eq_nil_iff]
  exact Nat.toDigits_ne_nil

theorem exists_of_mem_digits (base : Base) {n : ℕ} {c : Char} (hc : c ∈ base.digits n) :
    ∃ k < base.radix, c = digit k := by
  have hradix := base.radix_bounds
  induction n using Nat.strong_induction_on with
  | _ n ih =>
    rw [digits_eq] at hc
    split_ifs at hc with hlt
    · exact ⟨n, hlt, List.mem_singleton.mp hc⟩
    · rcases List.mem_append.mp hc with hc | hc
      · exact ih _ (Nat.div_lt_self (by omega) (by omega)) hc
      · exact ⟨_, Nat.mod_lt _ (by omega), List.mem_singleton.mp hc⟩

theorem magnitude_append_digit (base : Base) (cs : List Char) {k : ℕ} (hk : k < 16) :
    base.magnitude (cs ++ [digit k]) = base.magnitude cs * base.radix + k := by
  rw [magnitude, List.foldl_append, List.foldl_cons, List.foldl_nil, digitValue?_digit hk]
  rfl

theorem magnitude_digits (base : Base) (n : ℕ) : base.magnitude (base.digits n) = n := by
  have hradix := base.radix_bounds
  induction n using Nat.strong_induction_on with
  | _ n ih =>
    rw [digits_eq]
    split_ifs with hlt
    · have hone := base.magnitude_append_digit [] (by omega : n < 16)
      rw [List.nil_append] at hone
      rw [hone]
      simp [magnitude]
    · have hmod : n % base.radix < base.radix := Nat.mod_lt _ (by omega)
      rw [magnitude_append_digit base _ (by omega), ih _ (Nat.div_lt_self (by omega) (by omega)),
        Nat.mul_comm, Nat.div_add_mod]

theorem write_zero (base : Base) : base.write 0 = "0" := by cases base <;> rfl

theorem read_zero (base : Base) : base.read "0" = .ok 0 := by cases base <;> rfl

theorem read_empty (base : Base) : base.read "" = .error Fault.noInteger := by cases base <;> rfl

theorem natAbs_le_of_ne_minValue {n : Int64} (hn : n ≠ Int64.minValue) : n.toInt.natAbs ≤ maxMagnitude := by
  have hlower := n.le_toInt
  have hupper := n.toInt_lt
  have hne : n.toInt ≠ Int64.minValue.toInt := fun h => hn (Int64.toInt_inj.mp h)
  have hmin : Int64.minValue.toInt = -2 ^ 63 := rfl
  unfold maxMagnitude
  omega

theorem toList_write (base : Base) (n : Int64) :
    (base.write n).toList = (if n.toInt < 0 then ['-'] else []) ++ base.digits n.toInt.natAbs := by
  have hsign : n < 0 ↔ n.toInt < 0 := Int64.lt_iff_toInt_lt
  by_cases hneg : n.toInt < 0 <;> simp [write, hsign, hneg]

theorem isDigit_of_mem_digits (base : Base) {n : ℕ} {c : Char} (hc : c ∈ base.digits n) : base.isDigit c = true := by
  obtain ⟨k, hk, rfl⟩ := base.exists_of_mem_digits hc
  exact base.isDigit_digit hk

/-- A written integer starts with itself. -/
theorem exists_leading_write (base : Base) (n : Int64) :
    ∃ leading : base.Leading (base.write n), leading.value = n.toInt := by
  have hsign : (if n.toInt < 0 then ['-'] else []) = [] ∨ (if n.toInt < 0 then ['-'] else []) = ['-'] := by
    split <;> simp
  refine ⟨.ofSigned (base.toList_write n) hsign (base.digits_ne_nil _) fun c => base.isDigit_of_mem_digits, ?_⟩
  rw [Leading.value_ofSigned, magnitude_digits]
  by_cases hneg : n.toInt < 0
  · rw [if_pos hneg, if_pos rfl]
    omega
  · rw [if_neg hneg, if_neg (List.cons_ne_nil _ _).symm]
    omega

/-- Every integer but the least one is read back from its written form. -/
theorem read_write (base : Base) {n : Int64} (hn : n ≠ Int64.minValue) :
    base.read (base.write n) = .ok n := by
  obtain ⟨leading, hvalue⟩ := base.exists_leading_write n
  rw [leading.read_eq, hvalue, if_neg (not_lt.mpr (natAbs_le_of_ne_minValue hn)), Int64.ofInt_toInt]

theorem ne_minValue_of_natAbs_le {n : Int64} (h : n.toInt.natAbs ≤ maxMagnitude) :
    n ≠ Int64.minValue := by
  rintro rfl
  rw [Int64.toInt_minValue] at h
  unfold maxMagnitude at h
  omega

theorem read_write_of_natAbs_le (base : Base) {n : Int64} (h : n.toInt.natAbs ≤ maxMagnitude) :
    base.read (base.write n) = .ok n := base.read_write (ne_minValue_of_natAbs_le h)

theorem ne_minValue_of_nonneg {n : Int64} (hn : 0 ≤ n) : n ≠ Int64.minValue := by
  rintro rfl
  exact absurd hn (by decide)

theorem natAbs_le_of_read {base : Base} {text : String} {n : Int64} (h : base.read text = .ok n) :
    n.toInt.natAbs ≤ maxMagnitude := by
  simp only [read] at h
  split_ifs at h with hnone hlarge hneg
  all_goals
    obtain rfl := Except.ok.inj h
    unfold maxMagnitude at hlarge ⊢
    rw [Int64.toInt_ofInt_of_le (by omega) (by omega)]
    omega

end DeskCalculator.Base

namespace DeskCalculator.Bitwise

theorem exists_binary {op : Bitwise} (hop : op.isBinary = true) (x y : Int64) : ∃ n, op.binary x y = .ok n := by
  cases op with
  | and | or | xor => exact ⟨_, rfl⟩
  | not | shiftLeft | shiftRight => exact Bool.noConfusion hop

theorem exists_unary {op : Bitwise} (hop : op.isBinary = false) (x : Int64) : ∃ n, op.unary x = .ok n := by
  cases op with
  | not | shiftLeft | shiftRight => exact ⟨_, rfl⟩
  | and | or | xor => exact Bool.noConfusion hop

theorem natAbs_word_le (w : Int32) : w.toInt64.toInt.natAbs ≤ Base.maxMagnitude := by
  have hlower := w.le_toInt
  have hupper := w.toInt_lt
  rw [Int32.toInt_toInt64]
  unfold Base.maxMagnitude
  omega

theorem exists_word_of_unary {op : Bitwise} {x n : Int64} (h : op.unary x = .ok n) : ∃ word : Int32, n = word.toInt64 := by
  cases op with
  | not | shiftLeft | shiftRight => exact ⟨_, (Except.ok.inj h).symm⟩
  | and | or | xor => simp [unary] at h

theorem exists_word_of_binary {op : Bitwise} {x y n : Int64} (h : op.binary x y = .ok n) :
    ∃ word : Int32, n = word.toInt64 := by
  cases op with
  | and | or | xor => exact ⟨_, (Except.ok.inj h).symm⟩
  | not | shiftLeft | shiftRight => simp [binary] at h

theorem natAbs_le_of_binary {op : Bitwise} {x y n : Int64} (h : op.binary x y = .ok n) :
    n.toInt.natAbs ≤ Base.maxMagnitude := by
  obtain ⟨word, rfl⟩ := exists_word_of_binary h
  exact natAbs_word_le word

theorem natAbs_le_of_unary {op : Bitwise} {x n : Int64} (h : op.unary x = .ok n) :
    n.toInt.natAbs ≤ Base.maxMagnitude := by
  obtain ⟨word, rfl⟩ := exists_word_of_unary h
  exact natAbs_word_le word

end DeskCalculator.Bitwise
