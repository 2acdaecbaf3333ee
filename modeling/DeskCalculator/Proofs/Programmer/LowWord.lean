import DeskCalculator.Proofs.Programmer.Integers
import Mathlib.Data.Int.Bitwise
import Mathlib.Data.Int.ModEq

/-! The bitwise operators as operations on integers. An operand counts by its low word, which is its low 32 bits with the
top one of them for the sign: operators of one operand calculate with it, and those of two join the bits of two low words
place by place. Integers have the bits of two's complement throughout, a negative one having ones in all high places. -/
namespace DeskCalculator
open Outcome

/-- The integers that 32 bits hold. -/
def FitsWord (n : ℤ) : Prop := -2 ^ 31 ≤ n ∧ n < 2 ^ 31

/-- The low 32 bits of an integer, read with a sign. -/
def lowWord (n : ℤ) : ℤ := n.bmod (2 ^ 32)

/-- There is one integer of 32 bits that differs from an integer by a multiple of `2 ^ 32`, its low word. -/
theorem lowWord_eq_iff {n w : ℤ} : lowWord n = w ↔ FitsWord w ∧ w ≡ n [ZMOD 2 ^ 32] := by
  rw [lowWord, Int.bmod_eq_iff (by decide), FitsWord, Int.modEq_comm, Int.modEq_iff_dvd]
  omega

theorem fitsWord_lowWord (n : ℤ) : FitsWord (lowWord n) := (lowWord_eq_iff.mp rfl).1

theorem lowWord_modEq (n : ℤ) : lowWord n ≡ n [ZMOD 2 ^ 32] := (lowWord_eq_iff.mp rfl).2

theorem FitsWord.lowWord_eq {n : ℤ} (h : FitsWord n) : lowWord n = n := lowWord_eq_iff.mpr ⟨h, Int.ModEq.rfl⟩

theorem lowWord_congr {m n : ℤ} (h : m ≡ n [ZMOD 2 ^ 32]) : lowWord m = lowWord n :=
  lowWord_eq_iff.mpr ⟨fitsWord_lowWord n, (lowWord_modEq n).trans h.symm⟩

theorem fitsWord_toInt (word : Int32) : FitsWord word.toInt := ⟨word.le_toInt, word.toInt_lt⟩

theorem FitsWord.exists_word {n : ℤ} (h : FitsWord n) : ∃ word : Int32, word.toInt = n :=
  ⟨Int32.ofInt n, Int32.toInt_ofInt_of_le h.1 h.2⟩

/-! ### The bits of integers -/

theorem testBit_eq_odd (n : ℤ) (i : ℕ) : n.testBit i = decide (n / 2 ^ i % 2 = 1) := by
  cases n with
  | ofNat m =>
    have hbit : (Int.ofNat m).testBit i = m.testBit i := rfl
    rw [hbit, Nat.testBit_eq_decide_div_mod_eq, decide_eq_decide, Int.ofNat_eq_natCast]
    norm_cast
  | negSucc m =>
    have hbit : (Int.negSucc m).testBit i = !m.testBit i := rfl
    -- division rounds down, so that the quotient of a negative integer is odd where that of `m` is even
    have hquotient : Int.negSucc m / 2 ^ i = -((m / 2 ^ i : ℕ) + 1 : ℤ) := by
      rw [Int.negSucc_ediv m (by positivity)]
      norm_cast
    rw [hbit, Nat.testBit_eq_decide_div_mod_eq, hquotient, ← decide_not, decide_eq_decide]
    omega

/-- Integers that differ by a multiple of `2 ^ 32` have the same low bits. -/
theorem testBit_congr {m n : ℤ} (h : m ≡ n [ZMOD 2 ^ 32]) {i : ℕ} (hi : i < 32) : m.testBit i = n.testBit i := by
  obtain ⟨k, hk⟩ := h.dvd
  have hpow : (2 : ℤ) ^ 32 = 2 ^ i * (2 * 2 ^ (31 - i)) := by
    rw [← pow_succ', ← pow_add]
    congr 1
    omega
  -- at the place `i` the difference is worth an even number
  have hn : n = m + 2 ^ i * (2 * (2 ^ (31 - i) * k)) := by
    rw [eq_add_of_sub_eq' hk, hpow]
    ring
  have hquotient : n / 2 ^ i = m / 2 ^ i + 2 * (2 ^ (31 - i) * k) := by
    rw [hn, Int.add_mul_ediv_left _ _ (by positivity)]
  rw [testBit_eq_odd, testBit_eq_odd, hquotient, Int.add_mul_emod_self_left]

theorem testBit_toInt (word : Int32) {i : ℕ} (hi : i < 32) : word.toInt.testBit i = word.toBitVec.getLsbD i := by
  have hunsigned : word.toInt ≡ word.toBitVec.toNat [ZMOD 2 ^ 32] := by
    rw [← Int32.toInt_toBitVec, BitVec.toInt_eq_toNat_bmod]
    exact lowWord_modEq _
  calc word.toInt.testBit i
      = (word.toBitVec.toNat : ℤ).testBit i := testBit_congr hunsigned hi
    _ = word.toBitVec.toNat.testBit i := rfl
    _ = word.toBitVec.getLsbD i := BitVec.testBit_toNat _

/-- The low bits tell integers of 32 bits apart. -/
theorem FitsWord.eq_of_testBit {m n : ℤ} (hm : FitsWord m) (hn : FitsWord n)
    (hbits : ∀ i < 32, m.testBit i = n.testBit i) : m = n := by
  obtain ⟨word, rfl⟩ := hm.exists_word
  obtain ⟨word', rfl⟩ := hn.exists_word
  rw [← Int32.toInt_toBitVec, ← Int32.toInt_toBitVec, BitVec.toInt_inj]
  apply BitVec.eq_of_getLsbD_eq
  intro i hi
  rw [← testBit_toInt word hi, ← testBit_toInt word' hi]
  exact hbits i hi

/-- The low bits of an integer come from those of two others, each from the two of its place. -/
def JoinsBits (f : Bool → Bool → Bool) (x y n : Int64) : Prop :=
  ∀ i < 32, n.toInt.testBit i = f (x.toInt.testBit i) (y.toInt.testBit i)

/-! ### The word of an operand -/

theorem toInt_toInt32 (x : Int64) : x.toInt32.toInt = lowWord x.toInt := Int64.toInt_toInt32 x

theorem toInt32_congr {x y : Int64} (h : x.toInt ≡ y.toInt [ZMOD 2 ^ 32]) : x.toInt32 = y.toInt32 := by
  rw [← Int32.toInt_inj, toInt_toInt32, toInt_toInt32, lowWord_congr h]

theorem testBit_toInt32 (x : Int64) {i : ℕ} (hi : i < 32) : x.toInt32.toBitVec.getLsbD i = x.toInt.testBit i := by
  rw [← testBit_toInt _ hi, toInt_toInt32]
  exact testBit_congr (lowWord_modEq _) hi

/-! ### Operations on words -/

theorem toInt_complement (word : Int32) : (~~~word).toInt = -1 - word.toInt := by
  have hfits : FitsWord (-word.toInt - 1) := by
    obtain ⟨hlower, hupper⟩ := fitsWord_toInt word
    constructor <;> omega
  rw [Int32.toInt_not]
  exact hfits.lowWord_eq.trans (by omega)

theorem toInt_shiftLeft (word : Int32) : (word <<< 1).toInt = lowWord (2 * word.toInt) := by
  have hplaces : (1 : Int32).toBitVec.smod 32 = 1#32 := by decide
  have hdouble : word.toBitVec.toNat <<< (1#32).toNat = 2 * word.toBitVec.toNat := by
    rw [Nat.shiftLeft_eq, Nat.mul_comm]
    rfl
  rw [← Int32.toInt_toBitVec, Int32.toBitVec_shiftLeft, hplaces, BitVec.shiftLeft_eq', BitVec.toInt_shiftLeft, hdouble,
    ← Int32.toInt_toBitVec, BitVec.toInt_eq_toNat_bmod word.toBitVec, lowWord, Int.mul_bmod_bmod, Nat.cast_mul]
  rfl

theorem toInt_shiftRight (word : Int32) : (word >>> 1).toInt = word.toInt.fdiv 2 := by
  have hplaces : (1 : Int32).toBitVec.smod 32 = 1#32 := by decide
  rw [← Int32.toInt_toBitVec, Int32.toBitVec_shiftRight, hplaces, BitVec.sshiftRight_eq', BitVec.toInt_sshiftRight,
    Int32.toInt_toBitVec, Int.shiftRight_eq_div_pow, Int.fdiv_eq_ediv_of_nonneg _ (by decide)]
  rfl

/-! ### The operators -/

namespace Bitwise

variable {op : Bitwise} {x y n : Int64}

/-- What an operator gives, for one operand or for two, is an integer of 32 bits. -/
theorem fitsWord_of_result (h : op.unary x = .ok n ∨ op.binary x y = .ok n) : FitsWord n.toInt := by
  obtain ⟨word, rfl⟩ : ∃ word : Int32, n = word.toInt64 := h.elim exists_word_of_unary exists_word_of_binary
  rw [Int32.toInt_toInt64]
  exact fitsWord_toInt word

theorem unary_congr (op : Bitwise) {x' : Int64} (hx : x'.toInt ≡ x.toInt [ZMOD 2 ^ 32]) : op.unary x' = op.unary x := by
  simp only [unary, toInt32_congr hx]

theorem binary_congr (op : Bitwise) {x' y' : Int64} (hx : x'.toInt ≡ x.toInt [ZMOD 2 ^ 32])
    (hy : y'.toInt ≡ y.toInt [ZMOD 2 ^ 32]) : op.binary x' y' = op.binary x y := by
  simp only [binary, toInt32_congr hx, toInt32_congr hy]

theorem unary_not (x : Int64) : (not.unary x).map Int64.toInt = .ok (-1 - lowWord x.toInt) := by
  rw [unary, map_ok, Int32.toInt_toInt64, toInt_complement, toInt_toInt32]

theorem unary_shiftLeft (x : Int64) : (shiftLeft.unary x).map Int64.toInt = .ok (lowWord (2 * lowWord x.toInt)) := by
  rw [unary, map_ok, Int32.toInt_toInt64, toInt_shiftLeft, toInt_toInt32]

theorem unary_shiftRight (x : Int64) : (shiftRight.unary x).map Int64.toInt = .ok ((lowWord x.toInt).fdiv 2) := by
  rw [unary, map_ok, Int32.toInt_toInt64, toInt_shiftRight, toInt_toInt32]

/-- An operation on words that goes bit by bit does so on the low bits of operands that are wider. -/
theorem joinsBits_words {join : Int32 → Int32 → Int32} {f : Bool → Bool → Bool}
    (hjoin : ∀ a b i, (join a b).toBitVec.getLsbD i = f (a.toBitVec.getLsbD i) (b.toBitVec.getLsbD i)) (x y : Int64) :
    JoinsBits f x y (join x.toInt32 y.toInt32).toInt64 := by
  intro i hi
  rw [Int32.toInt_toInt64, testBit_toInt _ hi, hjoin, testBit_toInt32 x hi, testBit_toInt32 y hi]

theorem binary_and (x y : Int64) : ∃ n, and.binary x y = .ok n ∧ JoinsBits Bool.and x y n :=
  ⟨_, rfl, joinsBits_words (fun a b i => by rw [Int32.toBitVec_and, BitVec.getLsbD_and]) x y⟩

theorem binary_or (x y : Int64) : ∃ n, or.binary x y = .ok n ∧ JoinsBits Bool.or x y n :=
  ⟨_, rfl, joinsBits_words (fun a b i => by rw [Int32.toBitVec_or, BitVec.getLsbD_or]) x y⟩

theorem binary_xor (x y : Int64) : ∃ n, xor.binary x y = .ok n ∧ JoinsBits Bool.xor x y n :=
  ⟨_, rfl, joinsBits_words (fun a b i => by rw [Int32.toBitVec_xor, BitVec.getLsbD_xor]) x y⟩

/-- The complement of the complement is the low word. -/
theorem unary_not_not (x : Int64) : (not.unary x >>= not.unary).map Int64.toInt = .ok (lowWord x.toInt) := by
  obtain ⟨n, hn, hvalue⟩ := map_eq_ok.mp (unary_not x)
  have hword : lowWord n.toInt = -1 - lowWord x.toInt := by
    rw [(fitsWord_of_result (y := n) (Or.inl hn)).lowWord_eq, hvalue]
  rw [hn, ok_bind, unary_not, hword, sub_sub_cancel]

/-- What was joined by exclusive or comes out again with the same operand. -/
theorem binary_xor_xor (x y : Int64) :
    (xor.binary x y >>= fun n => xor.binary n y).map Int64.toInt = .ok (lowWord x.toInt) := by
  obtain ⟨n, hn, hbits⟩ := binary_xor x y
  obtain ⟨m, hm, hbits'⟩ := binary_xor n y
  have hvalue : m.toInt = lowWord x.toInt := by
    -- both sides have 32 bits, which are those of `x`
    apply (fitsWord_of_result (x := n) (Or.inr hm)).eq_of_testBit (fitsWord_lowWord _)
    intro i hi
    rw [hbits' i hi, hbits i hi, testBit_congr (lowWord_modEq _) hi, Bool.xor_assoc, Bool.xor_self, Bool.xor_false]
  rw [hn, ok_bind, hm, map_ok, hvalue]

theorem read_write_of_result (h : op.unary x = .ok n ∨ op.binary x y = .ok n) (base : Base) :
    base.read (base.write n) = .ok n :=
  base.read_write_of_natAbs_le (h.elim natAbs_le_of_unary natAbs_le_of_binary)

end Bitwise

open Bitwise

/-- The operators are those of two's complement on low words. Complement and shifts calculate with the low word of the
operand, the others join the low bits of the operands place by place, and complement and exclusive or lead back to the
low word when they are done twice. Whatever an operator gives has 32 bits, is read back in the base that it is written
in, and is the same for operands that differ by multiples of `2 ^ 32`. -/
theorem operators_act_on_low_words (x y : Int64) :
    (FitsWord (lowWord x.toInt) ∧ lowWord x.toInt ≡ x.toInt [ZMOD 2 ^ 32]) ∧
      ((Bitwise.not.unary x).map Int64.toInt = .ok (-1 - lowWord x.toInt) ∧
        (shiftLeft.unary x).map Int64.toInt = .ok (lowWord (2 * lowWord x.toInt)) ∧
        (shiftRight.unary x).map Int64.toInt = .ok ((lowWord x.toInt).fdiv 2)) ∧
      ((∃ n, Bitwise.and.binary x y = .ok n ∧ JoinsBits Bool.and x y n) ∧
        (∃ n, Bitwise.or.binary x y = .ok n ∧ JoinsBits Bool.or x y n) ∧
        ∃ n, Bitwise.xor.binary x y = .ok n ∧ JoinsBits Bool.xor x y n) ∧
      (Bitwise.not.unary x >>= Bitwise.not.unary).map Int64.toInt = .ok (lowWord x.toInt) ∧
      (Bitwise.xor.binary x y >>= fun n => Bitwise.xor.binary n y).map Int64.toInt = .ok (lowWord x.toInt) ∧
      (∀ (op : Bitwise) (n : Int64), op.unary x = .ok n ∨ op.binary x y = .ok n →
        FitsWord n.toInt ∧ ∀ base : Base, base.read (base.write n) = .ok n) ∧
      ∀ x' y' : Int64, x'.toInt ≡ x.toInt [ZMOD 2 ^ 32] → y'.toInt ≡ y.toInt [ZMOD 2 ^ 32] →
        ∀ op : Bitwise, op.unary x' = op.unary x ∧ op.binary x' y' = op.binary x y := by
  refine ⟨⟨fitsWord_lowWord _, lowWord_modEq _⟩, ⟨unary_not x, unary_shiftLeft x, unary_shiftRight x⟩,
    ⟨binary_and x y, binary_or x y, binary_xor x y⟩, unary_not_not x, binary_xor_xor x y, ?_, ?_⟩
  · intro op n hresult
    exact ⟨fitsWord_of_result hresult, read_write_of_result hresult⟩
  · intro x' y' hx hy op
    exact ⟨op.unary_congr hx, op.binary_congr hx hy⟩

/-- Operands beyond 32 bits with negative low words. -/
theorem operators_on_wide_operands :
    let x : Int64 := 0x180000005
    let y : Int64 := -0x100000010
    let n : Int64 := 0x7ffffff5
    lowWord x.toInt = -0x7ffffffb ∧ (Bitwise.not.unary x).map Int64.toInt = .ok 0x7ffffffa ∧
      (shiftLeft.unary x).map Int64.toInt = .ok 10 ∧ (shiftRight.unary x).map Int64.toInt = .ok (-0x3ffffffe) ∧
      Bitwise.xor.binary x y = .ok n ∧ FitsWord n.toInt ∧ (∀ base : Base, base.read (base.write n) = .ok n) ∧
      (31 < 32 ∧ n.toInt.testBit 31 = Bool.xor (x.toInt.testBit 31) (y.toInt.testBit 31)) ∧
      (-0x7ffffffb : Int64).toInt ≡ x.toInt [ZMOD 2 ^ 32] ∧ (-0x10 : Int64).toInt ≡ y.toInt [ZMOD 2 ^ 32] ∧
      Bitwise.xor.binary (-0x7ffffffb) (-0x10) = .ok n := by
  intro x y n
  have hword : lowWord x.toInt = -0x7ffffffb := by decide
  have hresult : Bitwise.xor.binary x y = .ok n := by decide +kernel
  have hx : (-0x7ffffffb : Int64).toInt ≡ x.toInt [ZMOD 2 ^ 32] := by decide
  have hy : (-0x10 : Int64).toInt ≡ y.toInt [ZMOD 2 ^ 32] := by decide
  obtain ⟨-, ⟨hnot, hleft, hright⟩, ⟨-, -, m, hm, hbits⟩, -, -, hresults, hcongr⟩ := operators_act_on_low_words x y
  obtain rfl := Except.ok.inj (hm.symm.trans hresult)
  obtain ⟨hfits, hread⟩ := hresults .xor _ (Or.inr hm)
  rw [hword] at hnot hleft hright
  exact ⟨hword, hnot, hleft, hright, hresult, hfits, hread, ⟨by decide, hbits 31 (by decide)⟩, hx, hy,
    (hcongr _ _ hx hy .xor).2.trans hresult⟩

end DeskCalculator
