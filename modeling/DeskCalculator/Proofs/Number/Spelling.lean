import DeskCalculator.Number.Numeral
import DeskCalculator.Number.Rendering
import DeskCalculator.Proofs.Number.Decimals
import DeskCalculator.Proofs.Text.Digits
import Mathlib.Data.List.TakeWhile

/-! What is written of a decimal is scanned as a decimal of the same value, in both written forms. -/
namespace DeskCalculator
open Text

namespace Decimal

theorem exists_zeros (d : Decimal) :
    ∃ k, Nat.toDigits 10 d.coefficient = d.digits ++ List.replicate k '0' := by
  set all := Nat.toDigits 10 d.coefficient
  have hzeros : ∀ c ∈ all.reverse.takeWhile (· == '0'), c = '0' := by
    intro c hc
    simpa using List.mem_takeWhile_imp hc
  refine ⟨(all.reverse.takeWhile (· == '0')).length, ?_⟩
  have hsplit : all.reverse.takeWhile (· == '0') ++ all.reverse.dropWhile (· == '0') = all.reverse :=
    List.takeWhile_append_dropWhile
  rw [List.eq_replicate_of_mem hzeros] at hsplit
  have hreverse := congrArg List.reverse hsplit
  rw [List.reverse_append, List.reverse_replicate, List.reverse_reverse] at hreverse
  exact hreverse.symm

theorem isDigit_of_mem_digits {d : Decimal} {c : Char} (hc : c ∈ d.digits) : c.isDigit = true := by
  obtain ⟨k, hk⟩ := d.exists_zeros
  have hmem : c ∈ Nat.toDigits 10 d.coefficient := by
    rw [hk]
    exact List.mem_append_left _ hc
  exact Nat.isDigit_of_mem_toDigits (by decide) (by decide) hmem

theorem digits_ne_nil {d : Decimal} (hd : d.coefficient ≠ 0) : d.digits ≠ [] := by
  intro hnil
  obtain ⟨k, hk⟩ := d.exists_zeros
  have hvalue := congrArg digitsValue hk
  rw [hnil, List.nil_append, digitsValue_toDigits, digitsValue_zeros] at hvalue
  exact hd hvalue

/-- The digits say what the value is, up to the power of ten that the order gives. -/
theorem value_eq_digits (d : Decimal) :
    d.value = digitsValue d.digits * 10 ^ (d.order - d.digits.length) := by
  obtain ⟨k, hk⟩ := d.exists_zeros
  have hcoefficient : d.coefficient = digitsValue d.digits * 10 ^ k := by
    have hvalue := congrArg digitsValue hk
    rw [digitsValue_toDigits, digitsValue_append, digitsValue_zeros, List.length_replicate,
      Nat.add_zero] at hvalue
    exact hvalue
  have hcount : digitCount d.coefficient = d.digits.length + k := by
    rw [digitCount, hk, List.length_append, List.length_replicate]
  have hexp : d.order - d.digits.length = k + d.exponent := by
    rw [order, hcount]
    push_cast
    ring
  rw [hexp, zpow_add₀ (by norm_num), zpow_natCast, value, hcoefficient]
  push_cast
  ring

theorem digits_bounds {d : Decimal} (hd : d.coefficient ≠ 0) :
    (10 : ℚ) ^ ((d.digits.length : ℤ) - 1) ≤ digitsValue d.digits ∧
      (digitsValue d.digits : ℚ) < 10 ^ (d.digits.length : ℤ) := by
  have hpow : (0 : ℚ) < 10 ^ (d.order - d.digits.length) := zpow_pos (by norm_num) _
  obtain ⟨hlower, hupper⟩ := value_bounds hd
  rw [value_eq_digits] at hlower hupper
  constructor
  · refine le_of_mul_le_mul_right (le_trans (le_of_eq ?_) hlower) hpow
    rw [← zpow_add₀ (by norm_num)]
    congr 1
    ring
  · refine lt_of_mul_lt_mul_right (lt_of_lt_of_le hupper (le_of_eq ?_)) hpow.le
    rw [← zpow_add₀ (by norm_num)]
    congr 1
    ring

end Decimal

namespace Numeral
open Decimal (value)

/-- Digits with a point after the first of them, which is left out at the end. -/
def spell (whole fraction : List Char) : List Char :=
  whole ++ if fraction = [] then [] else '.' :: fraction

/-- Is a text such that a run of digits with a point cannot go on into it? -/
def Ends (rest : List Char) : Prop := ∀ c ∈ rest.head?, c.isDigit = false ∧ c ≠ '.'

theorem takeFraction_of_ends {rest : List Char} (hrest : Ends rest) : takeFraction rest = ([], rest) := by
  unfold takeFraction
  split
  · exact absurd rfl (hrest '.' rfl).2
  · rfl

theorem scan_spell {whole fraction rest : List Char} (hwhole : whole ≠ [])
    (hwholeDigits : ∀ c ∈ whole, c.isDigit = true) (hfractionDigits : ∀ c ∈ fraction, c.isDigit = true)
    (hrest : Ends rest) :
    scan (spell whole fraction ++ rest)
      = some (⟨false, ⟨digitsValue (whole ++ fraction), (takeExponent rest).1 - fraction.length⟩⟩,
          (takeExponent rest).2) := by
  have hsign (tail : List Char) : takeSign (whole ++ tail) = (false, whole ++ tail) := by
    obtain ⟨c, cs, rfl⟩ := List.exists_cons_of_ne_nil hwhole
    have hc : c.isDigit = true := hwholeDigits c (List.mem_cons_self ..)
    exact takeSign_of_ne (by rintro rfl; exact absurd hc (by decide))
      (by rintro rfl; exact absurd hc (by decide)) _
  have hend : ∀ c ∈ rest.head?, c.isDigit = false := fun c hc => (hrest c hc).1
  have hfound : whole ++ fraction ≠ [] := by simp [hwhole]
  by_cases hfraction : fraction = []
  · subst hfraction
    have htext : spell whole [] ++ rest = whole ++ rest := by simp [spell]
    rw [htext]
    simp only [scan, hsign, takeDigits_of_digits hwholeDigits hend, takeFraction_of_ends hrest,
      if_neg hfound]
  · have htext : spell whole fraction ++ rest = whole ++ '.' :: (fraction ++ rest) := by
      simp [spell, hfraction]
    have hpoint : takeDigits (whole ++ '.' :: (fraction ++ rest)) = (whole, '.' :: (fraction ++ rest)) :=
      takeDigits_of_digits hwholeDigits (by rintro c ⟨⟩; decide)
    rw [htext]
    simp only [scan, hsign, hpoint, takeFraction, takeDigits_of_digits hfractionDigits hend,
      if_neg hfound]

theorem takeExponent_nil : takeExponent [] = (0, []) := rfl

theorem takeExponent_signed (exponent : ℤ) :
    takeExponent ('e' :: (if exponent < 0 then '-' else '+') :: Nat.toDigits 10 exponent.natAbs)
      = (exponent, []) := by
  have hdigits : takeDigits (Nat.toDigits 10 exponent.natAbs) = (Nat.toDigits 10 exponent.natAbs, []) := by
    have h := @takeDigits_of_digits (Nat.toDigits 10 exponent.natAbs) []
      (fun c hc => Nat.isDigit_of_mem_toDigits (by decide) (by decide) hc) (by simp)
    rwa [List.append_nil] at h
  have hvalue := digitsValue_toDigits exponent.natAbs
  obtain ⟨c, cs, hcons⟩ := List.exists_cons_of_ne_nil (@Nat.toDigits_ne_nil exponent.natAbs 10)
  rw [hcons] at hdigits hvalue ⊢
  split_ifs with hneg
  · simp only [takeExponent, takeSign, beq_self_eq_true, Bool.true_or, if_true, hdigits, hvalue]
    congr 1
    omega
  · simp only [takeExponent, takeSign, beq_self_eq_true, Bool.true_or, if_true, hdigits, hvalue,
      Bool.false_eq_true, if_false]
    congr 1
    omega

theorem ends_nil : Ends [] := fun c hc => by simp at hc

def spelledValue (whole fraction : List Char) : ℚ :=
  digitsValue (whole ++ fraction) * 10 ^ (-(fraction.length : ℤ))

/-- A text of digits with a point, neither of whose parts holds anything else. -/
structure Writes (text : List Char) (v : ℚ) (whole fraction : List Char) : Prop where
  text_eq : text = spell whole fraction
  whole_ne_nil : whole ≠ []
  whole_digits : ∀ c ∈ whole, c.isDigit = true
  fraction_digits : ∀ c ∈ fraction, c.isDigit = true
  value_eq : spelledValue whole fraction = v

theorem Writes.scan {text rest whole fraction : List Char} {v : ℚ} (h : Writes text v whole fraction)
    (hrest : Ends rest) :
    ∃ d : Decimal, scan (text ++ rest) = some (⟨false, d⟩, (takeExponent rest).2) ∧
      d.value = v * 10 ^ (takeExponent rest).1 := by
  refine ⟨⟨digitsValue (whole ++ fraction), (takeExponent rest).1 - fraction.length⟩, ?_, ?_⟩
  · rw [h.text_eq]
    exact scan_spell h.whole_ne_nil h.whole_digits h.fraction_digits hrest
  · rw [← h.value_eq, spelledValue, Decimal.value, sub_eq_add_neg, zpow_add₀ (by norm_num)]
    ring

theorem Writes.read {text whole fraction : List Char} {v : ℚ} (h : Writes text v whole fraction) :
    ∃ d : Decimal, read? (String.ofList text) = some (Binary64.ofCode false d.code) ∧ d.value = v := by
  obtain ⟨d, hscan, hvalue⟩ := h.scan ends_nil
  refine ⟨d, ?_, by simpa [takeExponent_nil] using hvalue⟩
  rw [List.append_nil] at hscan
  simp only [read?, String.toList_ofList, hscan, takeExponent_nil, Numeral.value]

theorem Writes.ne_nil {text whole fraction : List Char} {v : ℚ} (h : Writes text v whole fraction) :
    text ≠ [] := by
  rw [h.text_eq, spell]
  simp [h.whole_ne_nil]

theorem Writes.isLiteralChar {text whole fraction : List Char} {v : ℚ}
    (h : Writes text v whole fraction) : ∀ c ∈ text, c.isDigit = true ∨ c = '.' := by
  intro c hc
  rw [h.text_eq, spell] at hc
  rcases List.mem_append.mp hc with hc | hc
  · exact Or.inl (h.whole_digits c hc)
  · split_ifs at hc
    · simp at hc
    · rcases List.mem_cons.mp hc with rfl | hc
      · exact Or.inr rfl
      · exact Or.inl (h.fraction_digits c hc)

theorem toDigits_writes (n : ℕ) : Writes (Nat.toDigits 10 n) n (Nat.toDigits 10 n) [] where
  text_eq := by simp [spell]
  whole_ne_nil := Nat.toDigits_ne_nil
  whole_digits c hc := Nat.isDigit_of_mem_toDigits (by decide) (by decide) hc
  fraction_digits c hc := by simp at hc
  value_eq := by simp [spelledValue, digitsValue_toDigits]

end Numeral

namespace Number
open Numeral

theorem positional_writes {d : Decimal} (hd : d.coefficient ≠ 0) :
    ∃ whole fraction, Writes (positional d.digits d.order) d.value whole fraction := by
  have hne := Decimal.digits_ne_nil hd
  have hdigit : ∀ c ∈ d.digits, c.isDigit = true := fun c hc => Decimal.isDigit_of_mem_digits hc
  have hzero (n : ℕ) : ∀ c ∈ List.replicate n '0', c.isDigit = true := by
    intro c hc
    rw [List.eq_of_mem_replicate hc]
    decide
  by_cases hsmall : d.order ≤ 0
  · -- Below one: zeros stand between the point and the digits.
    refine ⟨['0'], List.replicate (-d.order).toNat '0' ++ d.digits, ?_, by simp, by simp, ?_, ?_⟩
    · simp [positional, spell, hsmall, hne]
    · intro c hc
      rcases List.mem_append.mp hc with hc | hc
      · exact hzero _ c hc
      · exact hdigit c hc
    · have hvalue : digitsValue (['0'] ++ (List.replicate (-d.order).toNat '0' ++ d.digits))
          = digitsValue d.digits := by
        rw [← List.append_assoc, digitsValue_append]
        change digitsValue (List.replicate 1 '0' ++ _) * _ + _ = _
        rw [List.replicate_append_replicate, digitsValue_zeros]
        omega
      rw [spelledValue, hvalue, Decimal.value_eq_digits, List.length_append, List.length_replicate]
      congr 2
      push_cast
      omega
  · by_cases hlong : d.digits.length ≤ d.order.toNat
    · -- A whole number: zeros stand after the digits.
      refine ⟨d.digits ++ List.replicate (d.order.toNat - d.digits.length) '0', [], ?_, by simp [hne],
        ?_, by simp, ?_⟩
      · simp [positional, spell, hsmall, hlong]
      · intro c hc
        rcases List.mem_append.mp hc with hc | hc
        · exact hdigit c hc
        · exact hzero _ c hc
      · have hexp : d.order - d.digits.length = ((d.order.toNat - d.digits.length : ℕ) : ℤ) := by omega
        rw [spelledValue, List.append_nil, digitsValue_append, digitsValue_zeros,
          List.length_replicate, Decimal.value_eq_digits, hexp, zpow_natCast]
        simp
    · -- The point stands between two digits.
      refine ⟨d.digits.take d.order.toNat, d.digits.drop d.order.toNat, ?_, ?_,
        fun c hc => hdigit c (List.mem_of_mem_take hc), fun c hc => hdigit c (List.mem_of_mem_drop hc), ?_⟩
      · have hdrop : d.digits.drop d.order.toNat ≠ [] := by
          rw [ne_eq, List.drop_eq_nil_iff]
          omega
        simp [positional, spell, hsmall, hlong, hdrop]
      · have hpos : d.order.toNat ≠ 0 := by omega
        simp [hpos, hne]
      · rw [spelledValue, List.take_append_drop, Decimal.value_eq_digits, List.length_drop]
        congr 2
        omega

def mantissaText (digits : List Char) : List Char := spell (digits.take 1) (digits.drop 1)

/-- What the digits before the exponent are worth. -/
def mantissaValue (d : Decimal) : ℚ := digitsValue d.digits * 10 ^ (1 - (d.digits.length : ℤ))

theorem mantissaText_writes {d : Decimal} (hd : d.coefficient ≠ 0) :
    Writes (mantissaText d.digits) (mantissaValue d) (d.digits.take 1) (d.digits.drop 1) where
  text_eq := rfl
  whole_ne_nil := by simp [Decimal.digits_ne_nil hd]
  whole_digits c hc := Decimal.isDigit_of_mem_digits (List.mem_of_mem_take hc)
  fraction_digits c hc := Decimal.isDigit_of_mem_digits (List.mem_of_mem_drop hc)
  value_eq := by
    have hpos : 0 < d.digits.length := List.length_pos_iff.mpr (Decimal.digits_ne_nil hd)
    rw [spelledValue, List.take_append_drop, mantissaValue, List.length_drop]
    congr 2
    omega

def exponentText (exponent : ℤ) : List Char :=
  'e' :: (if exponent < 0 then '-' else '+') :: Nat.toDigits 10 exponent.natAbs

theorem exponential_eq (digits : List Char) (order : ℤ) :
    exponential digits order = mantissaText digits ++ exponentText (order - 1) := by
  have hdrop : digits.drop 1 = [] ↔ digits.length ≤ 1 := List.drop_eq_nil_iff
  simp only [exponential, mantissaText, exponentText, spell, hdrop]

theorem mantissaValue_bounds {d : Decimal} (hd : d.coefficient ≠ 0) :
    1 ≤ mantissaValue d ∧ mantissaValue d < 10 := by
  have hpow : (0 : ℚ) < 10 ^ (1 - (d.digits.length : ℤ)) := zpow_pos (by norm_num) _
  obtain ⟨hlower, hupper⟩ := Decimal.digits_bounds hd
  constructor
  · calc (1 : ℚ) = 10 ^ ((d.digits.length : ℤ) - 1) * 10 ^ (1 - (d.digits.length : ℤ)) := by
          rw [← zpow_add₀ (by norm_num)]
          norm_num
      _ ≤ mantissaValue d := mul_le_mul_of_nonneg_right hlower hpow.le
  · calc mantissaValue d < 10 ^ (d.digits.length : ℤ) * 10 ^ (1 - (d.digits.length : ℤ)) :=
          mul_lt_mul_of_pos_right hupper hpow
      _ = 10 := by
          rw [← zpow_add₀ (by norm_num)]
          norm_num

theorem value_eq_mantissaValue (d : Decimal) : d.value = mantissaValue d * 10 ^ (d.order - 1) := by
  rw [Decimal.value_eq_digits, mantissaValue, mul_assoc, ← zpow_add₀ (by norm_num)]
  congr 2
  ring

/-- The written form of a decimal is scanned as a decimal of the same value. -/
theorem scan_renderDecimal {d : Decimal} (hd : d.coefficient ≠ 0) :
    ∃ d' : Decimal, scan (renderDecimal d) = some (⟨false, d'⟩, []) ∧ d'.value = d.value := by
  unfold renderDecimal
  split_ifs
  · obtain ⟨whole, fraction, hwrites⟩ := positional_writes hd
    obtain ⟨d', hscan, hvalue⟩ := hwrites.scan ends_nil
    refine ⟨d', by simpa [takeExponent_nil] using hscan, by simpa [takeExponent_nil] using hvalue⟩
  · have hends : Ends (exponentText (d.order - 1)) := by
      rintro c ⟨⟩
      decide
    obtain ⟨d', hscan, hvalue⟩ := (mantissaText_writes hd).scan hends
    rw [exponentText, takeExponent_signed] at hvalue
    rw [exponentText, takeExponent_signed, ← exponentText, ← exponential_eq] at hscan
    refine ⟨d', hscan, ?_⟩
    rw [hvalue, value_eq_mantissaValue]

theorem renderCode_eq {c : ℕ} (hzero : c ≠ 0) (hc : c < Binary64.infinityCode) :
    renderCode c = renderDecimal (Decimal.shortest c) := by
  simp [renderCode, hzero, hc]

theorem renderCode_writes {c : ℕ} (hc : c < Binary64.infinityCode) (hplain : 'e' ∉ renderCode c) :
    ∃ v whole fraction, Writes (renderCode c) v whole fraction := by
  by_cases hzero : c = 0
  · subst hzero
    exact ⟨_, _, _, toDigits_writes 0⟩
  · rw [renderCode_eq hzero hc, renderDecimal] at hplain ⊢
    split_ifs at hplain ⊢
    · exact ⟨_, positional_writes (Decimal.shortest_coefficient_ne_zero hzero hc)⟩
    · rw [exponential_eq] at hplain
      exact absurd (List.mem_append_right _ (List.mem_cons_self ..)) hplain

theorem renderCode_of_mem {c : ℕ} (hc : c < Binary64.infinityCode) (he : 'e' ∈ renderCode c) :
    c ≠ 0 ∧ renderCode c = exponential (Decimal.shortest c).digits (Decimal.shortest c).order ∧
      ((Decimal.shortest c).order < leastOrder ∨ greatestOrder < (Decimal.shortest c).order) := by
  have hzero : c ≠ 0 := by
    rintro rfl
    exact absurd he (by decide)
  refine ⟨hzero, ?_⟩
  rw [renderCode_eq hzero hc, renderDecimal] at he ⊢
  split_ifs at he ⊢ with hrange
  · obtain ⟨whole, fraction, hwrites⟩ :=
      positional_writes (Decimal.shortest_coefficient_ne_zero hzero hc)
    rcases hwrites.isLiteralChar _ he with h | h <;> exact absurd h (by decide)
  · simp only [Bool.and_eq_true, decide_eq_true_eq] at hrange
    exact ⟨rfl, by omega⟩

theorem scan_renderCode {c : ℕ} (hc : c < Binary64.infinityCode) :
    ∃ d : Decimal, scan (renderCode c) = some (⟨false, d⟩, []) ∧ d.code = c := by
  by_cases hzero : c = 0
  · subst hzero
    exact ⟨⟨0, 0⟩, by decide, by decide⟩
  · obtain ⟨d, hscan, hvalue⟩ := scan_renderDecimal (Decimal.shortest_coefficient_ne_zero hzero hc)
    refine ⟨d, by rw [renderCode_eq hzero hc, hscan], ?_⟩
    rw [Decimal.code_eq_of_value_eq hvalue, Decimal.shortest_code hzero hc]

/-- The written form of a finite magnitude is read as that magnitude. -/
theorem read?_renderCode {c : ℕ} (hc : c < Binary64.infinityCode) :
    Numeral.read? (String.ofList (renderCode c)) = some (Binary64.ofCode false c) := by
  obtain ⟨d, hscan, hcode⟩ := scan_renderCode hc
  simp only [Numeral.read?, String.toList_ofList, hscan, Numeral.value, hcode]

end Number

end DeskCalculator
