import DeskCalculator.Number.Decimal
import DeskCalculator.Proofs.Number.Nearest
import Mathlib.Algebra.Order.Field.Power
import Mathlib.Tactic.FieldSimp

/-! Decimals and the numbers nearest to them. The code of a decimal depends on its value alone, and the
shortest decimal of a finite number has the code of that number: seventeen digits are always enough. -/
namespace DeskCalculator.Decimal
open Binary64

/-- The magnitude that a decimal stands for. -/
def value (d : Decimal) : ℚ := d.coefficient * 10 ^ d.exponent

theorem tenTo_pos (e : ℤ) : 0 < tenTo e := Nat.pow_pos (by decide)

theorem tenTo_div (e : ℤ) : (tenTo e : ℚ) / tenTo (-e) = 10 ^ e := by
  have hten (k : ℤ) : (tenTo k : ℚ) = 10 ^ k.toNat := by
    simp [tenTo]
  rw [hten, hten]
  rcases Int.le_total 0 e with h | h
  · obtain ⟨n, rfl⟩ := Int.eq_ofNat_of_zero_le h
    simp
  · obtain ⟨n, hn⟩ := Int.eq_ofNat_of_zero_le (by omega : 0 ≤ -e)
    obtain rfl : e = -(n : ℤ) := by omega
    simp

theorem ten_zpow_mul_tenTo (e : ℤ) : (10 : ℚ) ^ e * tenTo (-e) = tenTo e := by
  have hpos : (0 : ℚ) < tenTo (-e) := by exact_mod_cast tenTo_pos (-e)
  rw [← tenTo_div e, div_mul_cancel₀ _ hpos.ne']

theorem quotient_value (d : Decimal) : (d.quotient.1 : ℚ) / d.quotient.2 = d.value := by
  simp only [quotient, value, Nat.cast_mul]
  rw [mul_div_assoc, tenTo_div]

theorem digitCount_pos (n : ℕ) : 0 < digitCount n := Nat.length_toDigits_pos

theorem lt_ten_pow_digitCount (n : ℕ) : n < 10 ^ digitCount n :=
  (Nat.length_toDigits_le_iff (by decide) (digitCount_pos n)).mp le_rfl

theorem ten_pow_le_of_ne_zero {n : ℕ} (hn : n ≠ 0) : 10 ^ (digitCount n - 1) ≤ n := by
  by_cases hone : digitCount n = 1
  · rw [hone]
    omega
  · have hpos := digitCount_pos n
    by_contra! hlt
    have hle := (Nat.length_toDigits_le_iff (b := 10) (by decide) (by omega)).mpr hlt
    change digitCount n ≤ digitCount n - 1 at hle
    omega

theorem value_bounds {d : Decimal} (hd : d.coefficient ≠ 0) :
    10 ^ (d.order - 1) ≤ d.value ∧ d.value < 10 ^ d.order := by
  have hpow : (0 : ℚ) < 10 ^ d.exponent := zpow_pos (by norm_num) _
  have hcount := digitCount_pos d.coefficient
  have hlower : (10 : ℚ) ^ (digitCount d.coefficient - 1) ≤ d.coefficient := by
    exact_mod_cast ten_pow_le_of_ne_zero hd
  have hupper : (d.coefficient : ℚ) < 10 ^ digitCount d.coefficient := by
    exact_mod_cast lt_ten_pow_digitCount d.coefficient
  constructor
  · have horder : d.order - 1 = ((digitCount d.coefficient - 1 : ℕ) : ℤ) + d.exponent := by
      unfold order
      omega
    rw [horder, zpow_add₀ (by norm_num), zpow_natCast, value]
    exact mul_le_mul_of_nonneg_right hlower hpow.le
  · rw [order, zpow_add₀ (by norm_num), zpow_natCast, value]
    exact mul_lt_mul_of_pos_right hupper hpow

theorem units_infinityCode : units infinityCode = 2 ^ 1024 * 2 ^ unitPlaces := by
  have h : units (2046 * 2 ^ 52 + 2 ^ 52) = 2 ^ 52 * 2 ^ 2046 :=
    units_of_parts (by norm_num) (Or.inr le_rfl)
  rw [← pow_add] at h ⊢
  exact h.trans (congrArg (2 ^ ·) rfl)

/-- The powers of two between the smallest and the greatest finite magnitude are compared with powers of
ten in blocks of 28 places. -/
theorem two_pow_le_ten_pow : (2 : ℚ) ^ 1023 ≤ 10 ^ 308 := by
  have hblock : (2 : ℚ) ^ 93 ≤ 10 ^ 28 := by norm_num
  calc (2 : ℚ) ^ 1023 = (2 ^ 93) ^ 11 := by rw [← pow_mul]
    _ ≤ (10 ^ 28) ^ 11 := pow_le_pow_left₀ (by positivity) hblock 11
    _ = 10 ^ 308 := by rw [← pow_mul]

theorem infinity_le_ten_pow : (2 : ℚ) ^ 1024 ≤ 10 ^ (310 : ℤ) := by
  calc (2 : ℚ) ^ 1024 = 2 ^ 1023 * 2 := pow_succ 2 1023
    _ ≤ 10 ^ 308 * 10 ^ 2 := mul_le_mul two_pow_le_ten_pow (by norm_num) (by norm_num) (by positivity)
    _ = 10 ^ (310 : ℤ) := (pow_add 10 308 2).symm

theorem ten_pow_lt_half_unit : (10 : ℚ) ^ (-330 : ℤ) * 2 ^ unitPlaces < 1 / 2 := by
  have hten : (2 : ℚ) ^ unitPlaces * 2 < 10 ^ 330 := by
    calc (2 : ℚ) ^ unitPlaces * 2 = 2 ^ 1023 * 2 ^ 52 := by
          rw [← pow_succ, ← pow_add]
          rfl
      _ < 10 ^ 308 * 10 ^ 22 :=
          mul_lt_mul' two_pow_le_ten_pow (by norm_num) (by positivity) (by positivity)
      _ = 10 ^ 330 := (pow_add 10 308 22).symm
  have hneg : (10 : ℚ) ^ (-330 : ℤ) = (10 ^ 330)⁻¹ := zpow_neg 10 330
  rwa [hneg, inv_mul_lt_iff₀ (by positivity), mul_one_div, lt_div_iff₀ (by norm_num)]

theorem infinity_le_of_large_order {d : Decimal} (hd : d.coefficient ≠ 0) (horder : 310 < d.order) :
    ((units infinityCode : ℕ) : ℚ) ≤ d.value * 2 ^ unitPlaces := by
  have hbound : (10 : ℚ) ^ (310 : ℤ) ≤ d.value :=
    le_trans (zpow_le_zpow_right₀ (by norm_num) (by omega)) (value_bounds hd).1
  calc ((units infinityCode : ℕ) : ℚ) = 2 ^ 1024 * 2 ^ unitPlaces := by
        rw [units_infinityCode, Nat.cast_mul, Nat.cast_pow, Nat.cast_pow, Nat.cast_ofNat]
    _ ≤ d.value * 2 ^ unitPlaces :=
        mul_le_mul_of_nonneg_right (infinity_le_ten_pow.trans hbound) (by positivity)

theorem nearest_zero_of_small_order {d : Decimal} (hd : d.coefficient ≠ 0) (horder : d.order < -330) :
    Nearest (d.value * 2 ^ unitPlaces) 0 := by
  have hbound : d.value < 10 ^ (-330 : ℤ) :=
    lt_of_lt_of_le (value_bounds hd).2 (zpow_le_zpow_right₀ (by norm_num) (by omega))
  have hhalf : halfway 0 = 1 / 2 := by
    rw [halfway_eq]
    norm_num [binade]
  have hlt : d.value * 2 ^ unitPlaces < halfway 0 := by
    rw [hhalf]
    exact lt_of_le_of_lt (mul_le_mul_of_nonneg_right hbound.le (by positivity)) ten_pow_lt_half_unit
  exact ⟨fun e he => by omega, Or.inl hlt⟩

/-- The code of a decimal is the nearest one; the bounds on its order, which keep the powers of ten small,
leave out nothing. -/
theorem code_nearest (d : Decimal) :
    ∃ c, Nearest (d.value * 2 ^ unitPlaces) c ∧ d.code = min c infinityCode := by
  obtain ⟨c, hc, hcode⟩ := codeOfQuotient_nearest d.quotient.1 (tenTo_pos (-d.exponent))
  have hvalue : (d.quotient.1 : ℚ) * 2 ^ unitPlaces / tenTo (-d.exponent) = d.value * 2 ^ unitPlaces := by
    rw [mul_div_right_comm, ← quotient_value]
    rfl
  rw [hvalue] at hc
  refine ⟨c, hc, ?_⟩
  unfold code
  split_ifs with hzero hlarge hsmall
  · have hnone : d.value * 2 ^ unitPlaces = (units 0 : ℕ) := by simp [value, hzero]
    rw [hnone] at hc
    rw [hc.eq_of_units, Nat.zero_min]
  · have hle : infinityCode ≤ c := hc.ge_of_units_le (infinity_le_of_large_order hzero hlarge)
    rw [Nat.min_eq_right hle]
  · rw [hc.unique (nearest_zero_of_small_order hzero hsmall), Nat.zero_min]
  · exact hcode

theorem code_eq_of_value_eq {d d' : Decimal} (h : d.value = d'.value) : d.code = d'.code := by
  obtain ⟨c, hc, hcode⟩ := code_nearest d
  obtain ⟨c', hc', hcode'⟩ := code_nearest d'
  rw [← h] at hc'
  rw [hcode, hcode', hc.unique hc']

theorem code_eq_of_nearest {d : Decimal} {c : ℕ} (h : Nearest (d.value * 2 ^ unitPlaces) c)
    (hc : c ≤ infinityCode) : d.code = c := by
  obtain ⟨c', hc', hcode⟩ := code_nearest d
  rw [hcode, hc'.unique h, Nat.min_eq_left hc]

theorem nearest_of_code_lt {d : Decimal} (h : d.code < infinityCode) :
    Nearest (d.value * 2 ^ unitPlaces) d.code := by
  obtain ⟨c, hc, hcode⟩ := code_nearest d
  have hmin : d.code = c := by omega
  rwa [hmin]

theorem orderOfQuotient_bounds {num den : ℕ} (hnum : 0 < num) (hden : 0 < den) :
    (10 : ℚ) ^ (orderOfQuotient num den - 1) ≤ num / den ∧
      (num : ℚ) / den < 10 ^ orderOfQuotient num den := by
  have hnumq : (0 : ℚ) < num := by exact_mod_cast hnum
  have hdenq : (0 : ℚ) < den := by exact_mod_cast hden
  unfold orderOfQuotient
  split_ifs with h
  · -- From one on the order is the number of digits before the point.
    set q := num / den with hq
    have hqpos : q ≠ 0 := (Nat.div_pos h hden).ne'
    have hcount := digitCount_pos q
    constructor
    · have hexp : (digitCount q : ℤ) - 1 = ((digitCount q - 1 : ℕ) : ℤ) := by omega
      rw [hexp, zpow_natCast, le_div_iff₀ hdenq]
      have hle : 10 ^ (digitCount q - 1) * den ≤ num :=
        le_trans (Nat.mul_le_mul_right den (ten_pow_le_of_ne_zero hqpos)) (Nat.div_mul_le_self num den)
      exact_mod_cast hle
    · rw [zpow_natCast, div_lt_iff₀ hdenq]
      have hlt : num < 10 ^ digitCount q * den := by
        calc num < (q + 1) * den := Nat.lt_mul_of_div_lt (Nat.lt_succ_self q) hden
          _ ≤ 10 ^ digitCount q * den := Nat.mul_le_mul_right den (lt_ten_pow_digitCount q)
      exact_mod_cast hlt
  · -- Below one it is the inverse whose digits are counted.
    set p := (den - 1) / num with hp
    have hppos : p ≠ 0 := (Nat.div_pos (by omega) hnum).ne'
    have hcount := digitCount_pos p
    constructor
    · have hexp : 1 - (digitCount p : ℤ) - 1 = -(digitCount p : ℤ) := by ring
      rw [hexp, zpow_neg, zpow_natCast, inv_le_comm₀ (by positivity) (by positivity), inv_div,
        div_le_iff₀ hnumq]
      have hle : den ≤ 10 ^ digitCount p * num := by
        have hlt : den - 1 < (p + 1) * num := Nat.lt_mul_of_div_lt (Nat.lt_succ_self p) hnum
        have hpow : (p + 1) * num ≤ 10 ^ digitCount p * num :=
          Nat.mul_le_mul_right num (lt_ten_pow_digitCount p)
        omega
      exact_mod_cast hle
    · have hexp : 1 - (digitCount p : ℤ) = -((digitCount p - 1 : ℕ) : ℤ) := by omega
      rw [hexp, zpow_neg, zpow_natCast, lt_inv_comm₀ (by positivity) (by positivity), inv_div,
        lt_div_iff₀ hnumq]
      have hlt : 10 ^ (digitCount p - 1) * num < den := by
        have hle : 10 ^ (digitCount p - 1) * num ≤ p * num :=
          Nat.mul_le_mul_right num (ten_pow_le_of_ne_zero hppos)
        have hdiv : p * num ≤ den - 1 := Nat.div_mul_le_self (den - 1) num
        omega
      exact_mod_cast hlt

theorem readBack?_code {c : ℕ} {e : ℤ} {d : Decimal} (h : readBack? c e = some d) : d.code = c := by
  simp only [readBack?] at h
  split_ifs at h <;> simp_all

theorem nearest_exponent (c : ℕ) (e : ℤ) : (nearest c e).exponent = e := rfl

theorem nearest_value (c : ℕ) (e : ℤ) :
    |(nearest c e).value * 2 ^ unitPlaces - units c| ≤ 10 ^ e * 2 ^ unitPlaces / 2 := by
  set num := units c * tenTo (-e) with hnum
  set den := tenTo e <<< unitPlaces with hden
  have hdeneq : (den : ℚ) = tenTo e * 2 ^ unitPlaces := by
    rw [hden, Nat.shiftLeft_eq]
    push_cast
    rfl
  have hdenpos : 0 < den := by
    rw [hden, Nat.shiftLeft_eq]
    exact Nat.mul_pos (tenTo_pos e) (Nat.two_pow_pos _)
  have hdenq : (0 : ℚ) < den := by exact_mod_cast hdenpos
  have hrest : num % den < den := Nat.mod_lt _ hdenpos
  have hrestq : ((num % den : ℕ) : ℚ) < den := by exact_mod_cast hrest
  have hsplit : (num : ℚ) = den * (num / den : ℕ) + (num % den : ℕ) := by
    exact_mod_cast (Nat.div_add_mod num den).symm
  -- In units of the quotient the error is at most a half.
  have herror : |((nearest c e).coefficient : ℚ) * den - num| ≤ den / 2 := by
    simp only [nearest, scaled, ← hnum, ← hden]
    rw [abs_le]
    split_ifs with h
    · have hq : 2 * ((num % den : ℕ) : ℚ) < den := by exact_mod_cast h
      have hnonneg : (0 : ℚ) ≤ (num % den : ℕ) := Nat.cast_nonneg _
      constructor <;> linarith
    · have hq : (den : ℚ) ≤ 2 * ((num % den : ℕ) : ℚ) := by exact_mod_cast not_lt.mp h
      push_cast
      constructor <;> linarith
  have htenpos : (0 : ℚ) < tenTo (-e) := by exact_mod_cast tenTo_pos (-e)
  have hpow := ten_zpow_mul_tenTo e
  have hscale : ((nearest c e).value * 2 ^ unitPlaces - units c) * tenTo (-e)
      = (nearest c e).coefficient * den - num := by
    rw [value, nearest_exponent, hdeneq, hnum, ← hpow]
    push_cast
    ring
  have hscaled : |(nearest c e).value * 2 ^ unitPlaces - units c| * tenTo (-e)
      ≤ 10 ^ e * 2 ^ unitPlaces / 2 * tenTo (-e) := by
    calc |(nearest c e).value * 2 ^ unitPlaces - units c| * tenTo (-e)
        = |((nearest c e).value * 2 ^ unitPlaces - units c) * tenTo (-e)| := by
          rw [abs_mul, abs_of_pos htenpos]
      _ ≤ den / 2 := by
          rw [hscale]
          exact herror
      _ = 10 ^ e * 2 ^ unitPlaces / 2 * tenTo (-e) := by
          rw [hdeneq, ← hpow]
          ring
  exact le_of_mul_le_mul_right hscaled htenpos

theorem nearest_seventeen_digits {c : ℕ} (hzero : c ≠ 0) (hinf : c < infinityCode) :
    (nearest c (orderOfQuotient (units c) (1 <<< unitPlaces) - maxDigits)).code = c := by
  set o := orderOfQuotient (units c) (1 <<< unitPlaces) with ho
  have hunits : 0 < units c := units_strictMono (Nat.pos_of_ne_zero hzero)
  have hscale : ((1 <<< unitPlaces : ℕ) : ℚ) = 2 ^ unitPlaces := by
    rw [Nat.shiftLeft_eq, one_mul]
    push_cast
    rfl
  have hdenpos : 0 < 1 <<< unitPlaces := by
    rw [Nat.shiftLeft_eq]
    positivity
  have hlower := (orderOfQuotient_bounds hunits hdenpos).1
  rw [hscale, le_div_iff₀ (by positivity), ← ho] at hlower
  apply code_eq_of_nearest _ hinf.le
  apply nearest_of_abs_sub_lt
  have herror := nearest_value c (o - maxDigits)
  have hpow : (10 : ℚ) ^ (o - maxDigits) = 10 ^ (o - 1) / 10 ^ 16 := by
    have hexp : o - (maxDigits : ℤ) = o - 1 - (16 : ℕ) := by
      unfold maxDigits
      omega
    rw [hexp, zpow_sub₀ (by norm_num), zpow_natCast]
  rw [hpow] at herror
  have hpos : (0 : ℚ) < 10 ^ (o - 1) * 2 ^ unitPlaces :=
    mul_pos (zpow_pos (by norm_num) _) (by positivity)
  have hdigits : (2 : ℚ) ^ 53 / 10 ^ 16 < 1 := by norm_num
  calc |(nearest c (o - maxDigits)).value * 2 ^ unitPlaces - units c| * 2 ^ 54
      ≤ 10 ^ (o - 1) / 10 ^ 16 * 2 ^ unitPlaces / 2 * 2 ^ 54 :=
        mul_le_mul_of_nonneg_right herror (by positivity)
    _ = 10 ^ (o - 1) * 2 ^ unitPlaces * (2 ^ 53 / 10 ^ 16) := by ring
    _ < 10 ^ (o - 1) * 2 ^ unitPlaces * 1 := mul_lt_mul_of_pos_left hdigits hpos
    _ ≤ units c := by rwa [mul_one]

/-- The shortest decimal of a finite number is read back as that number. -/
theorem shortest_code {c : ℕ} (hzero : c ≠ 0) (hinf : c < infinityCode) : (shortest c).code = c := by
  simp only [shortest]
  -- Fewer digits are only taken if they are read back.
  cases hfound : (List.range (maxDigits - 1)).findSome? fun n =>
      readBack? c (orderOfQuotient (units c) (1 <<< unitPlaces) - (n + 1 : ℕ)) with
  | none => exact nearest_seventeen_digits hzero hinf
  | some d =>
    obtain ⟨n, -, hn⟩ := List.exists_of_findSome?_eq_some hfound
    exact readBack?_code hn

theorem shortest_nearest {c : ℕ} (hzero : c ≠ 0) (hinf : c < infinityCode) :
    Nearest ((shortest c).value * 2 ^ unitPlaces) c := by
  have hcode := shortest_code hzero hinf
  have hlt : (shortest c).code < infinityCode := by rwa [hcode]
  have hnear := nearest_of_code_lt hlt
  rwa [hcode] at hnear

theorem shortest_coefficient_ne_zero {c : ℕ} (hzero : c ≠ 0) (hinf : c < infinityCode) :
    (shortest c).coefficient ≠ 0 := by
  intro h
  have hcode := shortest_code hzero hinf
  rw [code, if_pos h] at hcode
  exact hzero hcode.symm

end DeskCalculator.Decimal
