import DeskCalculator.Proofs.Expression.Shown
import Mathlib.Tactic.IntervalCases

/-! A number that is shown with an exponent does not evaluate to itself: without its letter the text is
the sum of a number from one to ten and of the exponent, and that sum is never written the same way. Most
exponents put the sum far from the number. Only the exponents from minus seven to minus nine can make it
small enough, and there the distance of the two cannot be as little as rounding allows. -/
namespace DeskCalculator.Number
open Binary64

def exponentSign (exponent : ℤ) : Operator := if exponent < 0 then .minus else .plus

theorem exponentSign_eq (exponent : ℤ) :
    exponentSign exponent = .plus ∨ exponentSign exponent = .minus := by
  unfold exponentSign
  split_ifs
  · exact Or.inr rfl
  · exact Or.inl rfl

theorem exponentText_eq (exponent : ℤ) :
    exponentText exponent
      = 'e' :: (exponentSign exponent).symbol :: Nat.toDigits 10 exponent.natAbs := by
  unfold exponentText exponentSign
  split_ifs <;> rfl

theorem shortest_order_bounds {c : ℕ} (hzero : c ≠ 0) (hc : c < infinityCode) :
    -330 ≤ (Decimal.shortest c).order ∧ (Decimal.shortest c).order ≤ 310 := by
  have hcode := Decimal.shortest_code hzero hc
  have hcoefficient := Decimal.shortest_coefficient_ne_zero hzero hc
  rw [Decimal.code, if_neg hcoefficient] at hcode
  split_ifs at hcode with hlarge hsmall
  · omega
  · omega
  · exact ⟨not_lt.mp hsmall, not_lt.mp hlarge⟩

theorem nearest_of_value_le {d : Decimal} {n : ℕ} (hn : n ≠ 0) (hlt : n < 2 ^ 53) (h : d.value ≤ n) :
    d.code < infinityCode ∧ Nearest (d.value * 2 ^ unitPlaces) d.code := by
  obtain ⟨k, hk, hunits⟩ := exists_units_eq hn hlt
  obtain ⟨c, hc, hcode⟩ := Decimal.code_nearest d
  have hle : c ≤ k := by
    refine hc.le_of_le_units ?_
    rw [hunits]
    exact mul_le_mul_of_nonneg_right h (by positivity)
  have hfinite : d.code < infinityCode := by omega
  exact ⟨hfinite, Decimal.nearest_of_code_lt hfinite⟩

theorem units_code_of_value_eq {d : Decimal} {n : ℕ} (hn : n ≠ 0) (hlt : n < 2 ^ 53)
    (h : d.value = n) : d.code < infinityCode ∧ (units d.code : ℚ) = n * 2 ^ unitPlaces := by
  obtain ⟨k, hk, hunits⟩ := exists_units_eq hn hlt
  have hnear : Nearest (d.value * 2 ^ unitPlaces) k := by
    rw [h, ← hunits]
    exact nearest_units k
  rw [Decimal.code_eq_of_nearest hnear hk.le]
  exact ⟨hk, hunits⟩

theorem withSign_false (x : Float) : withSign false x = x := rfl

theorem signedUnits_withSign (negative : Bool) {c : ℕ} (hc : c < infinityCode) :
    code (withSign negative (ofCode false c)) < infinityCode ∧
      signedUnits (withSign negative (ofCode false c))
        = if negative then -(units c : ℚ) else units c := by
  obtain ⟨hsign, hcode⟩ := parts_withSign negative hc.le
  unfold signedUnits
  rw [hsign, hcode]
  exact ⟨hc, rfl⟩

/-- What is evaluated of a number with an exponent: the sum of the digits before the exponent, which
keep the sign of the number, and of the exponent itself. -/
theorem evaluate_exponent {x w : Float} (hx : code x < infinityCode) (he : 'e' ∈ renderCode (code x))
    (heval : evaluate (render x) = .ok w) :
    ∃ m, Nearest (mantissaValue (Decimal.shortest (code x)) * 2 ^ unitPlaces) m ∧
      RoundsTo ((if isNegative x then -(units m : ℚ) else units m)
        + ((Decimal.shortest (code x)).order - 1 : ℤ) * 2 ^ unitPlaces) w := by
  obtain ⟨hzero, htext, hrange⟩ := renderCode_of_mem hx he
  set d := Decimal.shortest (code x) with hd
  have hcoefficient : d.coefficient ≠ 0 := Decimal.shortest_coefficient_ne_zero hzero hx
  have horder := shortest_order_bounds hzero hx
  rw [← hd] at horder
  set exponent := d.order - 1 with hexponent
  have habs : exponent.natAbs ≠ 0 ∧ exponent.natAbs < 2 ^ 53 := by
    simp only [leastOrder, greatestOrder] at hrange
    omega
  have hmantissa := mantissaText_writes hcoefficient
  have hdigits := Numeral.toDigits_writes exponent.natAbs
  obtain ⟨left, hleft, hleftValue⟩ := hmantissa.read
  obtain ⟨right, hright, hrightValue⟩ := hdigits.read
  obtain ⟨hleftFinite, hleftNear⟩ := nearest_of_value_le (by norm_num) (by norm_num)
    (show left.value ≤ (10 : ℕ) by
      rw [hleftValue]
      exact_mod_cast (mantissaValue_bounds hcoefficient).2.le)
  obtain ⟨hrightFinite, hrightUnits⟩ := units_code_of_value_eq habs.1 habs.2 hrightValue
  -- The text without its letter.
  have htokens := @Token.ofText_sum (isNegative x) _ _ 'e' (exponentSign exponent) hmantissa.ne_nil
    (isLiteralChar_of_writes hmantissa) hdigits.ne_nil (isLiteralChar_of_writes hdigits) (by decide)
  have hsign : (isNegative x && decide (0 < code x)) = isNegative x := by
    rw [decide_eq_true (Nat.pos_of_ne_zero hzero), Bool.and_true]
  rw [← exponentText_eq, ← exponential_eq, ← htext, ← hsign, ← render_eq hx, hsign] at htokens
  have hsum := evaluate_of_sum htokens (exponentSign_eq exponent) hleft hright heval
  -- The sum is rounded once.
  obtain ⟨hxFinite, hxUnits⟩ := signedUnits_withSign (isNegative x) hleftFinite
  obtain ⟨hyFinite, hyUnits⟩ := signedUnits_withSign false hrightFinite
  rw [withSign_false] at hyFinite hyUnits
  rw [if_neg Bool.false_ne_true, hrightUnits] at hyUnits
  refine ⟨left.code, by rwa [hleftValue] at hleftNear, ?_⟩
  rw [← hxUnits]
  unfold exponentSign at hsum
  split_ifs at hsum with hneg
  · obtain ⟨rfl, -⟩ := Arithmetic.finite_eq_ok_iff.mp hsum
    have hrounds := roundsTo_sub hxFinite hyFinite
    rwa [hyUnits, Nat.cast_natAbs, abs_of_neg hneg, Int.cast_neg, neg_mul, sub_neg_eq_add] at hrounds
  · obtain ⟨rfl, -⟩ := Arithmetic.finite_eq_ok_iff.mp hsum
    have hrounds := roundsTo_add hxFinite hyFinite
    rwa [hyUnits, Nat.cast_natAbs, abs_of_nonneg (not_lt.mp hneg)] at hrounds

theorem units_le_of_nearest {y : ℚ} {c n : ℕ} (hc : Nearest y c) (hn : n ≠ 0) (hlt : n < 2 ^ 53)
    (h : y ≤ n * 2 ^ unitPlaces) : (units c : ℚ) ≤ n * 2 ^ unitPlaces := by
  obtain ⟨k, -, hk⟩ := exists_units_eq hn hlt
  have hle : c ≤ k := hc.le_of_le_units (h.trans_eq hk.symm)
  rw [← hk]
  exact_mod_cast units_strictMono.monotone hle

theorem le_units_of_nearest {y : ℚ} {c n : ℕ} (hc : Nearest y c) (hn : n ≠ 0) (hlt : n < 2 ^ 53)
    (h : n * 2 ^ unitPlaces ≤ y) : n * 2 ^ unitPlaces ≤ (units c : ℚ) := by
  obtain ⟨k, -, hk⟩ := exists_units_eq hn hlt
  have hle : k ≤ c := hc.ge_of_units_le (hk.trans_le h)
  rw [← hk]
  exact_mod_cast units_strictMono.monotone hle

def stepPlaces : ℕ := 1024

def tinyPlaces : ℕ := 1003

/-- A number between seven and ten is a multiple of `2 ^ -50`, and at most that far from what it was
rounded from. -/
theorem steps_of_nearest {y : ℚ} {m : ℕ} (hm : Nearest y m) (hy : 0 ≤ y)
    (hlower : 7 * 2 ^ unitPlaces ≤ (units m : ℚ)) (hupper : (units m : ℚ) ≤ 10 * 2 ^ unitPlaces) :
    ∃ j : ℕ, (units m : ℚ) = j * 2 ^ stepPlaces ∧ |y - j * 2 ^ stepPlaces| ≤ 2 ^ stepPlaces := by
  have hplaces : (2 : ℚ) ^ unitPlaces = 2 ^ 50 * 2 ^ stepPlaces := pow_add 2 50 stepPlaces
  have hV : (0 : ℚ) < 2 ^ stepPlaces := by positivity
  rw [hplaces] at hlower hupper
  -- From seven to ten there are two binades.
  have hbinLower : stepPlaces ≤ binade m := by
    by_contra! hlt
    have hunits : (units m : ℚ) < 2 ^ 53 * 2 ^ binade m := by exact_mod_cast units_lt m
    have hpow : (2 : ℚ) ^ binade m * 2 ≤ 2 ^ stepPlaces := by
      rw [← pow_succ]
      exact pow_le_pow_right₀ (by norm_num) hlt
    linarith
  have hbinUpper : binade m ≤ stepPlaces + 1 := by
    by_contra! hlt
    have hunits : (2 : ℚ) ^ 52 * 2 ^ binade m ≤ units m := by
      exact_mod_cast units_ge_of_binade_pos (by omega : binade m ≠ 0)
    have hpow : (2 : ℚ) ^ stepPlaces * 2 ^ 2 ≤ 2 ^ binade m := by
      rw [← pow_add]
      exact pow_le_pow_right₀ (by norm_num) hlt
    linarith
  obtain ⟨i, hi⟩ : ∃ i, binade m = stepPlaces + i := ⟨binade m - stepPlaces, by omega⟩
  have hsteps : (units m : ℚ) = (mantissa m * 2 ^ i : ℕ) * 2 ^ stepPlaces := by
    rw [units_eq, hi, pow_add]
    push_cast
    ring
  refine ⟨mantissa m * 2 ^ i, hsteps, ?_⟩
  rw [← hsteps]
  have hpow : (2 : ℚ) ^ binade m ≤ 2 ^ stepPlaces * 2 := by
    rw [← pow_succ]
    exact pow_le_pow_right₀ (by norm_num) hbinUpper
  have herror := hm.abs_sub_le hy
  linarith

theorem abs_sub_le_of_nearest {y z : ℚ} {c : ℕ} (hy : Nearest y c) (hz : Nearest z c) (hy0 : 0 ≤ y)
    (hz0 : 0 ≤ z) (hsmall : y * 10 ^ 6 ≤ 2 ^ unitPlaces) : |y - z| * 2 ^ 21 ≤ 2 ^ stepPlaces := by
  have hc : c ≤ tinyPlaces * 2 ^ 52 + 2 ^ 52 := by
    refine hy.le_of_le_units ?_
    have hunits : units (tinyPlaces * 2 ^ 52 + 2 ^ 52) = 2 ^ 52 * 2 ^ tinyPlaces :=
      units_of_parts (by norm_num) (Or.inr le_rfl)
    have hplaces : (2 : ℚ) ^ unitPlaces = 2 ^ 71 * 2 ^ tinyPlaces := pow_add 2 71 tinyPlaces
    have hpow : (0 : ℚ) < 2 ^ tinyPlaces := by positivity
    rw [hplaces] at hsmall
    rw [hunits, Nat.cast_mul, Nat.cast_pow, Nat.cast_pow, Nat.cast_ofNat]
    linarith
  have hbinade : binade c ≤ tinyPlaces := by
    rw [binade_eq]
    omega
  have hpow : (2 : ℚ) ^ binade c ≤ 2 ^ tinyPlaces := pow_le_pow_right₀ (by norm_num) hbinade
  have hshift : (2 : ℚ) ^ stepPlaces = 2 ^ tinyPlaces * 2 ^ 21 := pow_add 2 tinyPlaces 21
  have hyerror := abs_le.mp (hy.abs_sub_le hy0)
  have hzerror := abs_le.mp (hz.abs_sub_le hz0)
  have hdistance : |y - z| ≤ 2 ^ tinyPlaces := by
    rw [abs_le]
    constructor <;> linarith [hyerror.1, hyerror.2, hzerror.1, hzerror.2]
  rw [hshift]
  exact mul_le_mul_of_nonneg_right hdistance (by positivity)

/-- The three exponents that make the sum small enough do not make it the number: with `j` steps of
`2 ^ -50` in the first summand, the two would differ by fewer than 478 steps after the point has been
moved, and no whole number of steps does that. -/
theorem no_steps {j k : ℤ} {t : ℕ} (ht : 7 ≤ t ∧ t ≤ 9) (hk : j = k + t * 2 ^ 50) :
    478 < |k * 10 ^ t - j| := by
  subst hk
  obtain ⟨hlower, hupper⟩ := ht
  interval_cases t <;> rw [lt_abs] <;> omega

theorem no_near_sum {v step : ℚ} {j t : ℕ} (hstep : 0 < step) (ht : 7 ≤ t ∧ t ≤ 9)
    (hfirst : |v * (2 ^ 50 * step) - j * step| ≤ step)
    (hnear : |v / 10 ^ t * (2 ^ 50 * step) - (j * step - t * (2 ^ 50 * step))| * 2 ^ 21 ≤ step) :
    False := by
  have hp : (0 : ℚ) < 10 ^ t := by positivity
  have hpupper : (10 : ℚ) ^ t ≤ 10 ^ 9 := pow_le_pow_right₀ (by norm_num) ht.2
  have hrounded : |v * 2 ^ 50 - j| ≤ 1 := by
    have hscale : v * (2 ^ 50 * step) - j * step = (v * 2 ^ 50 - j) * step := by ring
    rw [hscale, abs_mul, abs_of_pos hstep] at hfirst
    exact (mul_le_iff_le_one_left hstep).mp hfirst
  have hmoved : |v * 2 ^ 50 - ((j : ℚ) - t * 2 ^ 50) * 10 ^ t| * 2 ^ 21 ≤ 10 ^ t := by
    have hscale : v / 10 ^ t * (2 ^ 50 * step) - (j * step - t * (2 ^ 50 * step))
        = (v * 2 ^ 50 - ((j : ℚ) - t * 2 ^ 50) * 10 ^ t) / 10 ^ t * step := by
      field_simp
    rw [hscale, abs_mul, abs_div, abs_of_pos hstep, abs_of_pos hp, mul_right_comm] at hnear
    have hquotient := (mul_le_iff_le_one_left hstep).mp hnear
    rwa [div_mul_eq_mul_div, div_le_one hp] at hquotient
  have hsteps : 478 < |((j : ℤ) - t * 2 ^ 50) * 10 ^ t - j| := no_steps ht (by ring)
  have hfar := (Int.cast_lt (R := ℚ)).mpr hsteps
  simp only [Int.cast_abs, Int.cast_sub, Int.cast_mul, Int.cast_pow, Int.cast_natCast,
    Int.cast_ofNat] at hfar
  have htriangle := abs_sub_le (((j : ℚ) - t * 2 ^ 50) * 10 ^ t) (v * 2 ^ 50) (j : ℚ)
  rw [abs_sub_comm _ (v * 2 ^ 50)] at htriangle
  linarith

theorem small_exponent {v : ℚ} {m c t : ℕ} (ht : 7 ≤ t ∧ t ≤ 9) (hv : 0 ≤ v) (hv10 : v ≤ 10)
    (hm : Nearest (v * 2 ^ unitPlaces) m) (hpos : t * 2 ^ unitPlaces < (units m : ℚ))
    (hupper : (units m : ℚ) ≤ 10 * 2 ^ unitPlaces)
    (hshown : Nearest (v / 10 ^ t * 2 ^ unitPlaces) c)
    (hsum : Nearest (units m - t * 2 ^ unitPlaces) c) : False := by
  have hplaces : (2 : ℚ) ^ unitPlaces = 2 ^ 50 * 2 ^ stepPlaces := pow_add 2 50 stepPlaces
  have hU : (0 : ℚ) < 2 ^ unitPlaces := by positivity
  have hV : (0 : ℚ) < 2 ^ stepPlaces := by positivity
  have hp : (0 : ℚ) < 10 ^ t := by positivity
  have hplower : (10 : ℚ) ^ 7 ≤ 10 ^ t := pow_le_pow_right₀ (by norm_num) ht.1
  have htq : (7 : ℚ) ≤ t := by exact_mod_cast ht.1
  have hlower : 7 * 2 ^ unitPlaces ≤ (units m : ℚ) :=
    le_trans (mul_le_mul_of_nonneg_right htq hU.le) hpos.le
  -- The first summand is a whole number of steps, and the sum is so small that it is exact to a few bits more.
  obtain ⟨j, hj, hjerror⟩ := steps_of_nearest hm (by positivity) hlower hupper
  have hquotient : v / 10 ^ t * 10 ^ 6 ≤ 1 := by
    rw [div_mul_eq_mul_div, div_le_one hp]
    linarith
  have hsmall : v / 10 ^ t * 2 ^ unitPlaces * 10 ^ 6 ≤ 2 ^ unitPlaces := by
    calc v / 10 ^ t * 2 ^ unitPlaces * 10 ^ 6 = v / 10 ^ t * 10 ^ 6 * 2 ^ unitPlaces := by ring
      _ ≤ 1 * 2 ^ unitPlaces := mul_le_mul_of_nonneg_right hquotient hU.le
      _ = 2 ^ unitPlaces := one_mul _
  have hnear := abs_sub_le_of_nearest hshown hsum (by positivity) (by linarith) hsmall
  rw [hplaces] at hjerror
  rw [hj, hplaces] at hnear
  exact no_near_sum hV ht hjerror hnear

theorem negative_small_exponent {v s : ℚ} {c : ℕ} {exponent : ℤ} (hexponent : exponent ≤ -7) (hv : v ≤ 1)
    (hs : s ≤ -2 ^ unitPlaces) (hshown : Nearest (v * 2 ^ unitPlaces) c)
    (hsum : Nearest |s + exponent * 2 ^ unitPlaces| c) : False := by
  have hU : (0 : ℚ) < 2 ^ unitPlaces := by positivity
  have hexponentq : (exponent : ℚ) ≤ -7 := by exact_mod_cast hexponent
  have hproduct := mul_le_mul_of_nonneg_right hexponentq hU.le
  have hvalue : v ≤ (1 : ℕ) := by exact_mod_cast hv
  have hfar : (8 : ℕ) * 2 ^ unitPlaces ≤ (units c : ℚ) := by
    refine le_units_of_nearest hsum (by norm_num) (by norm_num) ?_
    rw [abs_of_neg (by linarith)]
    push_cast
    linarith
  have hnear : (units c : ℚ) ≤ (1 : ℕ) * 2 ^ unitPlaces :=
    units_le_of_nearest hshown (by norm_num) (by norm_num) (mul_le_mul_of_nonneg_right hvalue hU.le)
  push_cast at hfar hnear
  linarith

theorem large_exponent {v s : ℚ} {c : ℕ} {exponent : ℤ} (hlower : 21 ≤ exponent) (hupper : exponent ≤ 309)
    (hv : 10 ^ exponent ≤ v) (hs : |s| ≤ 10 * 2 ^ unitPlaces) (hshown : Nearest (v * 2 ^ unitPlaces) c)
    (hsum : Nearest |s + exponent * 2 ^ unitPlaces| c) : False := by
  have hU : (0 : ℚ) < 2 ^ unitPlaces := by positivity
  have hvalue : ((400 : ℕ) : ℚ) ≤ v := by
    have hpow : (10 : ℚ) ^ (21 : ℤ) ≤ 10 ^ exponent := zpow_le_zpow_right₀ (by norm_num) hlower
    have hbound : ((400 : ℕ) : ℚ) ≤ 10 ^ (21 : ℤ) := by norm_num
    linarith
  have hlowerq : (21 : ℚ) ≤ exponent := by exact_mod_cast hlower
  have hupperq : (exponent : ℚ) ≤ 309 := by exact_mod_cast hupper
  have hproductLower := mul_le_mul_of_nonneg_right hlowerq hU.le
  have hproductUpper := mul_le_mul_of_nonneg_right hupperq hU.le
  obtain ⟨hsLower, hsUpper⟩ := abs_le.mp hs
  have hnear : (units c : ℚ) ≤ (399 : ℕ) * 2 ^ unitPlaces := by
    refine units_le_of_nearest hsum (by norm_num) (by norm_num) ?_
    rw [abs_of_nonneg (by linarith)]
    push_cast
    linarith
  have hfar : (400 : ℕ) * 2 ^ unitPlaces ≤ (units c : ℚ) :=
    le_units_of_nearest hshown (by norm_num) (by norm_num) (mul_le_mul_of_nonneg_right hvalue hU.le)
  push_cast at hnear hfar
  linarith

theorem mantissa_units_bounds {d : Decimal} {m : ℕ} (hd : d.coefficient ≠ 0)
    (hm : Nearest (mantissaValue d * 2 ^ unitPlaces) m) :
    2 ^ unitPlaces ≤ (units m : ℚ) ∧ (units m : ℚ) ≤ 10 * 2 ^ unitPlaces := by
  have hU : (0 : ℚ) ≤ 2 ^ unitPlaces := by positivity
  obtain ⟨hlower, hupper⟩ := mantissaValue_bounds hd
  have hmLower : (1 : ℕ) * 2 ^ unitPlaces ≤ (units m : ℚ) :=
    le_units_of_nearest hm (by norm_num) (by norm_num)
      (mul_le_mul_of_nonneg_right (by exact_mod_cast hlower) hU)
  have hmUpper : (units m : ℚ) ≤ (10 : ℕ) * 2 ^ unitPlaces :=
    units_le_of_nearest hm (by norm_num) (by norm_num)
      (mul_le_mul_of_nonneg_right (by exact_mod_cast hupper.le) hU)
  push_cast at hmLower hmUpper
  rw [one_mul] at hmLower
  exact ⟨hmLower, hmUpper⟩

theorem not_alike_of_exponent {x w : Float} (hx : code x < infinityCode) (he : 'e' ∈ renderCode (code x))
    (heval : evaluate (render x) = .ok w) : ¬ Alike w x := by
  rintro ⟨hcode, hsign⟩
  obtain ⟨hzero, -, hrange⟩ := renderCode_of_mem hx he
  obtain ⟨m, hm, hrounds⟩ := evaluate_exponent hx he heval
  have hshown := Decimal.shortest_nearest hzero hx
  have horder := shortest_order_bounds hzero hx
  have hcoefficient := Decimal.shortest_coefficient_ne_zero hzero hx
  have hvalue := value_eq_mantissaValue (Decimal.shortest (code x))
  obtain ⟨hlower, hupper⟩ := mantissaValue_bounds hcoefficient
  obtain ⟨hvalueLower, hvalueUpper⟩ := Decimal.value_bounds hcoefficient
  obtain ⟨hmLower, hmUpper⟩ := mantissa_units_bounds hcoefficient hm
  set d := Decimal.shortest (code x)
  set v := mantissaValue d
  set exponent := d.order - 1 with hexponent
  set s := if isNegative x then -(units m : ℚ) else units m with hs
  have hsum : Nearest |s + exponent * 2 ^ unitPlaces| (code x) := by
    obtain ⟨c, hc, hmin⟩ := hrounds.nearest
    have hceq : c = code x := by omega
    rwa [hceq] at hc
  simp only [leastOrder, greatestOrder] at hrange
  rcases hrange with hsmall | hlarge
  · -- Below a millionth: the shown magnitude is less than one.
    have hvalueOne : d.value ≤ 1 := by
      have hpow : (10 : ℚ) ^ d.order ≤ 10 ^ (0 : ℤ) := zpow_le_zpow_right₀ (by norm_num) (by omega)
      rw [zpow_zero] at hpow
      linarith
    by_cases hneg : isNegative x = true
    · rw [if_pos hneg] at hs
      exact negative_small_exponent (by omega) hvalueOne (by linarith) hshown hsum
    · rw [Bool.not_eq_true] at hneg
      rw [hneg, if_neg Bool.false_ne_true] at hs
      rcases lt_trichotomy (s + exponent * 2 ^ unitPlaces) 0 with hqneg | hqzero | hqpos
      · have hwsign := hrounds.sign hqneg.ne
        rw [hsign (by omega), hneg, decide_eq_true hqneg] at hwsign
        exact Bool.false_ne_true hwsign
      · rw [hqzero, abs_zero] at hsum
        have hnone : Nearest ((units 0 : ℕ) : ℚ) (code x) := by simpa using hsum
        exact hzero hnone.eq_of_units
      · -- The sum is positive: the exponent is one of three.
        have hten : -10 < (exponent : ℚ) := by
          by_contra! hle
          have hU : (0 : ℚ) ≤ 2 ^ unitPlaces := by positivity
          have := mul_le_mul_of_nonneg_right hle hU
          linarith
        have htenInt : -10 < exponent := by exact_mod_cast hten
        obtain ⟨t, ht⟩ : ∃ t : ℕ, exponent = -t := ⟨exponent.natAbs, by omega⟩
        rw [abs_of_pos hqpos, hs, ht] at hsum
        rw [hs, ht] at hqpos
        rw [hvalue, ht, zpow_neg, zpow_natCast, ← div_eq_mul_inv] at hshown
        push_cast at hsum hqpos
        rw [neg_mul, ← sub_eq_add_neg] at hsum
        exact small_exponent (by omega) (by linarith) hupper.le hm (by linarith) hmUpper hshown hsum
  · -- From `10 ^ 21` on the sum is too small.
    have hsides : |s| ≤ 10 * 2 ^ unitPlaces := by
      rw [hs, abs_le]
      split_ifs <;> constructor <;> linarith
    exact large_exponent (by omega) (by omega) hvalueLower hsides hshown hsum

theorem mem_render_iff {x : Float} (hx : code x < infinityCode) :
    'e' ∈ (render x).toList ↔ 'e' ∈ renderCode (code x) := by
  rw [render_eq hx, String.toList_ofList, Token.signed]
  split_ifs <;> simp

/-- A finite number evaluates to a number that is written as it is exactly if it is shown without an
exponent. -/
theorem exists_evaluate_render_iff {x : Float} (hx : code x < infinityCode) :
    (∃ w, evaluate (render x) = .ok w ∧ Alike w x) ↔ 'e' ∉ (render x).toList := by
  constructor
  · rintro ⟨w, heval, halike⟩ hmem
    exact not_alike_of_exponent hx ((mem_render_iff hx).mp hmem) heval halike
  · exact evaluate_render hx

end DeskCalculator.Number
