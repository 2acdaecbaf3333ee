import DeskCalculator.Proofs.Number.Bits
import Mathlib.Algebra.Order.Ring.Abs
import Mathlib.Tactic.FieldSimp

/-! Sums and differences of numbers are the exact ones, rounded to the nearest. The mantissa of an exact
result is shifted to its place with two bits that tell how what is lost compares with a half. -/
namespace DeskCalculator.Binary64
open Float.Model UnpackedFloat

/-- What an extended mantissa says of the exact quotient. -/
def Represents (em : ExtendedMantissa) (y : ℚ) : Prop :=
  match em.roundBit, em.stickyBit with
  | false, false => y = em.mantissa
  | false, true => (em.mantissa : ℚ) < y ∧ y < em.mantissa + 1 / 2
  | true, false => y = em.mantissa + 1 / 2
  | true, true => (em.mantissa : ℚ) + 1 / 2 < y ∧ y < em.mantissa + 1

theorem Represents.bounds {em : ExtendedMantissa} {y : ℚ} (h : Represents em y) :
    (em.mantissa : ℚ) ≤ y ∧ y < em.mantissa + 1 := by
  rcases em with ⟨m, round, sticky⟩
  cases round <;> cases sticky <;> simp only [Represents] at h ⊢
  · constructor <;> linarith
  · constructor <;> linarith [h.1, h.2]
  · constructor <;> linarith
  · constructor <;> linarith [h.1, h.2]

theorem Represents.rounded {em : ExtendedMantissa} {y : ℚ} (h : Represents em y) :
    NearestNat y em.roundedMantissa := by
  rcases em with ⟨m, round, sticky⟩
  cases round <;> cases sticky <;>
    simp only [Represents, ExtendedMantissa.roundedMantissa, ExtendedMantissa.accuracy,
      Accuracy.roundToNearestEven] at h ⊢
  · exact ⟨Or.inl (by linarith), Or.inl (by linarith)⟩
  · exact ⟨Or.inl (by linarith [h.1]), Or.inl h.2⟩
  · -- A tie: the parity of the mantissa says which neighbour is even.
    rcases Nat.mod_two_eq_zero_or_one m with hparity | hparity
    · rw [hparity, Nat.add_zero]
      exact ⟨Or.inl (by linarith), Or.inr ⟨h, Nat.even_iff.mpr hparity⟩⟩
    · have heven : Even (m + 1) := Nat.even_iff.mpr (by omega)
      rw [hparity]
      refine ⟨Or.inr ⟨?_, heven⟩, Or.inl ?_⟩
      · push_cast
        linarith
      · push_cast
        linarith
  · refine ⟨Or.inl ?_, Or.inl ?_⟩
    · push_cast
      linarith [h.1]
    · push_cast
      linarith [h.2]

theorem Represents.shiftRightOne {em : ExtendedMantissa} {y : ℚ} (h : Represents em y) :
    Represents em.shiftRightOne (y / 2) := by
  rcases em with ⟨m, round, sticky⟩
  -- The bit that is shifted out of the mantissa is the new round bit.
  obtain ⟨q, rfl | rfl⟩ : ∃ q, m = 2 * q ∨ m = 2 * q + 1 := ⟨m / 2, by omega⟩
  · have hdiv : 2 * q / 2 = q := by omega
    have hmod : 2 * q % 2 = 0 := by omega
    cases round <;> cases sticky <;>
      simp only [Represents, ExtendedMantissa.shiftRightOne, hdiv, hmod, bne_self_eq_false,
        Bool.or_false, Bool.or_true] at h ⊢ <;> push_cast at h
    · linarith
    · constructor <;> linarith [h.1, h.2]
    · constructor <;> linarith
    · constructor <;> linarith [h.1, h.2]
  · have hdiv : (2 * q + 1) / 2 = q := by omega
    have hmod : (2 * q + 1) % 2 = 1 := by omega
    have hbit : (1 != 0) = true := rfl
    cases round <;> cases sticky <;>
      simp only [Represents, ExtendedMantissa.shiftRightOne, hdiv, hmod, hbit,
        Bool.or_false, Bool.or_true] at h ⊢ <;> push_cast at h
    · linarith
    · constructor <;> linarith [h.1, h.2]
    · constructor <;> linarith
    · constructor <;> linarith [h.1, h.2]

theorem Represents.shiftRight {em : ExtendedMantissa} {y : ℚ} (h : Represents em y) (k : ℕ) :
    Represents (em >>> k) (y / 2 ^ k) := by
  change Represents (k.repeat ExtendedMantissa.shiftRightOne em) _
  induction k with
  | zero => simpa [Nat.repeat] using h
  | succ k ih =>
    have hstep := ih.shiftRightOne
    rw [div_div, ← pow_succ] at hstep
    exact hstep

theorem targetExponent_eq (m : ℕ) (e : ℤ) :
    Format.targetExponent Format.binary64 (totalExponent m e) = max (m.log2 + e - 52) (-1074) := by
  have hbits : Format.mantissaBits Format.binary64 = 53 := by decide
  have hmin : Format.minExponent Format.binary64 = -1074 := by decide
  unfold Format.targetExponent totalExponent
  rw [hbits, hmin]
  congr 1
  push_cast
  ring

theorem pack_shifted_toNat (negative : Bool) {r s : ℕ} (hle : r ≤ 2 ^ 53) (hge : s = 0 ∨ 2 ^ 52 ≤ r) :
    let last := shiftToTargetExponent Format.binary64 r (s - 1074) .exact
    (UnpackedFloat.pack Format.binary64
        (if h : last.1.mantissa = 0 then .zero (sign negative)
          else .finite (sign negative) last.1.mantissa last.2 (Nat.pos_of_ne_zero h))).toNat
      = signBits negative + min (s * 2 ^ 52 + r) infinityCode := by
  intro last
  -- The second shift does nothing unless rounding has filled the mantissa, which moves it by one place.
  rcases hle.lt_or_eq with hlt | rfl
  · have hlog : r.log2 ≤ 52 := by
      by_cases hr : r = 0
      · simp [hr]
      · have := (Nat.log2_lt hr).mpr hlt
        omega
    have hlast : last = (⟨r, false, false⟩, (s : ℤ) - 1074) := by
      have hshift : (max ((r.log2 : ℤ) + (s - 1074) - 52) (-1074) - ((s : ℤ) - 1074)).toNat = 0 := by
        omega
      simp only [last, shiftToTargetExponent, targetExponent_eq, shiftToExponent, hshift,
        ExtendedMantissa.ofMantissaAndAccuracy]
      simp [HShiftRight.hShiftRight, Nat.repeat]
    rw [hlast]
    by_cases hr : r = 0
    · have hs : s = 0 := by omega
      rw [dif_pos hr, hr, hs, UnpackedFloat.pack, packedZero, packComponents_toNat]
      rfl
    · rw [dif_neg hr]
      exact pack_finite_toNat negative (Nat.pos_of_ne_zero hr) hlt hge
  · have hlast : last = (⟨2 ^ 52, false, false⟩, ((s + 1 : ℕ) : ℤ) - 1074) := by
      have hshift : (max (((2 ^ 53 : ℕ).log2 : ℤ) + (s - 1074) - 52) (-1074)
          - ((s : ℤ) - 1074)).toNat = 1 := by
        rw [Nat.log2_two_pow]
        omega
      simp only [last, shiftToTargetExponent, targetExponent_eq, shiftToExponent, hshift,
        ExtendedMantissa.ofMantissaAndAccuracy]
      refine Prod.ext rfl ?_
      push_cast
      ring
    have hpos : (2 : ℕ) ^ 52 ≠ 0 := by decide
    have hcode : (s + 1) * 2 ^ 52 + 2 ^ 52 = s * 2 ^ 52 + 2 ^ 53 := by omega
    rw [hlast, dif_neg hpos,
      pack_finite_toNat negative (Nat.pos_of_ne_zero hpos) (by decide) (Or.inr le_rfl), hcode]

/-- A mantissa that has enough bits is rounded to the nearest code. -/
theorem pack_roundWithAccuracy (negative : Bool) {m : ℕ} {e : ℤ} {accuracy : Accuracy} {y : ℚ}
    (hy : Represents (.ofMantissaAndAccuracy m accuracy) y)
    (he : e ≤ Format.targetExponent Format.binary64 (totalExponent m e)) :
    ∃ c, Nearest (y * 2 ^ (e + 1074)) c ∧
      (UnpackedFloat.pack Format.binary64
        (roundWithAccuracy Format.binary64 (sign negative) m e accuracy)).toNat
        = signBits negative + min c infinityCode := by
  -- The mantissa is shifted by `k` places into the binade `s`.
  set t := Format.targetExponent Format.binary64 (totalExponent m e) with ht
  have htarget : t = max (m.log2 + e - 52) (-1074) := by rw [ht, targetExponent_eq]
  obtain ⟨k, hk⟩ : ∃ k : ℕ, t = e + k := ⟨(t - e).toNat, by omega⟩
  obtain ⟨s, hs⟩ : ∃ s : ℕ, t = s - 1074 := ⟨(t + 1074).toNat, by omega⟩
  set em := ExtendedMantissa.ofMantissaAndAccuracy m accuracy >>> k with hem
  have hmantissa : (ExtendedMantissa.ofMantissaAndAccuracy m accuracy).mantissa = m := by
    rcases accuracy with _ | (_ | _ | _) <;> rfl
  have hbounds := hy.bounds
  rw [hmantissa] at hbounds
  have hpow : (0 : ℚ) < 2 ^ k := by positivity
  have hlt : y / 2 ^ k < 2 ^ 53 := by
    have hm : m + 1 ≤ 2 ^ (k + 53) := by
      calc m + 1 ≤ 2 ^ (m.log2 + 1) := Nat.lt_log2_self
        _ ≤ 2 ^ (k + 53) := Nat.pow_le_pow_right (by decide) (by omega)
    have hmq : ((m : ℚ) + 1) ≤ 2 ^ k * 2 ^ 53 := by
      rw [← pow_add]
      exact_mod_cast hm
    rw [div_lt_iff₀ hpow]
    linarith [hbounds.2]
  have hge : s = 0 ∨ 2 ^ 52 ≤ y / 2 ^ k := by
    by_cases hzero : s = 0
    · exact Or.inl hzero
    · have hm : m ≠ 0 := by
        rintro rfl
        rw [Nat.log2_zero] at htarget
        omega
      have hlog : m.log2 = k + 52 := by omega
      have hmq : (2 : ℚ) ^ 52 * 2 ^ k ≤ m := by
        rw [← pow_add, add_comm, ← hlog]
        exact_mod_cast Nat.log2_self_le hm
      right
      rw [le_div_iff₀ hpow]
      linarith [hbounds.1]
  have hround : NearestNat (y / 2 ^ k) em.roundedMantissa := (hy.shiftRight k).rounded
  have hrle : em.roundedMantissa ≤ 2 ^ 53 := hround.le_of_lt (by exact_mod_cast hlt)
  have hrge : s = 0 ∨ 2 ^ 52 ≤ em.roundedMantissa :=
    hge.imp_right fun h => hround.ge_of_le (by exact_mod_cast h)
  refine ⟨s * 2 ^ 52 + em.roundedMantissa, ?_, ?_⟩
  · have hvalue : y * 2 ^ (e + 1074) = y / 2 ^ k * 2 ^ s := by
      have hexp : e + 1074 = (s : ℤ) - k := by omega
      rw [hexp, zpow_sub₀ (by norm_num), zpow_natCast, zpow_natCast]
      ring
    rw [hvalue]
    exact nearest_of_nearestNat hround hlt hge
  · have hfirst : shiftToTargetExponent Format.binary64 m e accuracy = (em, (s : ℤ) - 1074) := by
      have hshift : (t - e).toNat = k := by omega
      simp only [shiftToTargetExponent, shiftToExponent, ← ht, hshift, ← hem]
      refine Prod.ext rfl ?_
      change e + (k : ℤ) = _
      omega
    rw [roundWithAccuracy, hfirst]
    exact pack_shifted_toNat negative hrle hrge

theorem log2_mul_two_pow {m : ℕ} (hm : m ≠ 0) (k : ℕ) : (m * 2 ^ k).log2 = m.log2 + k := by
  have hpos : m * 2 ^ k ≠ 0 := Nat.mul_ne_zero hm (Nat.two_pow_pos k).ne'
  apply (Nat.log2_eq_iff hpos).mpr
  constructor
  · rw [pow_add]
    exact Nat.mul_le_mul_right _ (Nat.log2_self_le hm)
  · rw [add_right_comm, pow_add]
    exact Nat.mul_lt_mul_of_pos_right Nat.lt_log2_self (Nat.two_pow_pos k)

theorem pack_round (negative : Bool) {m : ℕ} (e : ℤ) (hm : m ≠ 0) :
    ∃ c, Nearest (m * 2 ^ (e + 1074)) c ∧
      (UnpackedFloat.pack Format.binary64 (round Format.binary64 (sign negative) m e)).toNat
        = signBits negative + min c infinityCode := by
  set t := Format.targetExponent Format.binary64 (totalExponent m e) with ht
  have htarget : t = max (m.log2 + e - 52) (-1074) := by rw [ht, targetExponent_eq]
  -- Too few bits are made up with zeros first; nothing is lost of the value.
  set k := (e - t).toNat with hk
  have hlog : (m <<< k).log2 = m.log2 + k := by
    rw [Nat.shiftLeft_eq, log2_mul_two_pow hm]
  have hfits : e - k ≤ Format.targetExponent Format.binary64 (totalExponent (m <<< k) (e - k)) := by
    rw [targetExponent_eq, hlog]
    push_cast
    omega
  have hexact : Represents (.ofMantissaAndAccuracy (m <<< k) .exact) ((m <<< k : ℕ) : ℚ) := rfl
  obtain ⟨c, hc, hpack⟩ := pack_roundWithAccuracy negative hexact hfits
  refine ⟨c, ?_, hpack⟩
  have hvalue : ((m <<< k : ℕ) : ℚ) * 2 ^ (e - k + 1074) = m * 2 ^ (e + 1074) := by
    rw [Nat.shiftLeft_eq, show e - k + 1074 = e + 1074 - (k : ℤ) by ring, zpow_sub₀ (by norm_num),
      zpow_natCast]
    push_cast
    field_simp
  rwa [hvalue] at hc

def signedUnits (x : Float) : ℚ := if isNegative x then -units (code x) else units (code x)

/-- A number is an exact value rounded to the nearest; zero may have either sign. -/
structure RoundsTo (q : ℚ) (x : Float) : Prop where
  nearest : ∃ c, Nearest |q| c ∧ code x = min c infinityCode
  sign : q ≠ 0 → isNegative x = decide (q < 0)

theorem roundsTo_of_pack {q : ℚ} {u : UnpackedFloat} {negative : Bool} {c : ℕ} (hc : Nearest |q| c)
    (hpack : (UnpackedFloat.pack Format.binary64 u).toNat
      = signBits negative + min c infinityCode)
    (hsign : q ≠ 0 → negative = decide (q < 0)) : RoundsTo q (Float.ofModel (.pack u)) := by
  obtain ⟨hneg, hcode⟩ := parts_of_pack (min_le_right c infinityCode) hpack
  exact ⟨⟨c, hc, hcode⟩, fun hq => by rw [hneg, hsign hq]⟩

theorem roundsTo_unpacked (negative : Bool) {c : ℕ} (hc : c < infinityCode) :
    RoundsTo (if negative then -(units c : ℚ) else units c)
      (Float.ofModel (.pack (unpacked negative c))) := by
  have habs : |if negative then -(units c : ℚ) else units c| = units c := by
    cases negative <;> simp
  have hnear : Nearest |if negative then -(units c : ℚ) else units c| c := by
    rw [habs]
    exact nearest_units c
  have hpack : (UnpackedFloat.pack Format.binary64 (unpacked negative c)).toNat
      = signBits negative + min c infinityCode := by
    rw [pack_unpacked_toNat negative hc.le, min_eq_left hc.le]
  refine roundsTo_of_pack hnear hpack fun hq => ?_
  have hpos : (0 : ℚ) < units c := by
    rw [← habs]
    exact abs_pos.mpr hq
  cases negative
  · simp [hpos.le]
  · simp [hpos]

theorem roundsTo_normalize (n : ℤ) (e : ℤ) :
    RoundsTo (n * 2 ^ (e + 1074))
      (Float.ofModel (.pack (UnpackedFloat.normalize Format.binary64 n e .positive))) := by
  have hpow : (0 : ℚ) < 2 ^ (e + 1074) := zpow_pos (by norm_num) _
  rcases lt_trichotomy n 0 with hneg | rfl | hpos
  · obtain ⟨m, rfl⟩ : ∃ m : ℕ, n = -m := ⟨(-n).toNat, by omega⟩
    have hm : m ≠ 0 := by omega
    obtain ⟨c, hc, hpack⟩ := pack_round true e hm
    have hq : (((-m : ℤ) : ℤ) : ℚ) * 2 ^ (e + 1074) < 0 := by
      have : (((-m : ℤ) : ℤ) : ℚ) < 0 := by exact_mod_cast hneg
      exact mul_neg_of_neg_of_pos this hpow
    have hnormal : UnpackedFloat.normalize Format.binary64 (-m) e .positive
        = round Format.binary64 (sign true) m e := by
      have hcmp : compare (-(m : ℤ)) 0 = .lt := compare_lt_iff_lt.mpr hneg
      simp only [UnpackedFloat.normalize, hcmp, neg_neg, Int.toNat_natCast]
      rfl
    rw [hnormal]
    refine roundsTo_of_pack ?_ hpack fun _ => (decide_eq_true hq).symm
    rw [abs_of_neg hq]
    push_cast
    rwa [neg_mul, neg_neg]
  · have hcmp : compare (0 : ℤ) 0 = .eq := compare_eq_iff_eq.mpr rfl
    have hnormal : UnpackedFloat.normalize Format.binary64 0 e .positive = unpacked false 0 := by
      simp only [UnpackedFloat.normalize, hcmp]
      rfl
    have hzero := roundsTo_unpacked false (show 0 < infinityCode by decide)
    rw [hnormal]
    simpa using hzero
  · obtain ⟨m, rfl⟩ : ∃ m : ℕ, n = m := ⟨n.toNat, by omega⟩
    have hm : m ≠ 0 := by omega
    obtain ⟨c, hc, hpack⟩ := pack_round false e hm
    have hq : 0 ≤ ((m : ℤ) : ℚ) * 2 ^ (e + 1074) := mul_nonneg (by positivity) hpow.le
    have hnormal : UnpackedFloat.normalize Format.binary64 m e .positive
        = round Format.binary64 (sign false) m e := by
      have hcmp : compare (m : ℤ) 0 = .gt := compare_gt_iff_gt.mpr hpos
      simp only [UnpackedFloat.normalize, hcmp, Int.toNat_natCast]
      rfl
    rw [hnormal]
    refine roundsTo_of_pack ?_ hpack fun _ => (decide_eq_false (not_lt.mpr hq)).symm
    rw [abs_of_nonneg hq]
    exact_mod_cast hc

theorem decreaseExponent_value (negative : Bool) (m : ℕ) {b small : ℕ} (h : small ≤ b) :
    (((sign negative).apply (decreaseExponent m (b - 1074) (small - 1074)).1 : ℤ) : ℚ) * 2 ^ small
      = if negative then -((m * 2 ^ b : ℕ) : ℚ) else ((m * 2 ^ b : ℕ) : ℚ) := by
  have hshift : ((b : ℤ) - 1074 - (small - 1074)).toNat = b - small := by omega
  have hpow : (2 : ℚ) ^ b = 2 ^ (b - small) * 2 ^ small := by
    rw [← pow_add, Nat.sub_add_cancel h]
  simp only [decreaseExponent, hshift, Nat.shiftLeft_eq]
  cases negative
  · simp only [sign, Sign.apply, Bool.false_eq_true, if_false]
    push_cast
    rw [hpow]
    ring
  · simp only [sign, Sign.apply, if_true]
    push_cast
    rw [hpow]
    ring

section Addition
variable (negative negative' : Bool) {c c' : ℕ}

theorem add_unpacked_zero (hzero : c' ≠ 0) (hc : c' < infinityCode) :
    UnpackedFloat.add Format.binary64 (unpacked negative 0) (unpacked negative' c')
      = unpacked negative' c' := by
  simp only [unpacked, dif_neg hzero, if_pos hc, dif_pos]
  rfl

theorem unpacked_add_zero (hzero : c ≠ 0) (hc : c < infinityCode) :
    UnpackedFloat.add Format.binary64 (unpacked negative c) (unpacked negative' 0)
      = unpacked negative c := by
  simp only [unpacked, dif_neg hzero, if_pos hc, dif_pos]
  rfl

/-- Of two zeros only the sign of the result depends on theirs. -/
theorem roundsTo_add_zeros :
    RoundsTo 0 (Float.ofModel (.pack (UnpackedFloat.add Format.binary64
      (unpacked negative 0) (unpacked negative' 0)))) := by
  have hzero (negative : Bool) : RoundsTo 0 (Float.ofModel (.pack (unpacked negative 0))) := by
    have hunpacked := roundsTo_unpacked negative (show 0 < infinityCode by decide)
    simpa using hunpacked
  cases negative <;> cases negative'
  · exact hzero false
  · exact hzero false
  · exact hzero false
  · exact hzero true

/-- Two numbers that are not zero are brought to the lower of their binades and added there. -/
theorem roundsTo_add_nonzero (hzero : c ≠ 0) (hc : c < infinityCode) (hzero' : c' ≠ 0)
    (hc' : c' < infinityCode) :
    RoundsTo ((if negative then -(units c : ℚ) else units c)
        + (if negative' then -(units c' : ℚ) else units c'))
      (Float.ofModel (.pack (UnpackedFloat.add Format.binary64
        (unpacked negative c) (unpacked negative' c')))) := by
  set small := min (binade c) (binade c') with hsmall
  have hmin : min ((binade c : ℤ) - 1074) (binade c' - 1074) = small - 1074 := by omega
  have hleft := decreaseExponent_value negative (mantissa c) (min_le_left _ _ : small ≤ _)
  have hright := decreaseExponent_value negative' (mantissa c') (min_le_right _ _ : small ≤ _)
  rw [← units_eq] at hleft hright
  have hsum := roundsTo_normalize
    ((sign negative).apply (decreaseExponent (mantissa c) (binade c - 1074) (small - 1074)).1
      + (sign negative').apply (decreaseExponent (mantissa c') (binade c' - 1074) (small - 1074)).1)
    (small - 1074)
  rw [sub_add_cancel, zpow_natCast] at hsum
  push_cast at hsum
  rw [add_mul, hleft, hright] at hsum
  simp only [unpacked, dif_neg hzero, dif_neg hzero', if_pos hc, if_pos hc', UnpackedFloat.add, hmin]
  exact hsum

end Addition

/-- The sum of two finite numbers is the exact sum, rounded. -/
theorem roundsTo_add {x y : Float} (hx : code x < infinityCode) (hy : code y < infinityCode) :
    RoundsTo (signedUnits x + signedUnits y) (x + y) := by
  have hadd : x + y = Float.ofModel (.pack (UnpackedFloat.add Format.binary64
      (unpacked (isNegative x) (code x)) (unpacked (isNegative y) (code y)))) := by
    change Float.ofModel (.pack (UnpackedFloat.add _ x.toModel.unpack y.toModel.unpack)) = _
    rw [unpack_toModel, unpack_toModel, if_pos hx.le, if_pos hy.le]
  rw [hadd]
  unfold signedUnits
  by_cases hx0 : code x = 0
  · by_cases hy0 : code y = 0
    · rw [hx0, hy0]
      simpa using roundsTo_add_zeros (isNegative x) (isNegative y)
    · have hsum := roundsTo_unpacked (isNegative y) hy
      rw [hx0, add_unpacked_zero _ _ hy0 hy]
      simpa using hsum
  · by_cases hy0 : code y = 0
    · have hsum := roundsTo_unpacked (isNegative x) hx
      rw [hy0, unpacked_add_zero _ _ hx0 hx]
      simpa using hsum
    · exact roundsTo_add_nonzero _ _ hx0 hx hy0 hy

theorem signedUnits_neg {x : Float} (hx : code x < infinityCode) : signedUnits (-x) = -signedUnits x := by
  obtain ⟨hsign, hcode⟩ := parts_neg hx.le
  unfold signedUnits
  rw [hsign, hcode]
  cases isNegative x <;> simp

theorem float_sub_eq {x y : Float} (hx : code x < infinityCode) (hy : code y < infinityCode) :
    x - y = x + -y := by
  obtain ⟨hsign, hcode⟩ := parts_neg hy.le
  have hadd : x + -y = Float.ofModel (.pack (UnpackedFloat.add Format.binary64
      (unpacked (isNegative x) (code x)) (unpacked (!isNegative y) (code y)))) := by
    change Float.ofModel (.pack (UnpackedFloat.add _ x.toModel.unpack (-y).toModel.unpack)) = _
    rw [unpack_toModel, unpack_toModel, hsign, hcode, if_pos hx.le, if_pos hy.le]
  have hsub : x - y = Float.ofModel (.pack (UnpackedFloat.sub Format.binary64
      (unpacked (isNegative x) (code x)) (unpacked (isNegative y) (code y)))) := by
    change Float.ofModel (.pack (UnpackedFloat.sub _ x.toModel.unpack y.toModel.unpack)) = _
    rw [unpack_toModel, unpack_toModel, if_pos hx.le, if_pos hy.le]
  rw [hadd, hsub]
  congr 2
  unfold unpacked
  split_ifs with hx0 hy0
  · cases isNegative x <;> cases isNegative y <;> rfl
  · cases isNegative y <;> rfl
  · cases isNegative y <;> rfl
  · simp only [UnpackedFloat.sub, UnpackedFloat.add]
    cases isNegative y <;> simp [sign, Sign.apply, sub_eq_add_neg]

theorem roundsTo_sub {x y : Float} (hx : code x < infinityCode) (hy : code y < infinityCode) :
    RoundsTo (signedUnits x - signedUnits y) (x - y) := by
  have hneg : code (-y) < infinityCode := by rwa [(parts_neg hy.le).2]
  rw [float_sub_eq hx hy, sub_eq_add_neg, ← signedUnits_neg hy]
  exact roundsTo_add hx hneg

end DeskCalculator.Binary64
