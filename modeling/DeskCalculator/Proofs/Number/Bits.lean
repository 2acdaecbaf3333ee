import DeskCalculator.Proofs.Number.Nearest
import Mathlib

/-! The bits of a number and its unpacked form. A number that is not `NaN` is its sign and its code, and
`unpacked` is what the arithmetic sees of it. -/
namespace DeskCalculator.Binary64
open Float.Model

theorem mantissa_pos {c : ℕ} (hc : c ≠ 0) : 0 < mantissa c := by
  by_cases h : binade c = 0
  · have hparts := code_eq_parts c
    rw [h] at hparts
    omega
  · have hge := mantissa_ge_of_binade_pos h
    omega

def sign (negative : Bool) : UnpackedFloat.Sign := if negative then .negative else .positive

def signBits (negative : Bool) : ℕ := if negative then signBit else 0

/-- The unpacked form of a number that has a sign and a code. -/
def unpacked (negative : Bool) (c : ℕ) : UnpackedFloat :=
  if hc : c = 0 then .zero (sign negative)
  else if c < infinityCode then
    .finite (sign negative) (mantissa c) (binade c - 1074) (mantissa_pos hc)
  else .infinity (sign negative)

theorem packComponents_toNat (negative : Bool) (e : BitVec 11) (m : BitVec 52) :
    (UnpackedFloat.packComponents Format.binary64 (sign negative) e m).toNat
      = signBits negative + e.toNat * 2 ^ 52 + m.toNat := by
  have he : e.toNat < 2 ^ 11 := e.isLt
  have hm : m.toNat < 2 ^ 52 := m.isLt
  have happend : (UnpackedFloat.packComponents Format.binary64 (sign negative) e m).toNat
      = ((sign negative).toBitVec.toNat * 2 ^ 11 + e.toNat) * 2 ^ 52 + m.toNat := by
    simp only [UnpackedFloat.packComponents, BitVec.toNat_append]
    rw [← Nat.shiftLeft_add_eq_or_of_lt hm, ← Nat.shiftLeft_add_eq_or_of_lt he,
      Nat.shiftLeft_eq, Nat.shiftLeft_eq]
  rw [happend]
  cases negative
  · simp [sign, signBits, UnpackedFloat.Sign.toBitVec]
  · simp only [sign, signBits, UnpackedFloat.Sign.toBitVec, signBit, if_true, BitVec.toNat_ofNat]
    omega

/-- A finite number whose mantissa has 53 bits, or that is in the lowest binade, is packed into its code,
and into infinity if the code is too great. -/
theorem pack_finite_toNat (negative : Bool) {b m : ℕ} (hpos : 0 < m) (hlt : m < 2 ^ 53)
    (hge : b = 0 ∨ 2 ^ 52 ≤ m) :
    (UnpackedFloat.pack Format.binary64 (.finite (sign negative) m (b - 1074) hpos)).toNat
      = signBits negative + min (b * 2 ^ 52 + m) infinityCode := by
  have hbias : ((b : ℤ) - 1074 + Format.exponentBias Format.binary64
      + Format.mantissaBitsWithoutImplicit Format.binary64).toNat = b + 1 := by
    have : Format.exponentBias Format.binary64 = 1023 := by decide
    simp only [this]
    omega
  have hlog : m.log2 + 1 = Format.mantissaBits Format.binary64 ↔ 2 ^ 52 ≤ m := by
    have hbits : Format.mantissaBits Format.binary64 = 53 := by decide
    have hlo : 52 ≤ m.log2 ↔ 2 ^ 52 ≤ m := Nat.le_log2 hpos.ne'
    have hhi : m.log2 < 53 ↔ m < 2 ^ 53 := Nat.log2_lt hpos.ne'
    rw [hbits]
    omega
  simp only [UnpackedFloat.pack, hbias, hlog]
  split_ifs with hover hnormal
  · -- The exponent does not fit, and neither does the code.
    have hcode : infinityCode ≤ b * 2 ^ 52 + m := by
      have hb : 2046 ≤ b := by
        have : (2 : ℕ) ^ Format.exponentBits Format.binary64 = 2048 := by decide
        omega
      have hm : 2 ^ 52 ≤ m := by omega
      unfold infinityCode
      omega
    rw [Nat.min_eq_right hcode, UnpackedFloat.packedInfinity, packComponents_toNat]
    rfl
  · have hb : b + 1 < 2047 := by
      have : (2 : ℕ) ^ Format.exponentBits Format.binary64 = 2048 := by decide
      omega
    have hcode : b * 2 ^ 52 + m ≤ infinityCode := by
      unfold infinityCode
      omega
    rw [Nat.min_eq_left hcode, packComponents_toNat, BitVec.toNat_ofNat, BitVec.toNat_ofNat,
      Nat.mod_eq_of_lt (by omega : b + 1 < 2 ^ 11)]
    omega
  · -- Without the implicit bit the number is in the lowest binade.
    have hb : b = 0 := hge.resolve_right hnormal
    have hcode : b * 2 ^ 52 + m ≤ infinityCode := by
      unfold infinityCode
      omega
    rw [Nat.min_eq_left hcode, packComponents_toNat, BitVec.toNat_ofNat, BitVec.toNat_ofNat,
      Nat.mod_eq_of_lt (by omega : m < 2 ^ 52), hb]
    omega

theorem pack_unpacked_toNat (negative : Bool) {c : ℕ} (hc : c ≤ infinityCode) :
    (UnpackedFloat.pack Format.binary64 (unpacked negative c)).toNat = signBits negative + c := by
  unfold unpacked
  split_ifs with hzero hfinite
  · rw [UnpackedFloat.pack, UnpackedFloat.packedZero, packComponents_toNat, hzero]
    rfl
  · have hge : binade c = 0 ∨ 2 ^ 52 ≤ mantissa c := by
      by_cases h : binade c = 0
      · exact Or.inl h
      · exact Or.inr (mantissa_ge_of_binade_pos h)
    rw [pack_finite_toNat negative (mantissa_pos hzero) (mantissa_lt c) hge, ← code_eq_parts,
      Nat.min_eq_left hc]
  · obtain rfl : c = infinityCode := by omega
    rw [UnpackedFloat.pack, UnpackedFloat.packedInfinity, packComponents_toNat]
    rfl

section Fields
variable (bits : BitVec 64)

theorem unpackMantissa_toNat :
    (@UnpackedFloat.unpackMantissa Format.binary64 bits).toNat = bits.toNat % signBit % 2 ^ 52 := by
  have hfield : (@UnpackedFloat.unpackMantissa Format.binary64 bits).toNat = bits.toNat % 2 ^ 52 := by
    simp [UnpackedFloat.unpackMantissa]
  rw [hfield]
  unfold signBit
  omega

theorem unpackExponent_toNat :
    (@UnpackedFloat.unpackExponent Format.binary64 bits).toNat = bits.toNat % signBit / 2 ^ 52 := by
  have hfield : (@UnpackedFloat.unpackExponent Format.binary64 bits).toNat
      = bits.toNat / 2 ^ 52 % 2 ^ 11 := by
    simp [UnpackedFloat.unpackExponent, Nat.shiftRight_eq_div_pow]
  rw [hfield]
  unfold signBit
  omega

theorem unpackSign_eq :
    UnpackedFloat.Sign.ofBitVec (@UnpackedFloat.unpackSign Format.binary64 bits)
      = sign (signBit ≤ bits.toNat) := by
  have hbits : bits.toNat < 2 ^ 64 := bits.isLt
  have htop : (@UnpackedFloat.unpackSign Format.binary64 bits).toNat = bits.toNat / 2 ^ 63 % 2 := by
    simp [UnpackedFloat.unpackSign, Nat.shiftRight_eq_div_pow]
  have hzero : @UnpackedFloat.unpackSign Format.binary64 bits = 0#1 ↔ ¬ signBit ≤ bits.toNat := by
    rw [← BitVec.toNat_inj, htop, BitVec.toNat_ofNat]
    unfold signBit
    omega
  by_cases hsign : signBit ≤ bits.toNat <;> simp [UnpackedFloat.Sign.ofBitVec, hzero, hsign, sign]

theorem implicit_append_toNat :
    (1#1 ++ @UnpackedFloat.unpackMantissa Format.binary64 bits).toNat
      = 2 ^ 52 + bits.toNat % signBit % 2 ^ 52 := by
  have hlt : (@UnpackedFloat.unpackMantissa Format.binary64 bits).toNat < 2 ^ 52 :=
    (@UnpackedFloat.unpackMantissa Format.binary64 bits).isLt
  rw [BitVec.toNat_append, ← Nat.shiftLeft_add_eq_or_of_lt hlt, unpackMantissa_toNat]
  rfl

/-- What any 64 bits are unpacked into. -/
theorem unpack_eq :
    UnpackedFloat.unpack Format.binary64 bits
      = if bits.toNat % signBit ≤ infinityCode then
          unpacked (signBit ≤ bits.toNat) (bits.toNat % signBit)
        else .notANumber := by
  have hm := unpackMantissa_toNat bits
  have he := unpackExponent_toNat bits
  have happend := implicit_append_toNat bits
  have hclt : bits.toNat % signBit < signBit := Nat.mod_lt _ (by decide)
  set c := bits.toNat % signBit
  have hbin := binade_eq c
  have hbias : Format.exponentBias Format.binary64 = 1023 := by decide
  -- The tests of the fields are tests of the code.
  have htop : @UnpackedFloat.unpackExponent Format.binary64 bits = -1#11 ↔ c / 2 ^ 52 = 2047 := by
    rw [← BitVec.toNat_inj, he]
    rfl
  have hbottom : @UnpackedFloat.unpackExponent Format.binary64 bits = 0#11 ↔ c / 2 ^ 52 = 0 := by
    rw [← BitVec.toNat_inj, he]
    rfl
  have hempty : @UnpackedFloat.unpackMantissa Format.binary64 bits = 0#52 ↔ c % 2 ^ 52 = 0 := by
    rw [← BitVec.toNat_inj, hm]
    rfl
  simp only [UnpackedFloat.unpack, unpackSign_eq, htop, hbottom, hempty]
  unfold signBit at hclt
  by_cases h₁ : c / 2 ^ 52 = 2047
  · -- All ones: infinity or no number.
    by_cases h₂ : c % 2 ^ 52 = 0
    · have hinf : c = infinityCode := by
        unfold infinityCode
        omega
      rw [if_pos h₁, if_pos h₂, hinf]
      rfl
    · have hinf : ¬ c ≤ infinityCode := by
        unfold infinityCode
        omega
      rw [if_pos h₁, if_neg h₂, if_neg hinf]
  · have hinf : c < infinityCode := by
      unfold infinityCode
      omega
    rw [if_neg h₁, if_pos hinf.le]
    by_cases h₂ : c / 2 ^ 52 = 0
    · -- The lowest binade has no implicit bit.
      rw [if_pos h₂]
      by_cases h₃ : c % 2 ^ 52 = 0
      · have hzero : c = 0 := by omega
        rw [dif_pos h₃, hzero]
        rfl
      · have hzero : c ≠ 0 := by omega
        have hmantissa : c % 2 ^ 52 = mantissa c := by
          unfold mantissa
          omega
        rw [dif_neg h₃, unpacked, dif_neg hzero, if_pos hinf]
        simp only [hm, he, hbias, hmantissa, UnpackedFloat.finite.injEq, true_and]
        omega
    · have hzero : c ≠ 0 := by omega
      have hmantissa : 2 ^ 52 + c % 2 ^ 52 = mantissa c := by
        unfold mantissa
        omega
      rw [if_neg h₂, unpacked, dif_neg hzero, if_pos hinf]
      simp only [happend, he, hbias, hmantissa, UnpackedFloat.finite.injEq, true_and]
      omega

end Fields

theorem unpack_toModel (x : Float) :
    x.toModel.unpack
      = if code x ≤ infinityCode then unpacked (isNegative x) (code x) else .notANumber :=
  unpack_eq x.toModel.toBits.toBitVec

theorem parts_of_pack {u : UnpackedFloat} {negative : Bool} {c : ℕ} (hc : c ≤ infinityCode)
    (hpack : (UnpackedFloat.pack Format.binary64 u).toNat = signBits negative + c) :
    isNegative (Float.ofModel (.pack u)) = negative ∧ code (Float.ofModel (.pack u)) = c := by
  have hbits : (Float.ofModel (.pack u)).toBits.toNat = signBits negative + c := hpack
  unfold isNegative code
  rw [hbits]
  unfold infinityCode at hc
  cases negative
  · simp only [signBits, signBit, Bool.false_eq_true, if_false]
    constructor
    · rw [decide_eq_false_iff_not]
      omega
    · omega
  · simp only [signBits, signBit, if_true]
    constructor
    · rw [decide_eq_true_eq]
      omega
    · omega

theorem parts_ofCode (negative : Bool) {c : ℕ} (hc : c ≤ infinityCode) :
    isNegative (ofCode negative c) = negative ∧ code (ofCode negative c) = c := by
  have hbits : (UInt64.ofNat (if negative then signBit + c else c)).toBitVec.toNat
      = signBits negative + c := by
    unfold infinityCode at hc
    have hlt : (if negative then signBit + c else c) < 2 ^ 64 := by
      unfold signBit
      split_ifs <;> omega
    change (UInt64.ofNat (if negative then signBit + c else c)).toNat = _
    rw [UInt64.toNat_ofNat', Nat.mod_eq_of_lt hlt]
    cases negative <;> simp [signBits]
  have hunpack : UnpackedFloat.unpack Format.binary64
      (UInt64.ofNat (if negative then signBit + c else c)).toBitVec = unpacked negative c := by
    have hmod : (signBits negative + c) % signBit = c := by
      unfold infinityCode at hc
      cases negative <;> simp only [signBits, signBit, Bool.false_eq_true, if_false, if_true] <;> omega
    have hsign : decide (signBit ≤ signBits negative + c) = negative := by
      unfold infinityCode at hc
      cases negative
      · simp only [signBits, signBit, Bool.false_eq_true, if_false, decide_eq_false_iff_not]
        omega
      · simp only [signBits, signBit, if_true, decide_eq_true_eq]
        omega
    rw [unpack_eq, hbits, hmod, hsign, if_pos hc]
  apply parts_of_pack hc
  rw [← pack_unpacked_toNat negative hc, ← hunpack]

@[simp] theorem isNegative_ofCode (negative : Bool) {c : ℕ} (hc : c ≤ infinityCode) :
    isNegative (ofCode negative c) = negative := (parts_ofCode negative hc).1

@[simp] theorem code_ofCode (negative : Bool) {c : ℕ} (hc : c ≤ infinityCode) :
    code (ofCode negative c) = c := (parts_ofCode negative hc).2

/-- A number is made of its sign and its code. -/
theorem ofCode_parts (x : Float) : ofCode (isNegative x) (code x) = x := by
  have hlt : x.toBits.toNat < 2 ^ 64 := x.toBits.toNat_lt
  have hbits : (if isNegative x then signBit + code x else code x) = x.toBits.toNat := by
    unfold isNegative code signBit
    split
    · next hsign =>
      rw [decide_eq_true_eq] at hsign
      omega
    · next hsign =>
      rw [decide_eq_true_eq] at hsign
      omega
  rw [ofCode, hbits, UInt64.ofNat_toNat, Float.ofBits_toBits]

theorem isNaN_iff (x : Float) : x.isNaN = true ↔ infinityCode < code x := by
  change x.toModel.unpack.isNaN = true ↔ _
  rw [unpack_toModel]
  unfold unpacked
  split_ifs with h₁ h₂ h₃ <;> simp only [UnpackedFloat.isNaN, Bool.false_eq_true, false_iff, true_iff]
  all_goals omega

theorem isInf_iff (x : Float) : x.isInf = true ↔ code x = infinityCode := by
  change x.toModel.unpack.isInf = true ↔ _
  rw [unpack_toModel]
  unfold unpacked
  split_ifs with h₁ h₂ h₃ <;> simp only [UnpackedFloat.isInf, Bool.false_eq_true, false_iff, true_iff]
  · rw [h₂]
    decide
  all_goals omega

theorem isFinite_iff (x : Float) : x.isFinite = true ↔ code x < infinityCode := by
  change x.toModel.unpack.isFinite = true ↔ _
  rw [unpack_toModel]
  unfold unpacked
  split_ifs with h₁ h₂ h₃ <;> simp only [UnpackedFloat.isFinite, Bool.false_eq_true, false_iff, true_iff]
  · rw [h₂]
    decide
  all_goals omega

theorem sign_neg (negative : Bool) : -sign negative = sign !negative := by cases negative <;> rfl

theorem unpacked_neg (negative : Bool) (c : ℕ) :
    (unpacked negative c).neg = unpacked (!negative) c := by
  unfold unpacked
  split_ifs <;> simp only [UnpackedFloat.neg, sign_neg]

theorem parts_neg {x : Float} (hx : code x ≤ infinityCode) :
    isNegative (-x) = !isNegative x ∧ code (-x) = code x := by
  change isNegative (Float.ofModel (.pack x.toModel.unpack.neg)) = _
    ∧ code (Float.ofModel (.pack x.toModel.unpack.neg)) = _
  rw [unpack_toModel, if_pos hx, unpacked_neg]
  exact parts_of_pack hx (pack_unpacked_toNat _ hx)

end DeskCalculator.Binary64
