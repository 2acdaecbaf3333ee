import DeskCalculator.Number.Binary64
import Mathlib.Tactic.Linarith
import Mathlib.Tactic.NormNum
import Mathlib.Tactic.Positivity
import Mathlib.Tactic.Ring
import Mathlib.Algebra.Order.Field.Rat
import Mathlib.Algebra.Ring.Parity
import Mathlib.Order.Monotone.Basic

/-! Codes of binary64 numbers and rounding to the nearest of them. A magnitude is a rational in units of
`2 ^ -1074`; `Nearest` says which code it is rounded to, and all that is used of rounding follows from the
two midpoints that bound the magnitudes of one code. -/
namespace DeskCalculator.Binary64

theorem binade_eq (c : ℕ) : binade c = c / 2 ^ 52 - 1 := by
  simp [binade, Nat.shiftRight_eq_div_pow]

/-- The factor of the binade of a code: `units c` is `mantissa c * 2 ^ binade c`. -/
def mantissa (c : ℕ) : ℕ := c - binade c * 2 ^ 52

theorem code_eq_parts (c : ℕ) : c = binade c * 2 ^ 52 + mantissa c := by
  have h := binade_eq c
  unfold mantissa
  omega

theorem mantissa_lt (c : ℕ) : mantissa c < 2 ^ 53 := by
  have h := binade_eq c
  unfold mantissa
  omega

theorem mantissa_ge_of_binade_pos {c : ℕ} (hc : binade c ≠ 0) : 2 ^ 52 ≤ mantissa c := by
  have h := binade_eq c
  unfold mantissa
  omega

theorem units_eq (c : ℕ) : units c = mantissa c * 2 ^ binade c := by
  simp [units, mantissa, Nat.shiftLeft_eq]

/-- A mantissa of 53 bits may be full, which is one more than a code keeps: the code then is the first of
the next binade, and stands for the same magnitude. -/
theorem units_of_parts {b m : ℕ} (hm : m ≤ 2 ^ 53) (hb : b = 0 ∨ 2 ^ 52 ≤ m) :
    units (b * 2 ^ 52 + m) = m * 2 ^ b := by
  have h := binade_eq (b * 2 ^ 52 + m)
  rw [units_eq]
  unfold mantissa
  rcases hm.lt_or_eq with hlt | rfl
  · have hbin : binade (b * 2 ^ 52 + m) = b := by omega
    rw [hbin]
    congr 1
    omega
  · have hbin : binade (b * 2 ^ 52 + 2 ^ 53) = b + 1 := by omega
    rw [hbin, show b * 2 ^ 52 + 2 ^ 53 - (b + 1) * 2 ^ 52 = 2 ^ 52 by omega]
    ring

theorem units_succ (c : ℕ) : units (c + 1) = units c + 2 ^ binade c := by
  have hm : mantissa c + 1 ≤ 2 ^ 53 := mantissa_lt c
  have hb : binade c = 0 ∨ 2 ^ 52 ≤ mantissa c + 1 := by
    by_cases h : binade c = 0
    · exact Or.inl h
    · exact Or.inr (le_add_right (mantissa_ge_of_binade_pos h))
  have hc : c + 1 = binade c * 2 ^ 52 + (mantissa c + 1) := by
    have := code_eq_parts c
    omega
  rw [hc, units_of_parts hm hb, units_eq]
  ring

theorem units_strictMono : StrictMono units :=
  strictMono_nat_of_lt_succ fun c => by
    rw [units_succ]
    exact Nat.lt_add_of_pos_right (Nat.two_pow_pos _)

@[simp] theorem units_zero : units 0 = 0 := rfl

theorem units_lt (c : ℕ) : units c < 2 ^ 53 * 2 ^ binade c := by
  rw [units_eq]
  exact Nat.mul_lt_mul_of_pos_right (mantissa_lt c) (Nat.two_pow_pos _)

theorem units_ge_of_binade_pos {c : ℕ} (hc : binade c ≠ 0) : 2 ^ 52 * 2 ^ binade c ≤ units c := by
  rw [units_eq]
  exact Nat.mul_le_mul_right _ (mantissa_ge_of_binade_pos hc)

theorem exists_units_eq {n : ℕ} (hpos : n ≠ 0) (hlt : n < 2 ^ 53) :
    ∃ c < infinityCode, (units c : ℚ) = n * 2 ^ unitPlaces := by
  -- The number is shifted until it has 53 bits, and its binade makes up for that.
  set j := n.log2 with hj
  have hjle : j < 53 := (Nat.log2_lt hpos).mpr hlt
  have hpow (k : ℕ) : 2 ^ k * 2 ^ (52 - j) = 2 ^ (k + (52 - j)) := (pow_add 2 k (52 - j)).symm
  have hlower : 2 ^ 52 ≤ n * 2 ^ (52 - j) := by
    calc 2 ^ 52 = 2 ^ (j + (52 - j)) := by rw [Nat.add_sub_cancel' (by omega)]
      _ = 2 ^ j * 2 ^ (52 - j) := (hpow j).symm
      _ ≤ n * 2 ^ (52 - j) := Nat.mul_le_mul_right _ (Nat.log2_self_le hpos)
  have hupper : n * 2 ^ (52 - j) ≤ 2 ^ 53 := by
    calc n * 2 ^ (52 - j) ≤ 2 ^ (j + 1) * 2 ^ (52 - j) := Nat.mul_le_mul_right _ Nat.lt_log2_self.le
      _ = 2 ^ (j + 1 + (52 - j)) := hpow (j + 1)
      _ = 2 ^ 53 := by rw [show j + 1 + (52 - j) = 53 by omega]
  refine ⟨(1022 + j) * 2 ^ 52 + n * 2 ^ (52 - j), ?_, ?_⟩
  · unfold infinityCode
    omega
  · have hplaces : 52 - j + (1022 + j) = unitPlaces := by
      unfold unitPlaces
      omega
    rw [units_of_parts hupper (Or.inr hlower), mul_assoc, ← pow_add, hplaces]
    push_cast
    rfl

/-- The magnitude halfway between a code and the next one. -/
def halfway (c : ℕ) : ℚ := (units c + units (c + 1)) / 2

theorem halfway_eq (c : ℕ) : halfway c = units c + 2 ^ binade c / 2 := by
  rw [halfway, units_succ]
  push_cast
  ring

theorem halfway_strictMono : StrictMono halfway := fun c d h => by
  have h₁ : (units c : ℚ) < units d := by exact_mod_cast units_strictMono h
  have h₂ : (units (c + 1) : ℚ) < units (d + 1) := by
    exact_mod_cast units_strictMono (Nat.succ_lt_succ h)
  unfold halfway
  linarith

theorem units_lt_halfway (c : ℕ) : (units c : ℚ) < halfway c := by
  have h : (units c : ℚ) < units (c + 1) := by exact_mod_cast units_strictMono (Nat.lt_succ_self c)
  unfold halfway
  linarith

theorem halfway_lt_units (c : ℕ) : halfway c < units (c + 1) := by
  have h : (units c : ℚ) < units (c + 1) := by exact_mod_cast units_strictMono (Nat.lt_succ_self c)
  unfold halfway
  linarith

/-- The code that a magnitude is rounded to: the magnitude lies between the points halfway to the
neighbours of the code, and on one of them only if the code is even. -/
structure Nearest (x : ℚ) (c : ℕ) : Prop where
  lower : ∀ d, c = d + 1 → halfway d < x ∨ halfway d = x ∧ Even c
  upper : x < halfway c ∨ x = halfway c ∧ Even c

theorem nearest_units (c : ℕ) : Nearest (units c) c where
  lower d hd := by
    subst hd
    exact Or.inl (halfway_lt_units d)
  upper := Or.inl (units_lt_halfway c)

theorem Nearest.mono {x y : ℚ} {c d : ℕ} (hx : Nearest x c) (hy : Nearest y d) (h : x ≤ y) : c ≤ d := by
  by_contra! hlt
  obtain ⟨e, rfl⟩ : ∃ e, c = e + 1 := ⟨c - 1, by omega⟩
  have hde : d ≤ e := by omega
  have hle : halfway d ≤ halfway e := halfway_strictMono.monotone hde
  -- Both magnitudes lie on the one midpoint, and so two neighbouring codes are even.
  rcases hx.lower e rfl with hlower | ⟨hlower, heven⟩
  · rcases hy.upper with hupper | ⟨hupper, -⟩ <;> linarith
  · rcases hy.upper with hupper | ⟨hupper, heven'⟩
    · linarith
    · have heq : halfway d = halfway e := by linarith
      obtain rfl : d = e := halfway_strictMono.injective heq
      rw [Nat.even_add_one] at heven
      exact heven heven'

theorem Nearest.unique {x : ℚ} {c d : ℕ} (hc : Nearest x c) (hd : Nearest x d) : c = d :=
  le_antisymm (hc.mono hd le_rfl) (hd.mono hc le_rfl)

theorem Nearest.le_of_le_units {x : ℚ} {c d : ℕ} (hc : Nearest x c) (h : x ≤ units d) : c ≤ d :=
  hc.mono (nearest_units d) h

theorem Nearest.ge_of_units_le {x : ℚ} {c d : ℕ} (hc : Nearest x c) (h : (units d : ℚ) ≤ x) : d ≤ c :=
  (nearest_units d).mono hc h

theorem Nearest.eq_of_units {c d : ℕ} (hc : Nearest (units d) c) : c = d := hc.unique (nearest_units d)

theorem Nearest.abs_sub_le {x : ℚ} {c : ℕ} (hx : Nearest x c) (hnonneg : 0 ≤ x) :
    |x - units c| ≤ 2 ^ binade c / 2 := by
  have hupper : x ≤ halfway c := by
    rcases hx.upper with h | ⟨h, -⟩
    · exact h.le
    · exact h.le
  rw [halfway_eq] at hupper
  rw [abs_le]
  refine ⟨?_, by linarith⟩
  -- Below, the next midpoint is at most as far as above, and zero has none.
  rcases c with _ | d
  · simp only [units_zero, Nat.cast_zero, sub_zero]
    have : (0 : ℚ) < 2 ^ binade 0 := by positivity
    linarith
  · have hlower : halfway d ≤ x := by
      rcases hx.lower d rfl with h | ⟨h, -⟩
      · exact h.le
      · exact h.le
    have hstep : binade d ≤ binade (d + 1) := by
      rw [binade_eq, binade_eq]
      omega
    have hpow : (2 : ℚ) ^ binade d ≤ 2 ^ binade (d + 1) := pow_le_pow_right₀ (by norm_num) hstep
    rw [halfway_eq] at hlower
    rw [units_succ]
    push_cast
    linarith

/-- A point that is nearer to a code than its relative precision is rounded to it. -/
theorem nearest_of_abs_sub_lt {x : ℚ} {c : ℕ} (h : |x - units c| * 2 ^ 54 < units c) : Nearest x c := by
  have hlt : (units c : ℚ) < 2 ^ 53 * 2 ^ binade c := by exact_mod_cast units_lt c
  rw [← lt_div_iff₀ (by positivity), abs_lt] at h
  refine ⟨?_, Or.inl ?_⟩
  · rintro d rfl
    -- A step down is at least half a step up, and exactly half of it only from the first code of a binade.
    have hgap : (units (d + 1) : ℚ) ≤ 2 ^ 53 * 2 ^ binade d := by
      have hm : mantissa d + 1 ≤ 2 ^ 53 := mantissa_lt d
      rw [units_succ, units_eq]
      have : mantissa d * 2 ^ binade d + 2 ^ binade d ≤ 2 ^ 53 * 2 ^ binade d := by
        calc mantissa d * 2 ^ binade d + 2 ^ binade d = (mantissa d + 1) * 2 ^ binade d := by ring
          _ ≤ 2 ^ 53 * 2 ^ binade d := Nat.mul_le_mul_right _ hm
      exact_mod_cast this
    have hsucc : (units (d + 1) : ℚ) = units d + 2 ^ binade d := by exact_mod_cast units_succ d
    refine Or.inl ?_
    rw [halfway_eq]
    linarith [h.1]
  · rw [halfway_eq]
    linarith [h.2]

/-- The natural number that a quotient is rounded to, a half going to the even one. -/
structure NearestNat (y : ℚ) (r : ℕ) : Prop where
  lower : (r : ℚ) - 1 / 2 < y ∨ (r : ℚ) - 1 / 2 = y ∧ Even r
  upper : y < r + 1 / 2 ∨ y = r + 1 / 2 ∧ Even r

theorem NearestNat.le_of_lt {y : ℚ} {r n : ℕ} (hr : NearestNat y r) (h : y < n) : r ≤ n := by
  have hlower : (r : ℚ) - 1 / 2 ≤ y := by
    rcases hr.lower with hlt | ⟨heq, -⟩
    · exact hlt.le
    · exact heq.le
  have hlt : (r : ℚ) < (n + 1 : ℕ) := by
    push_cast
    linarith
  exact Nat.lt_succ_iff.mp (by exact_mod_cast hlt)

theorem NearestNat.ge_of_le {y : ℚ} {r n : ℕ} (hr : NearestNat y r) (h : n ≤ y) : n ≤ r := by
  have hupper : y ≤ r + 1 / 2 := by
    rcases hr.upper with hlt | ⟨heq, -⟩
    · exact hlt.le
    · exact heq.le
  have hlt : (n : ℚ) < (r + 1 : ℕ) := by
    push_cast
    linarith
  exact Nat.lt_succ_iff.mp (by exact_mod_cast hlt)

theorem roundQuotient_nearest (num : ℕ) {den : ℕ} (hden : 0 < den) :
    NearestNat (num / den) (roundQuotient num den) := by
  have hpos : (0 : ℚ) < den := by exact_mod_cast hden
  have hrest : num % den < den := Nat.mod_lt _ hden
  have hrestq : ((num % den : ℕ) : ℚ) < den := by exact_mod_cast hrest
  have hnonneg : (0 : ℚ) ≤ (num % den : ℕ) := Nat.cast_nonneg _
  have hnum : (num : ℚ) = den * (num / den : ℕ) + (num % den : ℕ) := by
    exact_mod_cast (Nat.div_add_mod num den).symm
  simp only [roundQuotient]
  split_ifs with hless hmore
  · have hlessq : 2 * ((num % den : ℕ) : ℚ) < den := by exact_mod_cast hless
    refine ⟨Or.inl ?_, Or.inl ?_⟩
    · rw [lt_div_iff₀ hpos]
      linarith
    · rw [div_lt_iff₀ hpos]
      linarith
  · have hmoreq : (den : ℚ) < 2 * ((num % den : ℕ) : ℚ) := by exact_mod_cast hmore
    refine ⟨Or.inl ?_, Or.inl ?_⟩
    · rw [lt_div_iff₀ hpos]
      push_cast
      linarith
    · rw [div_lt_iff₀ hpos]
      push_cast
      linarith
  · -- A tie: of the two neighbours the even one is taken.
    have htie : 2 * ((num % den : ℕ) : ℚ) = den := by exact_mod_cast (by omega : 2 * (num % den) = den)
    have hy : (num : ℚ) / den = (num / den : ℕ) + 1 / 2 := by
      rw [div_eq_iff hpos.ne']
      linarith
    rcases Nat.mod_two_eq_zero_or_one (num / den) with hparity | hparity
    · rw [hparity, Nat.add_zero, hy]
      exact ⟨Or.inl (by linarith), Or.inr ⟨rfl, Nat.even_iff.mpr hparity⟩⟩
    · have heven : Even (num / den + 1) := Nat.even_iff.mpr (by omega)
      rw [hparity, hy]
      refine ⟨Or.inr ⟨?_, heven⟩, Or.inl ?_⟩
      · push_cast
        ring
      · push_cast
        linarith

/-- A quotient of 53 bits before the point, rounded to a natural number, gives the code that the magnitude
is rounded to. In the lowest binade fewer bits will do. -/
theorem nearest_of_nearestNat {y : ℚ} {r s : ℕ} (hr : NearestNat y r) (hlt : y < 2 ^ 53)
    (hge : s = 0 ∨ 2 ^ 52 ≤ y) : Nearest (y * 2 ^ s) (s * 2 ^ 52 + r) := by
  have hpow : (0 : ℚ) < 2 ^ s := by positivity
  have hrle : r ≤ 2 ^ 53 := hr.le_of_lt (by exact_mod_cast hlt)
  have hrge : s = 0 ∨ 2 ^ 52 ≤ r := hge.imp_right fun h => hr.ge_of_le (by exact_mod_cast h)
  have hunits : (units (s * 2 ^ 52 + r) : ℚ) = r * 2 ^ s := by
    exact_mod_cast units_of_parts hrle hrge
  have hparity : Even (s * 2 ^ 52 + r) ↔ Even r := by
    rw [Nat.even_iff, Nat.even_iff]
    omega
  constructor
  · intro d hd
    by_cases hfirst : s = 0 ∨ 2 ^ 52 < r
    · -- The code before is in the same binade.
      obtain ⟨m, rfl⟩ : ∃ m, r = m + 1 := ⟨r - 1, by omega⟩
      have hd' : d = s * 2 ^ 52 + m := by omega
      have hbefore : (units d : ℚ) = m * 2 ^ s := by
        rw [hd']
        exact_mod_cast @units_of_parts s m (by omega) (by omega)
      have hhalf : halfway d = (((m + 1 : ℕ) : ℚ) - 1 / 2) * 2 ^ s := by
        rw [halfway, ← hd, hunits, hbefore]
        push_cast
        ring
      rw [hhalf, hparity]
      exact hr.lower.imp (fun h => mul_lt_mul_of_pos_right h hpow)
        (fun h => ⟨by rw [h.1], h.2⟩)
    · -- The code is the first of its binade: the code before is nearer than half a step.
      have hs : s ≠ 0 := fun h => hfirst (Or.inl h)
      have hreq : (r : ℚ) = 2 ^ 52 := by
        have : r = 2 ^ 52 := by omega
        exact_mod_cast this
      have hy : (2 : ℚ) ^ 52 ≤ y := hge.resolve_left hs
      refine Or.inl (lt_of_lt_of_le (halfway_lt_units d) ?_)
      rw [← hd, hunits, hreq]
      exact mul_le_mul_of_nonneg_right hy hpow.le
  · rcases hrle.lt_or_eq with hrlt | hrfull
    · have hafter : units (s * 2 ^ 52 + (r + 1)) = (r + 1) * 2 ^ s :=
        units_of_parts hrlt (by omega)
      have hhalf : halfway (s * 2 ^ 52 + r) = (r + 1 / 2) * 2 ^ s := by
        rw [halfway, hunits, Nat.add_assoc, hafter]
        push_cast
        ring
      rw [hhalf, hparity]
      exact hr.upper.imp (fun h => mul_lt_mul_of_pos_right h hpow)
        (fun h => ⟨by rw [h.1], h.2⟩)
    · -- The mantissa is full, and the magnitude is below that of the code.
      have hreq : (r : ℚ) = 2 ^ 53 := by exact_mod_cast hrfull
      refine Or.inl (lt_trans ?_ (units_lt_halfway _))
      rw [hunits, hreq]
      exact mul_lt_mul_of_pos_right hlt hpow

theorem codeOfQuotient_nearest (num : ℕ) {den : ℕ} (hden : 0 < den) :
    ∃ c, Nearest (num * 2 ^ unitPlaces / den) c ∧ codeOfQuotient num den = min c infinityCode := by
  -- The binade is chosen such that the quotient has 53 bits, or is the lowest one.
  set scaled := num * 2 ^ unitPlaces with hscaled
  set s := (scaled / den).log2 - 52 with hs
  have hcode : codeOfQuotient num den
      = min (s * 2 ^ 52 + roundQuotient scaled (den * 2 ^ s)) infinityCode := by
    simp only [codeOfQuotient, Nat.shiftLeft_eq, ← hscaled, ← hs]
    split_ifs <;> omega
  have hdenS : 0 < den * 2 ^ s := Nat.mul_pos hden (Nat.two_pow_pos s)
  have hlt : scaled < den * 2 ^ s * 2 ^ 53 := by
    have h₁ : scaled / den < 2 ^ ((scaled / den).log2 + 1) := Nat.lt_log2_self
    have h₂ : (2 : ℕ) ^ ((scaled / den).log2 + 1) ≤ 2 ^ (s + 53) :=
      Nat.pow_le_pow_right (by decide) (by omega)
    have h₃ : scaled / den < 2 ^ (s + 53) := lt_of_lt_of_le h₁ h₂
    calc scaled < 2 ^ (s + 53) * den := (Nat.div_lt_iff_lt_mul hden).mp h₃
      _ = den * 2 ^ s * 2 ^ 53 := by ring
  have hge : s = 0 ∨ den * 2 ^ s * 2 ^ 52 ≤ scaled := by
    by_cases hzero : s = 0
    · exact Or.inl hzero
    · right
      have hq : scaled / den ≠ 0 := by
        intro h
        rw [h] at hs
        exact hzero (by simpa using hs)
      have h₁ : 2 ^ (scaled / den).log2 ≤ scaled / den := Nat.log2_self_le hq
      have h₂ : (scaled / den).log2 = s + 52 := by omega
      rw [h₂] at h₁
      calc den * 2 ^ s * 2 ^ 52 = 2 ^ (s + 52) * den := by ring
        _ ≤ scaled := (Nat.le_div_iff_mul_le hden).mp h₁
  have hposq : (0 : ℚ) < (den * 2 ^ s : ℕ) := by exact_mod_cast hdenS
  refine ⟨_, ?_, hcode⟩
  have hltq : (scaled : ℚ) / (den * 2 ^ s : ℕ) < 2 ^ 53 := by
    rw [div_lt_iff₀ hposq, mul_comm]
    exact_mod_cast hlt
  have hgeq : s = 0 ∨ 2 ^ 52 ≤ (scaled : ℚ) / (den * 2 ^ s : ℕ) := by
    refine hge.imp_right fun h => ?_
    rw [le_div_iff₀ hposq, mul_comm]
    exact_mod_cast h
  have hround := nearest_of_nearestNat (roundQuotient_nearest scaled hdenS) hltq hgeq
  have hvalue : (scaled : ℚ) / (den * 2 ^ s : ℕ) * 2 ^ s = num * 2 ^ unitPlaces / den := by
    rw [hscaled]
    push_cast
    rw [div_mul_eq_mul_div, mul_div_mul_right _ _ (by positivity)]
  rwa [hvalue] at hround

end DeskCalculator.Binary64
