import DeskCalculator.Proofs.Calendar.Walk

/-! The figures of a difference. Its days are the steps from the earlier day to the later one. Its months and years are
rounded quotients, and the number of days in a month is rounded too; the whole parts are exact all the same, for an
exact quotient is a whole number or far enough from one, and the divisor is nearer to what it stands for than a
quotient can tell. -/
namespace DeskCalculator

namespace Binary64

/-- What is below a whole number by more than half a step of the numbers there is rounded to a number below it. -/
theorem lt_of_nearest {x : ℚ} {c d n : ℕ} (hn : n ≠ 0) (hd : (units d : ℚ) = n * 2 ^ unitPlaces)
    (hc : Nearest (x * 2 ^ unitPlaces) c) (hx : x < n * (1 - 1 / 2 ^ 53)) : c < d := by
  have hone : (1 : ℚ) ≤ n := by exact_mod_cast Nat.one_le_iff_ne_zero.mpr hn
  have hU : (0 : ℚ) < 2 ^ unitPlaces := by positivity
  cases d with
  | zero =>
    rw [units_zero] at hd
    push_cast at hd
    nlinarith
  | succ d =>
    have hstep : (2 : ℚ) ^ 52 * 2 ^ binade d ≤ n * 2 ^ unitPlaces := by
      by_cases hbinade : binade d = 0
      · have hpow : (2 : ℚ) ^ 52 ≤ 2 ^ unitPlaces := pow_le_pow_right₀ (by norm_num) (by decide)
        rw [hbinade, pow_zero, mul_one]
        exact hpow.trans (le_mul_of_one_le_left hU.le hone)
      · have hunits : (2 : ℚ) ^ 52 * 2 ^ binade d ≤ units d := by exact_mod_cast units_ge_of_binade_pos hbinade
        have hmono : (units d : ℚ) ≤ units (d + 1) := by exact_mod_cast units_strictMono.monotone (Nat.le_succ d)
        linarith
    have hbelow : x * 2 ^ unitPlaces < halfway d := by
      have hsucc : (units (d + 1) : ℚ) = units d + 2 ^ binade d := by exact_mod_cast units_succ d
      have hscaled := mul_lt_mul_of_pos_right hx hU
      rw [halfway_eq]
      linarith
    by_contra! hle
    obtain ⟨e, rfl⟩ := Nat.exists_eq_add_one_of_ne_zero (by omega : c ≠ 0)
    have hmono : halfway d ≤ halfway e := halfway_strictMono.monotone (by omega)
    rcases hc.lower e rfl with h | ⟨h, -⟩ <;> linarith

/-- What is below a whole number by less than its relative precision is rounded to the whole number. -/
theorem ge_of_nearest {x : ℚ} {c n : ℕ} (hlt : n < 2 ^ 53) (hc : Nearest (x * 2 ^ unitPlaces) c)
    (hx : n ≠ 0 → (n - x) * 2 ^ 54 < n) : n * 2 ^ unitPlaces ≤ units c := by
  have hU : (0 : ℚ) < 2 ^ unitPlaces := by positivity
  by_cases hn : n = 0
  · rw [hn, Nat.zero_mul]
    exact Nat.zero_le _
  · rcases le_or_gt (n : ℚ) x with hle | hbelow
    · have hunits := Number.le_units_of_nearest hc hn hlt (mul_le_mul_of_nonneg_right hle hU.le)
      exact_mod_cast hunits
    · obtain ⟨d, -, hd⟩ := exists_units_eq hn hlt
      have hclose : |x * 2 ^ unitPlaces - units d| * 2 ^ 54 < units d := by
        have hnegative : x * 2 ^ unitPlaces - units d ≤ 0 := by
          rw [hd, ← sub_mul]
          exact mul_nonpos_of_nonpos_of_nonneg (by linarith) hU.le
        have hscaled := mul_lt_mul_of_pos_right (hx hn) hU
        rw [abs_of_nonpos hnegative, hd]
        linarith
      obtain rfl : c = d := hc.unique (nearest_of_abs_sub_lt hclose)
      exact_mod_cast hd.ge

/-- Rounding keeps the whole part of a number that is, but for its precision, at least a whole number, and clearly below
the next one. -/
theorem wholePart_of_nearest {x : ℚ} {c k : ℕ} (hc : Nearest (x * 2 ^ unitPlaces) c)
    (hlower : k ≠ 0 → (k - x) * 2 ^ 54 < k) (hupper : x < (k + 1 : ℕ) * (1 - 1 / 2 ^ 53)) (hk : k + 1 < 2 ^ 53) :
    wholePart (min c infinityCode) = k := by
  obtain ⟨d, hfinite, hd⟩ := exists_units_eq (Nat.succ_ne_zero k) hk
  have hlt : c < d := lt_of_nearest (Nat.succ_ne_zero k) hd hc hupper
  have hbelow : k * 2 ^ unitPlaces ≤ units c := ge_of_nearest (Nat.lt_of_succ_lt hk) hc hlower
  have habove : units c < (k + 1) * 2 ^ unitPlaces := by
    have hunits : (units c : ℚ) < units d := by exact_mod_cast units_strictMono hlt
    rw [hd] at hunits
    exact_mod_cast hunits
  rw [min_eq_left (hlt.trans hfinite).le, wholePart, Nat.shiftRight_eq_div_pow]
  exact Nat.div_eq_of_lt_le hbelow habove

end Binary64

namespace DateDifference
open Binary64

/-- A quotient is exact in its whole part if the divisor is `q / p` or so little more that no quotient tells the
difference, and if the quotient is not so large that whole numbers are all it can be. -/
theorem wholeQuotient_eq {d : Decimal} {n p q : ℕ} {divisor : ℚ} (hp : 0 < p) (hq : 0 < q)
    (hdivisor : (units d.code : ℚ) = divisor * 2 ^ unitPlaces) (hle : (q : ℚ) ≤ divisor * p)
    (hlt : divisor * p * (2 ^ 54 - 1) < q * 2 ^ 54) (hsize : p * n + q < 2 ^ 53) :
    wholeQuotient n d = p * n / q := by
  have hpq : (0 : ℚ) < p := by exact_mod_cast hp
  have hqq : (0 : ℚ) < q := by exact_mod_cast hq
  have hpositive : 0 < divisor := by
    by_contra! hnonpos
    have hproduct := mul_nonpos_of_nonpos_of_nonneg hnonpos hpq.le
    linarith
  have hunits : 0 < units d.code := by
    have hproduct : (0 : ℚ) < divisor * 2 ^ unitPlaces := by positivity
    rw [← hdivisor] at hproduct
    exact_mod_cast hproduct
  obtain ⟨c, hc, hcode⟩ := codeOfQuotient_nearest (n <<< unitPlaces) hunits
  set x : ℚ := n / divisor with hx
  have hvalue : ((n <<< unitPlaces : ℕ) : ℚ) * 2 ^ unitPlaces / (units d.code : ℕ) = x * 2 ^ unitPlaces := by
    rw [hdivisor, Nat.shiftLeft_eq, hx]
    push_cast
    field_simp
  rw [hvalue] at hc
  -- the quotient in comparison with the exact one, `p * n / q`
  have hproduct : x * divisor = n := div_mul_cancel₀ _ hpositive.ne'
  have habove : x * q ≤ p * n := by
    calc x * q ≤ x * (divisor * p) := mul_le_mul_of_nonneg_left hle (by positivity)
      _ = p * n := by rw [← hproduct]; ring
  have hbelow (hn : (0 : ℚ) < n) : p * n * (2 ^ 54 - 1) < x * q * 2 ^ 54 := by
    calc p * n * (2 ^ 54 - 1) = x * (divisor * p * (2 ^ 54 - 1)) := by rw [← hproduct]; ring
      _ < x * (q * 2 ^ 54) := mul_lt_mul_of_pos_left hlt (by positivity)
      _ = x * q * 2 ^ 54 := by ring
  -- the exact one in comparison with its whole part
  set k := p * n / q with hk
  have hfloor : q * k ≤ p * n := Nat.mul_div_le _ _
  have hceil : p * n + 1 ≤ q * (k + 1) := Nat.lt_mul_div_succ _ hq
  have hfloorq : (q : ℚ) * k ≤ p * n := by exact_mod_cast hfloor
  have hceilq : (p : ℚ) * n + 1 ≤ q * (k + 1 : ℕ) := by exact_mod_cast hceil
  have hnext : q * (k + 1) < 2 ^ 53 := by
    rw [Nat.mul_succ]
    omega
  have hnextq : (q : ℚ) * (k + 1 : ℕ) < 2 ^ 53 := by exact_mod_cast hnext
  have hlower : k ≠ 0 → (k - x) * 2 ^ 54 < k := by
    intro hzero
    have hn : (0 : ℚ) < n := by
      have hpos : 0 < p * n := (Nat.mul_pos hq (Nat.pos_of_ne_zero hzero)).trans_le hfloor
      exact_mod_cast Nat.pos_of_mul_pos_left hpos
    have hscaled := hbelow hn
    have hcancel : q * ((k - x) * 2 ^ 54) < q * k := by linarith
    exact lt_of_mul_lt_mul_left hcancel hqq.le
  have hupper : x < (k + 1 : ℕ) * (1 - 1 / 2 ^ 53) := by
    have hcancel : q * x < q * ((k + 1 : ℕ) * (1 - 1 / 2 ^ 53)) := by linarith
    exact lt_of_mul_lt_mul_left hcancel hqq.le
  have hsmall : k + 1 < 2 ^ 53 := lt_of_le_of_lt (Nat.le_mul_of_pos_left _ hq) hnext
  rw [wholeQuotient, hcode]
  exact wholePart_of_nearest hc hlower hupper hsmall

theorem units_eq_quotient {c m i j : ℕ} (hplaces : i + j = unitPlaces) (h : units c = m * 2 ^ j) :
    (units c : ℚ) = m / 2 ^ i * 2 ^ unitPlaces := by
  rw [h, ← hplaces, pow_add]
  push_cast
  field_simp

/-- What stands for the 30.44 days of a month is above it, by three quarters of what is allowed. -/
theorem months_between (a b : Date) : (between a b).months = 25 * (between a b).days / 761 := by
  have hdays : (b.dayNumber - a.dayNumber).natAbs ≤ 10 ^ 9 := Calendar.days_between_le a b
  have hunits : units daysPerMonth.code = 8568098291072369 * 2 ^ 1026 := by decide +kernel
  have hdivisor := units_eq_quotient (i := 48) rfl hunits
  exact wholeQuotient_eq (by decide) (by decide) hdivisor (by norm_num) (by norm_num) (by omega)

/-- The 365.25 days of a year are a number themselves. -/
theorem years_between (a b : Date) : (between a b).years = 4 * (between a b).days / 1461 := by
  have hdays : (b.dayNumber - a.dayNumber).natAbs ≤ 10 ^ 9 := Calendar.days_between_le a b
  have hunits : units daysPerYear.code = 1461 * 2 ^ 1072 := by decide +kernel
  have hdivisor := units_eq_quotient (i := 2) rfl hunits
  exact wholeQuotient_eq (by decide) (by decide) hdivisor (by norm_num) (by norm_num) (by omega)

theorem between_comm (a b : Date) : between a b = between b a := by
  have hdays : (b.dayNumber - a.dayNumber).natAbs = (a.dayNumber - b.dayNumber).natAbs := by
    rw [← Int.natAbs_neg, neg_sub]
  simp only [between, hdays]

end DateDifference

namespace Calendar

/-- The days of a month come before those of every later month. -/
theorem Month.daysBefore_of_index_lt {month later : Month} (h : month.index < later.index) :
    month.daysBefore + month.days ≤ later.daysBefore := by
  obtain ⟨count, hcount⟩ : ∃ count : ℕ, later.index = month.next.index + count :=
    Int.le.dest (index_next month ▸ h) |>.imp fun _ heq => heq.symm
  obtain rfl : later = next^[count] month.next := by
    apply index_injective
    rw [hcount, number_iterate index_next, mul_one]
  rw [← daysBefore_next]
  clear hcount h
  induction count with
  | zero => exact le_rfl
  | succ count ih =>
    have hstep := daysBefore_next (next^[count] month.next)
    rw [Function.iterate_succ_apply']
    omega

theorem Day.dayNumber_injective : Function.Injective Day.dayNumber := by
  have hbefore {a b : Day} (h : a.month.index < b.month.index) : a.dayNumber < b.dayNumber := by
    have hmonths := Month.daysBefore_of_index_lt h
    have hlast := a.day_le
    have hfirst := b.one_le_day
    unfold dayNumber
    omega
  intro a b h
  have hindex : a.month.index = b.month.index := by
    rcases lt_trichotomy a.month.index b.month.index with hlt | heq | hgt
    · exact absurd h (hbefore hlt).ne
    · exact heq
    · exact absurd h (hbefore hgt).ne'
  have hmonth : a.month = b.month := Month.index_injective hindex
  apply Day.ext_of hmonth
  unfold dayNumber at h
  rw [hmonth] at h
  omega

theorem Day.iterate_next_eq {a b : Day} {count : ℕ} (h : a.dayNumber + count = b.dayNumber) :
    next^[count] a = b := by
  apply dayNumber_injective
  rw [dayNumber_iterate_next, h]

end Calendar

open Calendar

/-- As many steps as a difference has days lead from the earlier day to the later one. -/
theorem DateDifference.walk_between (a b : Date) :
    Day.next^[(between a b).days] (min a b).toDay = (max a b).toDay := by
  have hdays : (between a b).days = (b.dayNumber - a.dayNumber).natAbs := rfl
  apply Day.iterate_next_eq
  rw [Date.dayNumber_toDay, Date.dayNumber_toDay, hdays]
  rcases le_total a b with hle | hle
  · have hnumber : a.dayNumber ≤ b.dayNumber := hle
    rw [min_eq_left hle, max_eq_right hle]
    omega
  · have hnumber : b.dayNumber ≤ a.dayNumber := hle
    rw [min_eq_right hle, max_eq_left hle]
    omega

/-- A difference is the same in both directions. Its days are the steps through the calendar from the earlier day to the
later one, and although its divisions round twice, its months are the whole months of 30.44 days and its years the whole
years of 365.25 days in them. -/
theorem difference_is_exact (a b : Date) :
    let d := DateDifference.between a b
    d = DateDifference.between b a ∧ Day.next^[d.days] (min a b).toDay = (max a b).toDay ∧
      d.months = 25 * d.days / 761 ∧ d.years = 4 * d.days / 1461 := by
  intro d
  exact ⟨DateDifference.between_comm a b, DateDifference.walk_between a b, DateDifference.months_between a b,
    DateDifference.years_between a b⟩

/-- Twenty-five months are 761 days, and a day less are only twenty-four. -/
example :
    let birth : Date := ⟨2001, 1, 1, by decide⟩
    (DateDifference.between birth ⟨2003, 2, 1, by decide⟩) = ⟨761, 25, 2⟩ ∧
      (DateDifference.between birth ⟨2003, 1, 31, by decide⟩) = ⟨760, 24, 2⟩ := by
  decide +kernel

end DeskCalculator
