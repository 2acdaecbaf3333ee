import DeskCalculator.Proofs.Programmer.Conversion
import DeskCalculator.Proofs.Session.Changes
import Mathlib.Data.List.Basic

/-! Canonical numerals of a base, which are the texts that integers are written as. Editing keeps a numeral
canonical, and a canonical numeral is read as the integer that it is the text of, as long as that fits. -/
namespace DeskCalculator.Base
open Text

/-- A canonical numeral: a zero, or a digit other than zero and further digits, with or without a minus
sign before them. Letters are upper-case. -/
def IsCanonical (base : Base) (text : String) : Prop :=
  text = "0" ∨ ∃ sign d ds, text.toList = sign ++ d :: ds ∧ (sign = [] ∨ sign = ['-']) ∧ d ≠ '0' ∧
    ∀ c ∈ d :: ds, base.isDigit c = true ∧ c.isLower = false

theorem isCanonical_zero (base : Base) : base.IsCanonical "0" := Or.inl rfl

theorem digit_eq_zero_iff {k : ℕ} (hk : k < 16) : digit k = '0' ↔ k = 0 := by
  have hall : ∀ k : Fin 16, digit k = '0' ↔ k.val = 0 := by decide
  exact hall ⟨k, hk⟩

theorem isLower_digit {k : ℕ} (hk : k < 16) : (digit k).isLower = false := by
  have hall : ∀ k : Fin 16, (digit k).isLower = false := by decide
  exact hall ⟨k, hk⟩

theorem toUpper_digit {k : ℕ} (hk : k < 16) : (digit k).toUpper = digit k := by
  have hall : ∀ k : Fin 16, (digit k).toUpper = digit k := by decide
  exact hall ⟨k, hk⟩

theorem digit_digitValue {c : Char} {k : ℕ} (hvalue : digitValue? c = some k) (hk : k < 16)
    (hcase : c.isLower = false) : digit k = c := by
  by_cases hc : c.isDigit = true
  · have hall : ∀ k : Fin 10, ∀ n < 16, digitValue? (Nat.digitChar k) = some n →
        digit n = Nat.digitChar k := by decide
    exact forall_digit (P := fun c => ∀ n < 16, digitValue? c = some n → digit n = c) hall hc k hk hvalue
  · by_cases hupper : c.isUpper = true
    · have hall : ∀ k < 16, 10 ≤ k → digit k = Char.ofNat (k + 55) := by decide
      have hbound : 65 ≤ c.toNat := by
        have hletter : 'A'.val ≤ c.val ∧ c.val ≤ 'Z'.val := of_decide_eq_true hupper
        exact hletter.1
      rw [digitValue?, if_neg hc, if_neg (by rw [hcase]; decide), if_pos hupper, Option.some.injEq] at hvalue
      have hchar : k + 55 = c.toNat := by
        have hA : 'A'.toNat = 65 := rfl
        omega
      rw [hall k hk (by omega), hchar, Char.ofNat_toNat]
    · simp [digitValue?, hc, hcase, hupper] at hvalue

theorem exists_digit {base : Base} {c : Char} (hdigit : base.isDigit c = true) (hcase : c.isLower = false) :
    ∃ k < base.radix, digit k = c := by
  have hradix := base.radix_bounds
  cases hvalue : digitValue? c with
  | none => simp [isDigit, hvalue] at hdigit
  | some k =>
    have hk : k < base.radix := by simpa [isDigit, hvalue] using hdigit
    exact ⟨k, hk, digit_digitValue hvalue (by omega) hcase⟩

theorem digits_append_digit (base : Base) {n k : ℕ} (hn : n ≠ 0) (hk : k < base.radix) :
    base.digits (n * base.radix + k) = base.digits n ++ [digit k] := by
  have hradix := base.radix_bounds
  have hlarge : ¬ n * base.radix + k < base.radix := by
    have hmul : base.radix ≤ n * base.radix := Nat.le_mul_of_pos_left _ (Nat.pos_of_ne_zero hn)
    omega
  have hdiv : (n * base.radix + k) / base.radix = n := by
    rw [Nat.mul_comm, Nat.mul_add_div (by omega), Nat.div_eq_of_lt hk, Nat.add_zero]
  have hmod : (n * base.radix + k) % base.radix = k := by
    rw [Nat.mul_comm, Nat.mul_add_mod, Nat.mod_eq_of_lt hk]
  rw [digits_eq, if_neg hlarge, hdiv, hmod]

/-- Digits that do not begin with a zero are the digits of their value. -/
theorem digits_magnitude {base : Base} {d : Char} {ds : List Char} (hd : d ≠ '0')
    (hds : ∀ c ∈ d :: ds, base.isDigit c = true ∧ c.isLower = false) :
    base.magnitude (d :: ds) ≠ 0 ∧ base.digits (base.magnitude (d :: ds)) = d :: ds := by
  have hradix := base.radix_bounds
  induction ds using List.reverseRecOn with
  | nil =>
    obtain ⟨k, hk, rfl⟩ := exists_digit (hds d (by simp)).1 (hds d (by simp)).2
    have hvalue : base.magnitude [digit k] = k := by
      simp [magnitude, digitValue?_digit (by omega : k < 16)]
    rw [hvalue, digits_eq, if_pos hk]
    exact ⟨fun h => hd ((digit_eq_zero_iff (by omega)).mpr h), rfl⟩
  | append_singleton ds c ih =>
    have hc := hds c (by simp)
    obtain ⟨k, hk, rfl⟩ := exists_digit hc.1 hc.2
    obtain ⟨hne, hdigits⟩ := ih fun c hc => hds c (List.mem_append_left _ hc)
    rw [← List.cons_append, magnitude_append_digit base _ (by omega), digits_append_digit base hne hk,
      hdigits]
    refine ⟨?_, rfl⟩
    have hmul := Nat.mul_pos (Nat.pos_of_ne_zero hne) (by omega : 0 < base.radix)
    omega

theorem digits_head {n : ℕ} (base : Base) (hn : n ≠ 0) : ∃ d ds, base.digits n = d :: ds ∧ d ≠ '0' := by
  have hradix := base.radix_bounds
  induction n using Nat.strong_induction_on with
  | _ n ih =>
    rw [digits_eq]
    by_cases hlt : n < base.radix
    · rw [if_pos hlt]
      exact ⟨digit n, [], rfl, fun h => hn ((digit_eq_zero_iff (by omega)).mp h)⟩
    · rw [if_neg hlt]
      have hquotient : n / base.radix ≠ 0 := Nat.div_ne_zero_iff.mpr ⟨by omega, by omega⟩
      obtain ⟨d, ds, hdigits, hd⟩ := ih _ (Nat.div_lt_self (by omega) (by omega)) hquotient
      exact ⟨d, ds ++ [digit (n % base.radix)], by rw [hdigits, List.cons_append], hd⟩

/-- In base two a magnitude that fits has 63 digits at most, and in the others it has fewer. -/
theorem length_digits_le (base : Base) {n : ℕ} (hn : n ≤ maxMagnitude) : (base.digits n).length ≤ 63 := by
  rw [digits, List.length_map]
  apply (Nat.length_toDigits_le_iff base.radix_bounds.1 (by decide)).mpr
  have hpow : 2 ^ 63 ≤ base.radix ^ 63 := Nat.pow_le_pow_left base.radix_bounds.1 63
  unfold maxMagnitude at hn
  omega

theorem length_write_le (base : Base) {n : Int64} (hn : n.toInt.natAbs ≤ maxMagnitude) :
    (base.write n).length ≤ 64 := by
  have hdigits := base.length_digits_le hn
  rw [← String.length_toList, toList_write, List.length_append]
  split <;> simp only [List.length_cons, List.length_nil] <;> omega

theorem toList_write_of_nonneg (base : Base) {n : Int64} (hn : 0 ≤ n) :
    (base.write n).toList = base.digits n.toInt.natAbs := by
  have hsign : ¬ n.toInt < 0 := not_lt.mpr (Int64.le_iff_toInt_le.mp hn)
  rw [toList_write, if_neg hsign, List.nil_append]

theorem write_ne_empty (base : Base) (n : Int64) : base.write n ≠ "" := by
  intro hnil
  have htext := base.toList_write n
  rw [hnil] at htext
  simp [base.digits_ne_nil] at htext

theorem isCanonical_write (base : Base) (n : Int64) : base.IsCanonical (base.write n) := by
  have hradix := base.radix_bounds
  by_cases hzero : n.toInt.natAbs = 0
  · obtain rfl : n = 0 := Int64.toInt_inj.mp (Int.natAbs_eq_zero.mp hzero)
    exact Or.inl base.write_zero
  · obtain ⟨d, ds, hdigits, hd⟩ := base.digits_head hzero
    refine Or.inr ⟨_, d, ds, by rw [toList_write, hdigits], by split <;> simp, hd, ?_⟩
    intro c hc
    rw [← hdigits] at hc
    obtain ⟨k, hk, rfl⟩ := base.exists_of_mem_digits hc
    exact ⟨base.isDigit_digit hk, isLower_digit (by omega)⟩

theorem isCanonical_convert (text : String) (source target : Base) :
    target.IsCanonical (convert text source target) := by
  rw [convert_eq_write]
  exact target.isCanonical_write _

theorem isCanonical_singleton {base : Base} {text : String} {c : Char} (htext : text.toList = [c])
    (hdigit : base.isDigit c = true) (hcase : c.isLower = false) : base.IsCanonical text := by
  by_cases hzero : c = '0'
  · subst hzero
    exact Or.inl (String.toList_inj.mp htext)
  · exact Or.inr ⟨[], c, [], htext, Or.inl rfl, hzero, by simp [hdigit, hcase]⟩

theorem IsCanonical.extended {base : Base} {text : String} (h : base.IsCanonical text) {c : Char}
    (hdigit : base.isDigit c = true) (hcase : c.isLower = false) : base.IsCanonical (extended text c) := by
  by_cases hzero : text = "0"
  · subst hzero
    exact isCanonical_singleton (extended_zero c) hdigit hcase
  · obtain ⟨sign, d, ds, htext, hsign, hd, hds⟩ := h.resolve_left hzero
    refine Or.inr ⟨sign, d, ds ++ [c], by simp [extended_of_ne hzero, htext], hsign, hd, ?_⟩
    intro e he
    rcases List.mem_append.mp (List.cons_append ▸ he) with he | he
    · exact hds e he
    · obtain rfl := List.mem_singleton.mp he
      exact ⟨hdigit, hcase⟩

theorem IsCanonical.shortened {base : Base} {text : String} (h : base.IsCanonical text) :
    base.IsCanonical (shortened text) := by
  rcases h with rfl | ⟨sign, d, ds, htext, hsign, hd, hds⟩
  · exact Or.inl rfl
  · rcases List.eq_nil_or_concat' ds with rfl | ⟨es, c, rfl⟩
    · rw [shortened_of_eq htext, if_pos hsign]
      exact base.isCanonical_zero
    · have hminus : d ≠ '-' := by
        rintro rfl
        have hfalse : base.isDigit '-' = false := by cases base <;> decide
        exact absurd (hds '-' (by simp)).1 (by simp [hfalse])
      -- the first digit stays, and it is no sign
      have hsplit : text.toList = sign ++ d :: es ++ [c] := by simp [htext]
      refine Or.inr ⟨sign, d, es, toList_shortened hsplit (by simp) hminus, hsign, hd, ?_⟩
      exact fun e he => hds e (List.mem_append_left _ he)

/-- Reading a sign, or none, and digits to the end of the text. -/
theorem read_signed {base : Base} {text : String} {sign ds : List Char}
    (htext : text.toList = sign ++ ds) (hsign : sign = [] ∨ sign = ['-']) (hne : ds ≠ [])
    (hds : ∀ c ∈ ds, base.isDigit c = true) (hfits : base.magnitude ds ≤ maxMagnitude) :
    base.read text
      = .ok (Int64.ofInt (if sign = ['-'] then -(base.magnitude ds : ℤ) else base.magnitude ds)) := by
  let leading : base.Leading text := .ofSigned htext hsign hne hds
  have hvalue := Leading.value_ofSigned htext hsign hne hds
  have habs : leading.value.natAbs ≤ maxMagnitude := by
    rw [leading.natAbs_value, ← magnitude_eq_placeValue]
    exact hfits
  rw [leading.read_eq, if_neg (not_lt.mpr habs), hvalue]

/-- A canonical numeral whose magnitude fits is read, and what is read is written as it. -/
theorem IsCanonical.read {base : Base} {text : String} (h : base.IsCanonical text)
    (hfits : base.magnitude (takeSign text.toList).2 ≤ maxMagnitude) :
    ∃ n, base.read text = .ok n ∧ base.write n = text := by
  rcases h with rfl | ⟨sign, d, ds, htext, hsign, hd, hds⟩
  · exact ⟨0, base.read_zero, base.write_zero⟩
  · obtain ⟨hne, hdigits⟩ := digits_magnitude hd hds
    have hunsigned : (takeSign text.toList).2 = d :: ds := by
      obtain ⟨-, hplus, hminus⟩ := front_of_isDigit (hds d (by simp)).1
      rcases hsign with rfl | rfl
      · rw [htext, List.nil_append, takeSign_of_ne hplus hminus]
      · rw [htext]
        rfl
    rw [hunsigned] at hfits
    refine ⟨_, read_signed htext hsign (List.cons_ne_nil d ds) (fun c hc => (hds c hc).1) hfits, ?_⟩
    -- the integer has the magnitude of the digits, and the sign of the text
    rw [← String.toList_inj, toList_write, htext]
    unfold maxMagnitude at hfits
    rcases hsign with rfl | rfl
    · rw [if_neg (List.cons_ne_nil _ _).symm, Int64.toInt_ofInt_of_le (by omega) (by omega), Int.natAbs_natCast,
        hdigits, if_neg (by simp)]
    · rw [if_pos rfl, Int64.toInt_ofInt_of_le (by omega) (by omega), Int.natAbs_neg,
        Int.natAbs_natCast, hdigits, if_pos]
      have hpos := Nat.pos_of_ne_zero hne
      omega

end DeskCalculator.Base
