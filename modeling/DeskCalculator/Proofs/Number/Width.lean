import DeskCalculator.Proofs.Expression.Exponent
import DeskCalculator.Proofs.Number.Layout

/-! How long the written form of a number can be. The decimals that are tried lie next to a quotient below a power
of ten, so that the shortest one has seventeen digits at most; what the layout adds to them is bounded by the
orders that are written without an exponent. -/
namespace DeskCalculator

namespace Decimal
open Binary64

theorem scaled_quotient_lt {c k : ℕ} {e : ℤ} (hc : (units c : ℚ) < 10 ^ (e + k) * 2 ^ unitPlaces) :
    (scaled c e).1 / (scaled c e).2 < 10 ^ k := by
  have hpos : (0 : ℚ) < tenTo (-e) := by exact_mod_cast tenTo_pos (-e)
  apply Nat.div_lt_of_lt_mul
  have hlt : (units c : ℚ) * tenTo (-e) < tenTo e * 2 ^ unitPlaces * 10 ^ k := by
    calc (units c : ℚ) * tenTo (-e) < 10 ^ (e + k) * 2 ^ unitPlaces * tenTo (-e) :=
          mul_lt_mul_of_pos_right hc hpos
      _ = 10 ^ e * tenTo (-e) * 2 ^ unitPlaces * 10 ^ k := by
          rw [zpow_add₀ (by norm_num), zpow_natCast]
          ring
      _ = tenTo e * 2 ^ unitPlaces * 10 ^ k := by rw [ten_zpow_mul_tenTo]
  simp only [scaled, Nat.shiftLeft_eq]
  exact_mod_cast hlt

theorem nearest_coefficient_le (c : ℕ) (e : ℤ) :
    (nearest c e).coefficient ≤ (scaled c e).1 / (scaled c e).2 + 1 := by
  simp only [nearest]
  split_ifs
  · exact Nat.le_succ _
  · exact le_rfl

theorem readBack?_coefficient_le {c : ℕ} {e : ℤ} {d : Decimal} (h : readBack? c e = some d) :
    d.coefficient ≤ (scaled c e).1 / (scaled c e).2 + 1 := by
  have hnearest := nearest_coefficient_le c e
  simp only [readBack?] at h
  generalize (scaled c e).1 / (scaled c e).2 = q at h hnearest ⊢
  -- the nearer multiple is taken, or else the other one of the two
  split_ifs at h with hfirst hlower hsecond hsecond
  · exact Option.some.inj h ▸ hnearest
  · exact Option.some.inj h ▸ Nat.le_refl (q + 1)
  · exact Option.some.inj h ▸ Nat.le_succ q

theorem shortest_coefficient_le {c : ℕ} (hzero : c ≠ 0) : (shortest c).coefficient ≤ 10 ^ 17 := by
  set o := orderOfQuotient (units c) (1 <<< unitPlaces) with ho
  have hunits : 0 < units c := units_strictMono (Nat.pos_of_ne_zero hzero)
  have hden : ((1 <<< unitPlaces : ℕ) : ℚ) = 2 ^ unitPlaces := by
    rw [Nat.shiftLeft_eq, one_mul, Nat.cast_pow, Nat.cast_ofNat]
  have hpos : 0 < 1 <<< unitPlaces := by
    rw [Nat.shiftLeft_eq]
    positivity
  have hupper : (units c : ℚ) < 10 ^ o * 2 ^ unitPlaces := by
    have hlt := (orderOfQuotient_bounds hunits hpos).2
    rwa [hden, div_lt_iff₀ (by positivity)] at hlt
  -- at none of the places that are tried does the quotient reach eighteen digits
  have hquotient {e : ℤ} (he : o ≤ e + 17) : (scaled c e).1 / (scaled c e).2 + 1 ≤ 10 ^ 17 := by
    apply scaled_quotient_lt
    apply hupper.trans_le
    apply mul_le_mul_of_nonneg_right _ (by positivity)
    exact zpow_le_zpow_right₀ (by norm_num) he
  simp only [shortest, ← ho]
  cases hfound : (List.range (maxDigits - 1)).findSome? fun n => readBack? c (o - (n + 1 : ℕ)) with
  | none => exact (nearest_coefficient_le c _).trans (hquotient (by unfold maxDigits; omega))
  | some d =>
    obtain ⟨n, hn, hread⟩ := List.exists_of_findSome?_eq_some hfound
    have hn : n < 16 := List.mem_range.mp hn
    exact (readBack?_coefficient_le hread).trans (hquotient (by omega))

/-- A full power of ten has one digit without its zeros. -/
theorem length_digits_le {d : Decimal} (h : d.coefficient ≤ 10 ^ 17) : d.digits.length ≤ 17 := by
  rcases h.lt_or_eq with hlt | heq
  · obtain ⟨k, hk⟩ := d.exists_zeros
    have hcount : (Nat.toDigits 10 d.coefficient).length ≤ 17 :=
      (Nat.length_toDigits_le_iff (by decide) (by decide)).mpr hlt
    rw [hk, List.length_append] at hcount
    omega
  · rw [digits, heq]
    decide

end Decimal

namespace Number
open Binary64

theorem length_positional_le {digits : List Char} {order : ℤ} (hdigits : digits.length ≤ 17)
    (hlower : leastOrder ≤ order) (hupper : order ≤ greatestOrder) : (positional digits order).length ≤ 24 := by
  unfold leastOrder at hlower
  unfold greatestOrder at hupper
  unfold positional
  split_ifs
  · simp only [List.length_cons, List.length_append, List.length_replicate]
    omega
  · simp only [List.length_append, List.length_replicate]
    omega
  · simp only [List.length_cons, List.length_append, List.length_take, List.length_drop]
    omega

theorem length_exponential_le {digits : List Char} {order : ℤ} (hdigits : digits.length ≤ 17)
    (hlower : -330 ≤ order) (hupper : order ≤ 310) : (exponential digits order).length ≤ 24 := by
  have hexponent : (Nat.toDigits 10 (order - 1).natAbs).length ≤ 3 :=
    (Nat.length_toDigits_le_iff (by decide) (by decide)).mpr (by omega)
  simp only [exponential, List.length_append, List.length_cons, List.length_take]
  split_ifs
  · simp only [List.length_nil]
    omega
  · simp only [List.length_cons, List.length_drop]
    omega

theorem length_renderCode_le {c : ℕ} (hc : c < infinityCode) : (renderCode c).length ≤ 24 := by
  by_cases hzero : c = 0
  · subst hzero
    decide
  · have hdigits := Decimal.length_digits_le (Decimal.shortest_coefficient_le hzero)
    obtain ⟨hlower, hupper⟩ := shortest_order_bounds hzero hc
    rw [renderCode_eq hzero hc, renderDecimal]
    split
    · next horder =>
      simp only [Bool.and_eq_true, decide_eq_true_eq] at horder
      exact length_positional_le hdigits horder.1 horder.2
    · exact length_exponential_le hdigits hlower hupper

theorem length_render_le {x : Float} (hx : code x < infinityCode) : (render x).length ≤ 25 := by
  have hlength := length_renderCode_le hx
  rw [← String.length_toList, render, String.toList_ofList]
  split
  · rw [List.length_cons]
    omega
  · omega

theorem render_ne_empty {x : Float} (hx : code x < infinityCode) : render x ≠ "" := by
  obtain ⟨sign, whole, fraction, exponent, h⟩ := isLaidOut_render hx
  intro hnil
  have htext := h.toList_eq
  rw [hnil] at htext
  simp [h.whole_ne_nil] at htext

end Number

end DeskCalculator
