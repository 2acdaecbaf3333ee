import DeskCalculator.Proofs.Number.Bits

/-! What a finite result says of its operands. A sum, a difference or a product is finite only if both operands are. A
quotient is so only if its dividend is and its divisor is a number: by infinity it is zero. -/
namespace DeskCalculator.Binary64
open Float.Model

section Unpacked
variable {u v : UnpackedFloat} (s : UnpackedFloat.Sign)

@[simp] theorem isFinite_zero : (UnpackedFloat.zero s).isFinite = true := rfl

@[simp] theorem isFinite_finite {m : ℕ} (e : ℤ) (hm : 0 < m) : (UnpackedFloat.finite s m e hm).isFinite = true := rfl

@[simp] theorem isFinite_infinity : (UnpackedFloat.infinity s).isFinite = false := rfl

@[simp] theorem isFinite_notANumber : UnpackedFloat.notANumber.isFinite = false := rfl

theorem isFinite_of_pack (h : (Float.ofModel (.pack u)).isFinite = true) : u.isFinite = true := by
  cases u with
  | zero | finite => rfl
  | notANumber => exact absurd h (by decide)
  | infinity s => cases s <;> exact absurd h (by decide)

theorem isFinite_add (h : (u.add Format.binary64 v).isFinite = true) : u.isFinite = true ∧ v.isFinite = true := by
  cases u <;> cases v <;> simp [UnpackedFloat.add, apply_ite UnpackedFloat.isFinite] at h ⊢

theorem isFinite_sub (h : (u.sub Format.binary64 v).isFinite = true) : u.isFinite = true ∧ v.isFinite = true := by
  cases u <;> cases v <;> simp [UnpackedFloat.sub, apply_ite UnpackedFloat.isFinite] at h ⊢

theorem isFinite_mul (h : (u.mul Format.binary64 v).isFinite = true) : u.isFinite = true ∧ v.isFinite = true := by
  cases u <;> cases v <;> simp [UnpackedFloat.mul] at h ⊢

theorem isFinite_div (h : (u.div Format.binary64 v).isFinite = true) : u.isFinite = true ∧ v.isNaN = false := by
  cases u <;> cases v <;> simp [UnpackedFloat.div, UnpackedFloat.isNaN] at h ⊢

theorem div_of_isInf (hu : u.isFinite = true) (hv : v.isInf = true) : ∃ s, u.div Format.binary64 v = .zero s := by
  cases v with
  | notANumber | zero | finite => cases hv
  | infinity s =>
    cases u with
    | notANumber | infinity => cases hu
    | zero | finite => exact ⟨_, rfl⟩

end Unpacked

variable {x y : Float}

theorem isNaN_eq_false_iff : x.isNaN = false ↔ code x ≤ infinityCode := by
  rw [Bool.eq_false_iff, ne_eq, isNaN_iff, Nat.not_lt]

theorem isNaN_of_isFinite (h : x.isFinite = true) : x.isNaN = false :=
  isNaN_eq_false_iff.mpr ((isFinite_iff x).mp h).le

/-- A number is finite or infinite. -/
theorem isFinite_eq_false_iff (hx : x.isNaN = false) : x.isFinite = false ↔ x.isInf = true := by
  rw [isNaN_eq_false_iff] at hx
  rw [Bool.eq_false_iff, ne_eq, isFinite_iff, isInf_iff]
  omega

theorem isFinite_neg (hx : x.isNaN = false) : (-x).isNaN = false ∧ (-x).isFinite = x.isFinite := by
  rw [isNaN_eq_false_iff] at hx
  have hcode := (parts_neg hx).2
  rw [isNaN_eq_false_iff, Bool.eq_iff_iff, isFinite_iff, isFinite_iff, hcode]
  exact ⟨hx, Iff.rfl⟩

theorem isFinite_of_add (h : (x + y).isFinite = true) : x.isFinite = true ∧ y.isFinite = true :=
  isFinite_add (isFinite_of_pack h)

theorem isFinite_of_sub (h : (x - y).isFinite = true) : x.isFinite = true ∧ y.isFinite = true :=
  isFinite_sub (isFinite_of_pack h)

theorem isFinite_of_mul (h : (x * y).isFinite = true) : x.isFinite = true ∧ y.isFinite = true :=
  isFinite_mul (isFinite_of_pack h)

theorem isFinite_of_div (h : (x / y).isFinite = true) : x.isFinite = true ∧ y.isNaN = false :=
  isFinite_div (isFinite_of_pack h)

/-- A finite number by infinity is zero. -/
theorem code_div_of_isInf (hx : x.isFinite = true) (hy : y.isInf = true) : code (x / y) = 0 := by
  obtain ⟨s, hs⟩ := div_of_isInf hx hy
  have hquotient : x / y = Float.ofModel (.pack (.zero s)) :=
    congrArg (fun u => Float.ofModel (.pack u)) hs
  rw [hquotient]
  cases s <;> decide

end DeskCalculator.Binary64
