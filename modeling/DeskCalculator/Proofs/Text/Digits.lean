import DeskCalculator.Text.Blank
import DeskCalculator.Text.Digits
import Mathlib.Algebra.Ring.Nat

/-! Signs, blanks and digits at the front of a text that is known. -/
namespace DeskCalculator.Text

theorem digitsValue_append (ds es : List Char) :
    digitsValue (ds ++ es) = digitsValue ds * 10 ^ es.length + digitsValue es := by
  unfold digitsValue
  rw [Nat.ofDigitChars_append, Nat.ofDigitChars_eq_ofDigitChars_zero, Nat.mul_comm]

theorem digitsValue_zeros (n : Nat) : digitsValue (List.replicate n '0') = 0 := by
  simp [digitsValue]

/-- A run of characters of a kind, up to a character of another kind or the end. -/
theorem takeRun {kind : Char → Bool} {run rest : List Char} (hrun : ∀ c ∈ run, kind c = true)
    (hends : ∀ c ∈ rest.head?, kind c = false) :
    (run ++ rest).takeWhile kind = run ∧ (run ++ rest).dropWhile kind = rest := by
  have hstop : rest.takeWhile kind = [] ∧ rest.dropWhile kind = rest := by
    cases rest with
    | nil => exact ⟨rfl, rfl⟩
    | cons c rest =>
      have hc : kind c = false := hends c rfl
      simp [hc]
  rw [List.takeWhile_append_of_pos hrun, List.dropWhile_append_of_pos hrun, hstop.1, hstop.2, List.append_nil]
  exact ⟨rfl, rfl⟩

/-- Where a run of characters of a kind is over. -/
theorem dropWhile_ends (kind : Char → Bool) (cs : List Char) : ∀ c ∈ (cs.dropWhile kind).head?, kind c = false := by
  intro c hc
  have hnot := List.head?_dropWhile_not kind cs
  rwa [Option.mem_def.mp hc] at hnot

theorem takeDigits_of_digits {ds rest : List Char} (hds : ∀ c ∈ ds, c.isDigit = true)
    (hrest : ∀ c ∈ rest.head?, c.isDigit = false) : takeDigits (ds ++ rest) = (ds, rest) := by
  obtain ⟨htaken, hleft⟩ := takeRun hds hrest
  rw [takeDigits, htaken, hleft]

theorem forall_digit {P : Char → Prop} (h : ∀ k : Fin 10, P (Nat.digitChar k)) {c : Char}
    (hc : c.isDigit = true) : P c := by
  obtain ⟨hlower, hupper⟩ := Char.isDigit_iff_toNat.mp hc
  have hlower : 48 ≤ c.toNat := hlower
  have hupper : c.toNat ≤ 57 := hupper
  -- Ten characters, from 48 on.
  have hchar : ∀ k : Fin 10, Nat.digitChar k = Char.ofNat (48 + k) := by decide
  have hdigit := h ⟨c.toNat - 48, by omega⟩
  rw [hchar] at hdigit
  rwa [Nat.add_sub_cancel' hlower, Char.ofNat_toNat] at hdigit

theorem takeSign_of_ne {c : Char} (hplus : c ≠ '+') (hminus : c ≠ '-') (rest : List Char) :
    takeSign (c :: rest) = (false, c :: rest) := by
  unfold takeSign
  split
  · next heq => exact absurd (List.cons.inj heq).1 hplus
  · next heq => exact absurd (List.cons.inj heq).1 hminus
  · rfl

/-- A sign, or none. -/
def IsSign (cs : List Char) : Prop := cs = [] ∨ cs = ['+'] ∨ cs = ['-']

theorem exists_sign (cs : List Char) : ∃ sign, IsSign sign ∧ cs = sign ++ (takeSign cs).2 := by
  unfold takeSign
  split
  · exact ⟨['+'], Or.inr (Or.inl rfl), rfl⟩
  · exact ⟨['-'], Or.inr (Or.inr rfl), rfl⟩
  · exact ⟨[], Or.inl rfl, rfl⟩

/-- Where no sign is taken, none is there. -/
theorem head?_of_takeSign {cs : List Char} (h : (takeSign cs).2 = cs) : ∀ c ∈ cs.head?, ¬ (c = '+' ∨ c = '-') := by
  intro c hc hsign
  obtain ⟨rest, rfl⟩ := List.head?_eq_some_iff.mp (Option.mem_def.mp hc)
  rcases hsign with rfl | rfl
  · exact List.cons_ne_self _ _ h.symm
  · exact List.cons_ne_self _ _ h.symm

theorem IsSign.takeSign_append {sign : List Char} (hsign : IsSign sign) {c : Char} (hplus : c ≠ '+')
    (hminus : c ≠ '-') (rest : List Char) : takeSign (sign ++ c :: rest) = (sign == ['-'], c :: rest) := by
  rcases hsign with rfl | rfl | rfl
  · exact takeSign_of_ne hplus hminus rest
  · rfl
  · rfl

theorem isBlank_of_isDigit {c : Char} (hc : c.isDigit = true) : isBlank c = false :=
  forall_digit (P := fun c => isBlank c = false) (by decide) hc

theorem dropBlanks_of_not_isBlank {c : Char} (hc : isBlank c = false) (rest : List Char) :
    dropBlanks (c :: rest) = c :: rest := by
  rw [dropBlanks, List.dropWhile_cons_of_neg (by simp [hc])]

end DeskCalculator.Text
