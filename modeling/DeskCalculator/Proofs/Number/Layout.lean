import DeskCalculator.Proofs.Expression.Shown

/-! The texts of numbers: which of them are numerals, and the parts that a number is written in. -/
namespace DeskCalculator.Number

/-- Digits with at most one point among them, and at least one digit. -/
def IsMantissa (cs : List Char) : Prop :=
  (∀ c ∈ cs, Token.isLiteralChar c = true) ∧ cs.count '.' ≤ 1 ∧ ∃ c ∈ cs, c.isDigit = true

/-- Nothing, or the letter, a sign and at least one digit. -/
inductive IsExponent : List Char → Prop
  | none : IsExponent []
  | signed {sign : Char} {ds : List Char} (hsign : sign = '+' ∨ sign = '-') (hne : ds ≠ [])
      (hds : ∀ c ∈ ds, c.isDigit = true) : IsExponent ('e' :: sign :: ds)

/-- A numeral: a minus sign or none, digits with at most one point among them, and an exponent or none. -/
def IsNumeral (text : String) : Prop :=
  ∃ sign mantissa exponent, text.toList = sign ++ mantissa ++ exponent ∧ (sign = [] ∨ sign = ['-']) ∧
    IsMantissa mantissa ∧ IsExponent exponent

inductive IsFraction : List Char → Prop
  | none : IsFraction []
  | point {ds : List Char} (hds : ∀ c ∈ ds, c.isDigit = true) : IsFraction ('.' :: ds)

/-- The parts of a numeral whose first character after the sign is a digit. -/
structure Layout (text : String) (sign whole fraction exponent : List Char) : Prop where
  toList_eq : text.toList = sign ++ whole ++ fraction ++ exponent
  isSign : sign = [] ∨ sign = ['-']
  whole_ne_nil : whole ≠ []
  whole_digits : ∀ c ∈ whole, c.isDigit = true
  isFraction : IsFraction fraction
  isExponent : IsExponent exponent

def IsLaidOut (text : String) : Prop := ∃ sign whole fraction exponent, Layout text sign whole fraction exponent

theorem isLiteralChar_of_isDigit {c : Char} (hc : c.isDigit = true) : Token.isLiteralChar c = true := by
  simp [Token.isLiteralChar, hc]

theorem ne_of_isDigit {c d : Char} (hc : c.isDigit = true) (hd : d.isDigit = false) : c ≠ d := by
  rintro rfl
  simp [hc] at hd

theorem IsFraction.isLiteralChar {cs : List Char} (h : IsFraction cs) :
    ∀ c ∈ cs, Token.isLiteralChar c = true := by
  cases h with
  | none => simp
  | point hds =>
    intro c hc
    rcases List.mem_cons.mp hc with rfl | hc
    · rfl
    · exact isLiteralChar_of_isDigit (hds c hc)

section
variable {text : String} {sign whole fraction exponent : List Char}

theorem Layout.isLiteralChar (h : Layout text sign whole fraction exponent) :
    ∀ c ∈ whole ++ fraction, Token.isLiteralChar c = true := by
  intro c hc
  rcases List.mem_append.mp hc with hc | hc
  · exact isLiteralChar_of_isDigit (h.whole_digits c hc)
  · exact h.isFraction.isLiteralChar c hc

theorem Layout.isNumeral (h : Layout text sign whole fraction exponent) : IsNumeral text := by
  have hpoint {cs : List Char} (hcs : ∀ c ∈ cs, c.isDigit = true) : cs.count '.' = 0 :=
    List.count_eq_zero.mpr fun hmem => ne_of_isDigit (hcs _ hmem) (by decide) rfl
  refine ⟨sign, whole ++ fraction, exponent, by rw [h.toList_eq, List.append_assoc sign], h.isSign,
    ⟨h.isLiteralChar, ?_, ?_⟩, h.isExponent⟩
  · rw [List.count_append, hpoint h.whole_digits, Nat.zero_add]
    cases h.isFraction with
    | none => simp
    | point hds => simp [hpoint hds]
  · obtain ⟨c, cs, hcons⟩ := List.exists_cons_of_ne_nil h.whole_ne_nil
    have hc : c ∈ whole := by simp [hcons]
    exact ⟨c, List.mem_append_left _ hc, h.whole_digits c hc⟩

/-- The characters of a numeral. -/
theorem Layout.mem (h : Layout text sign whole fraction exponent) {c : Char} (hc : c ∈ text.toList) :
    c.isDigit = true ∨ c ∈ ['-', '.', 'e', '+'] := by
  rw [h.toList_eq] at hc
  simp only [List.mem_append] at hc
  rcases hc with ((hc | hc) | hc) | hc
  · rcases h.isSign with rfl | rfl
    · simp at hc
    · simp [List.mem_singleton.mp hc]
  · exact Or.inl (h.whole_digits c hc)
  · have hliteral := h.isFraction.isLiteralChar c hc
    simp only [Token.isLiteralChar, Bool.or_eq_true, beq_iff_eq] at hliteral
    rcases hliteral with hdigit | rfl
    · exact Or.inl hdigit
    · simp
  · cases h.isExponent with
    | none => simp at hc
    | signed hsign hne hds =>
      simp only [List.mem_cons] at hc
      rcases hc with rfl | rfl | hc
      · simp
      · rcases hsign with rfl | rfl <;> simp
      · exact Or.inl (hds c hc)

theorem Layout.exponent_eq_nil (h : Layout text sign whole fraction exponent) (he : 'e' ∉ text.toList) :
    exponent = [] := by
  rw [h.toList_eq] at he
  cases h.isExponent with
  | none => rfl
  | signed => simp at he

theorem Layout.exponent_ne_nil (h : Layout text sign whole fraction exponent) (he : 'e' ∈ text.toList) :
    exponent ≠ [] := by
  rintro rfl
  rw [h.toList_eq, List.append_nil, List.append_assoc] at he
  rcases List.mem_append.mp he with he | he
  · rcases h.isSign with rfl | rfl <;> simp at he
  · exact absurd (h.isLiteralChar _ he) (by decide)

end

/-- In a numeral with an exponent, the last character is a digit. -/
theorem not_isNumeral {text : String} {cs : List Char} {c : Char} (htext : text.toList = cs ++ [c])
    (he : 'e' ∈ text.toList) (hc : c.isDigit = false) : ¬ IsNumeral text := by
  rintro ⟨sign, mantissa, exponent, hparts, hsign, ⟨hliteral, -, -⟩, hexponent⟩
  cases hexponent with
  | none =>
    rw [hparts, List.append_nil] at he
    rcases List.mem_append.mp he with he | he
    · rcases hsign with rfl | rfl <;> simp at he
    · exact absurd (hliteral _ he) (by decide)
  | @signed s ds _ hne hds =>
    obtain ⟨es, d, rfl⟩ := (List.eq_nil_or_concat' ds).resolve_left hne
    have hsplit : sign ++ mantissa ++ 'e' :: s :: es ++ [d] = cs ++ [c] := by
      rw [← htext, hparts]
      simp
    obtain rfl := List.singleton_inj.mp (List.append_inj' hsplit rfl).2
    exact absurd (hds d (by simp)) (by simp [hc])

theorem layout_spell {text : String} {sign whole fraction exponent : List Char}
    (htext : text.toList = sign ++ Numeral.spell whole fraction ++ exponent)
    (hsign : sign = [] ∨ sign = ['-']) (hne : whole ≠ []) (hwhole : ∀ c ∈ whole, c.isDigit = true)
    (hfraction : ∀ c ∈ fraction, c.isDigit = true) (hexponent : IsExponent exponent) : IsLaidOut text := by
  refine ⟨sign, whole, if fraction = [] then [] else '.' :: fraction, exponent, ?_, hsign, hne, hwhole, ?_,
    hexponent⟩
  · rw [htext, Numeral.spell, List.append_assoc sign whole]
  · by_cases hnil : fraction = []
    · rw [if_pos hnil]
      exact .none
    · rw [if_neg hnil]
      exact .point hfraction

theorem isExponent_exponentText (exponent : ℤ) : IsExponent (exponentText exponent) := by
  refine .signed ?_ Nat.toDigits_ne_nil fun c hc => Nat.isDigit_of_mem_toDigits (by decide) (by decide) hc
  by_cases hneg : exponent < 0
  · rw [if_pos hneg]
    exact Or.inr rfl
  · rw [if_neg hneg]
    exact Or.inl rfl

/-- A finite number is written as a numeral. -/
theorem isLaidOut_render {x : Float} (hx : Binary64.code x < Binary64.infinityCode) :
    IsLaidOut (render x) := by
  set c := Binary64.code x
  obtain ⟨sign, hsign, htext⟩ : ∃ sign, (sign = [] ∨ sign = ['-']) ∧
      (render x).toList = sign ++ renderCode c := by
    rw [render_eq hx, String.toList_ofList, Token.signed]
    split
    · exact ⟨['-'], Or.inr rfl, rfl⟩
    · exact ⟨[], Or.inl rfl, rfl⟩
  by_cases he : 'e' ∈ renderCode c
  · obtain ⟨hzero, hcode, -⟩ := renderCode_of_mem hx he
    have hwrites := mantissaText_writes (Decimal.shortest_coefficient_ne_zero hzero hx)
    rw [hcode, exponential_eq, hwrites.text_eq, ← List.append_assoc] at htext
    exact layout_spell htext hsign hwrites.whole_ne_nil hwrites.whole_digits hwrites.fraction_digits
      (isExponent_exponentText _)
  · obtain ⟨v, whole, fraction, hwrites⟩ := renderCode_writes hx he
    rw [hwrites.text_eq, ← List.append_nil (sign ++ _)] at htext
    exact layout_spell htext hsign hwrites.whole_ne_nil hwrites.whole_digits hwrites.fraction_digits .none

end DeskCalculator.Number
