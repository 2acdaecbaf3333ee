import DeskCalculator.Calendar.Span
import Mathlib.Data.List.Basic

/-! The lines that spans between days are shown in: three figures, each with its unit after it. -/
namespace DeskCalculator.Calendar

/-- A line that shows a difference of days or an age. -/
def IsResultLine (text : String) : Prop :=
  (∃ a b, text = (DateDifference.between a b).render) ∨ ∃ birth day, text = (Age.on birth day).render

/-- Digits, with a minus sign before them or none. -/
def IsFigure (cs : List Char) : Prop :=
  ∃ sign ds, cs = sign ++ ds ∧ (sign = [] ∨ sign = ['-']) ∧ ds ≠ [] ∧ ∀ d ∈ ds, d.isDigit = true

theorem isFigure_digits {sign : List Char} (hsign : sign = [] ∨ sign = ['-']) (n : Nat) :
    IsFigure (sign ++ Nat.toDigits 10 n) :=
  ⟨sign, Nat.toDigits 10 n, rfl, hsign, Nat.toDigits_ne_nil, fun _ hd =>
    Nat.isDigit_of_mem_toDigits (by decide) (by decide) hd⟩

theorem isFigure_nat (n : Nat) : IsFigure n.repr.toList := by
  rw [Nat.toList_repr]
  exact isFigure_digits (Or.inl rfl) n

theorem isFigure_int (n : Int) : IsFigure n.repr.toList := by
  rw [Int.repr_eq_if]
  by_cases hn : 0 ≤ n
  · rw [if_pos hn]
    exact isFigure_nat _
  · rw [if_neg hn, String.toList_append, Nat.toList_repr]
    exact isFigure_digits (Or.inr rfl) _

theorem IsFigure.mem {cs : List Char} (h : IsFigure cs) {c : Char} (hc : c ∈ cs) :
    c.isDigit = true ∨ c = '-' := by
  obtain ⟨sign, ds, rfl, hsign, -, hds⟩ := h
  rcases List.mem_append.mp hc with hc | hc
  · rcases hsign with rfl | rfl
    · simp at hc
    · exact Or.inr (List.mem_singleton.mp hc)
  · exact Or.inl (hds c hc)

theorem IsFigure.exists_last {cs : List Char} (h : IsFigure cs) :
    ∃ front d, cs = front ++ [d] ∧ d.isDigit = true := by
  obtain ⟨sign, ds, rfl, -, hne, hds⟩ := h
  obtain ⟨es, d, rfl⟩ := (List.eq_nil_or_concat' ds).resolve_left hne
  exact ⟨sign ++ es, d, (List.append_assoc ..).symm, hds d (by simp)⟩

/-- The marks that stand after the figures of a line. -/
def marks : List Char := ['d', 'm', 'y', ' ', '|']

theorem IsResultLine.exists_figures {text : String} (h : IsResultLine text) :
    ∃ first second third gap gap' unit, text.toList = first ++ gap ++ second ++ gap' ++ third ++ [unit] ∧
      IsFigure first ∧ IsFigure second ∧ IsFigure third ∧ ' ' ∈ gap ∧
      ∀ c ∈ gap ++ gap' ++ [unit], c ∈ marks := by
  rcases h with ⟨a, b, rfl⟩ | ⟨birth, day, rfl⟩
  · set d := DateDifference.between a b
    refine ⟨d.days.repr.toList, d.months.repr.toList, d.years.repr.toList, ['d', ' ', '|', ' '],
      ['m', ' ', '|', ' '], 'y', ?_, isFigure_nat _, isFigure_nat _, isFigure_nat _, by simp, by simp [marks]⟩
    simp only [DateDifference.render, String.toList_append]
    rfl
  · set age := Age.on birth day
    refine ⟨age.years.repr.toList, age.months.repr.toList, age.days.repr.toList, ['y', ' '], ['m', ' '], 'd',
      ?_, isFigure_int _, isFigure_int _, isFigure_int _, by simp, by simp [marks]⟩
    simp only [Age.render, String.toList_append]
    rfl

/-- The characters of a line. -/
theorem IsResultLine.mem {text : String} (h : IsResultLine text) {c : Char} (hc : c ∈ text.toList) :
    c.isDigit = true ∨ c ∈ '-' :: marks := by
  obtain ⟨first, second, third, gap, gap', unit, htext, hfirst, hsecond, hthird, -, hmarks⟩ := h.exists_figures
  have hfigure {cs : List Char} (hcs : IsFigure cs) (hc : c ∈ cs) : c.isDigit = true ∨ c ∈ '-' :: marks :=
    (hcs.mem hc).imp_right fun h => by simp [h]
  have hmark (hc : c ∈ gap ++ gap' ++ [unit]) : c.isDigit = true ∨ c ∈ '-' :: marks :=
    Or.inr (List.mem_cons_of_mem _ (hmarks c hc))
  rw [htext] at hc
  simp only [List.mem_append] at hc hmark
  rcases hc with ((((hc | hc) | hc) | hc) | hc) | hc
  · exact hfigure hfirst hc
  · exact hmark (Or.inl (Or.inl hc))
  · exact hfigure hsecond hc
  · exact hmark (Or.inl (Or.inr hc))
  · exact hfigure hthird hc
  · exact hmark (Or.inr hc)

/-- A line ends in a figure and its unit, with a blank somewhere before. -/
theorem IsResultLine.exists_last {text : String} (h : IsResultLine text) :
    ∃ front digit unit, text.toList = front ++ [digit, unit] ∧ ' ' ∈ front ∧ digit.isDigit = true ∧
      unit.isDigit = false := by
  obtain ⟨first, second, third, gap, gap', unit, htext, -, -, hthird, hblank, hmarks⟩ := h.exists_figures
  obtain ⟨front, digit, rfl, hdigit⟩ := hthird.exists_last
  refine ⟨first ++ gap ++ second ++ gap' ++ front, digit, unit, by simp [htext], by simp [hblank], hdigit, ?_⟩
  have hnone : (marks.all fun c => !c.isDigit) = true := by decide
  simpa using List.all_eq_true.mp hnone unit (hmarks unit (by simp))

end DeskCalculator.Calendar
