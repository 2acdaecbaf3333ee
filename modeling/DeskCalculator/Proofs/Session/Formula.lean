import DeskCalculator.Expression.Token
import Mathlib.Data.List.DropRight
import Mathlib.Data.List.Infix

/-! Formulas as they are typed, the run of characters after the last operator of a text, and what stays of a
text when each zero goes that is all there is between an operator and a closing parenthesis. -/
namespace DeskCalculator

def isOperator (c : Char) : Bool := (Operator.ofChar? c).isSome

theorem isOperator_symbol (op : Operator) : isOperator op.symbol = true := by
  rw [isOperator, Operator.ofChar?_symbol]
  rfl

theorem exists_symbol_of_isOperator {c : Char} (hc : isOperator c = true) :
    ∃ op : Operator, c = op.symbol := by
  have hcases : c = '+' ∨ c = '-' ∨ c = '*' ∨ c = '/' := by
    by_contra h
    push Not at h
    simp [isOperator, Operator.ofChar?, h] at hc
  rcases hcases with rfl | rfl | rfl | rfl
  · exact ⟨.plus, rfl⟩
  · exact ⟨.minus, rfl⟩
  · exact ⟨.times, rfl⟩
  · exact ⟨.divide, rfl⟩

theorem not_isOperator_of_isDigit {c : Char} (hc : c.isDigit = true) : isOperator c = false := by
  by_contra h
  obtain ⟨op, rfl⟩ := exists_symbol_of_isOperator (Bool.not_eq_false _ ▸ h)
  cases op <;> exact absurd hc (by decide)

namespace Formula

inductive IsWhole : List Char → Prop
  | zero : IsWhole ['0']
  | digits {d : Char} {ds : List Char} (hd : d.isDigit = true) (hne : d ≠ '0')
      (hds : ∀ c ∈ ds, c.isDigit = true) : IsWhole (d :: ds)

inductive IsNumeral : List Char → Prop
  | whole {ds : List Char} (hds : IsWhole ds) : IsNumeral ds
  | point {ds fs : List Char} (hds : IsWhole ds) (hfs : ∀ c ∈ fs, c.isDigit = true) :
      IsNumeral (ds ++ '.' :: fs)

/-- A formula is an operand or goes on with an operator and an operand; an operand is a numeral or a
formula in parentheses. -/
inductive Part where
  | whole
  | operand

end Formula

open Formula in
/-- The texts of formulas and of their operands. -/
inductive Formula : Part → List Char → Prop
  | numeral {ds : List Char} (h : IsNumeral ds) : Formula .operand ds
  | group {cs : List Char} (h : Formula .whole cs) : Formula .operand ('(' :: (cs ++ [')']))
  | operand {cs : List Char} (h : Formula .operand cs) : Formula .whole cs
  | join {cs ds : List Char} (hl : Formula .whole cs) (op : Operator) (hr : Formula .operand ds) :
      Formula .whole (cs ++ op.symbol :: ds)

namespace Formula

def lastRun (cs : List Char) : List Char := cs.rtakeWhile fun c => !isOperator c

def upToOperator (cs : List Char) : List Char := cs.rdropWhile fun c => !isOperator c

theorem upToOperator_append_lastRun (cs : List Char) : upToOperator cs ++ lastRun cs = cs :=
  List.rdropWhile_append_rtakeWhile ..

theorem upToOperator_operator (cs : List Char) (op : Operator) :
    upToOperator (cs ++ [op.symbol]) = cs ++ [op.symbol] := by
  apply List.rdropWhile_concat_neg
  simp [isOperator_symbol]

theorem lastRun_operator (cs : List Char) (op : Operator) : lastRun (cs ++ [op.symbol]) = [] := by
  apply List.rtakeWhile_concat_neg
  simp [isOperator_symbol]

theorem upToOperator_concat (cs : List Char) {c : Char} (hc : isOperator c = false) :
    upToOperator (cs ++ [c]) = upToOperator cs := by
  apply List.rdropWhile_concat_pos
  simp [hc]

theorem lastRun_concat (cs : List Char) {c : Char} (hc : isOperator c = false) :
    lastRun (cs ++ [c]) = lastRun cs ++ [c] := by
  apply List.rtakeWhile_concat_pos
  simp [hc]

theorem lastRun_append (cs : List Char) {ds : List Char} (hds : ∀ c ∈ ds, isOperator c = false) :
    lastRun (cs ++ ds) = lastRun cs ++ ds := by
  induction ds using List.reverseRecOn with
  | nil => simp
  | append_singleton ds c ih =>
    have hc : isOperator c = false := hds c (by simp)
    have hrest : ∀ c ∈ ds, isOperator c = false := fun d hd => hds d (by simp [hd])
    rw [← List.append_assoc, lastRun_concat _ hc, ih hrest, List.append_assoc]

theorem not_isOperator_of_mem_lastRun {cs : List Char} {c : Char} (hc : c ∈ lastRun cs) :
    isOperator c = false := by
  simpa using List.mem_rtakeWhile_imp hc

/-- The text without each zero that stands alone between an operator and a closing parenthesis. -/
def kept : List Char → List Char
  | c :: d :: e :: rest =>
    if isOperator c ∧ d = '0' ∧ e = ')' then c :: kept (e :: rest) else c :: kept (d :: e :: rest)
  | cs => cs

def EndsInLoneZero (cs : List Char) : Prop := ∃ ds op, cs = ds ++ [Operator.symbol op, '0']

theorem kept_concat {cs : List Char} {c : Char} (h : c = ')' → ¬ EndsInLoneZero cs) :
    kept (cs ++ [c]) = kept cs ++ [c] := by
  induction cs using kept.induct with
  | case1 b d e rest hzero ih =>
    have hrest : c = ')' → ¬ EndsInLoneZero (e :: rest) := by
      rintro hc ⟨ds, op, hds⟩
      exact h hc ⟨b :: d :: ds, op, by simp [hds]⟩
    have hrest := ih hrest
    simp only [List.cons_append] at hrest ⊢
    rw [kept, kept, if_pos hzero, if_pos hzero, hrest, List.cons_append]
  | case2 b d e rest hzero ih =>
    have hrest : c = ')' → ¬ EndsInLoneZero (d :: e :: rest) := by
      rintro hc ⟨ds, op, hds⟩
      exact h hc ⟨b :: ds, op, by simp [hds]⟩
    have hrest := ih hrest
    simp only [List.cons_append] at hrest ⊢
    rw [kept, kept, if_neg hzero, if_neg hzero, hrest, List.cons_append]
  | case3 cs hshort =>
    match cs, hshort, h with
    | [], _, _ => rfl
    | [a], _, _ => rfl
    | [a, b], _, h =>
      have hzero : ¬ (isOperator a = true ∧ b = '0' ∧ c = ')') := by
        rintro ⟨ha, rfl, hc⟩
        obtain ⟨op, rfl⟩ := exists_symbol_of_isOperator ha
        exact h hc ⟨[], op, rfl⟩
      simp [kept, hzero]
    | a :: b :: d :: rest, hshort, _ => exact absurd rfl (hshort a b d rest)

theorem kept_operator (cs : List Char) (op : Operator) :
    kept (cs ++ [op.symbol]) = kept cs ++ [op.symbol] := by
  apply kept_concat
  intro h
  cases op <;> exact absurd h (by decide)

theorem kept_loneZero (cs : List Char) (op : Operator) :
    kept (cs ++ [op.symbol, '0', ')']) = kept (cs ++ [op.symbol]) ++ [')'] := by
  have hop : isOperator op.symbol = true := isOperator_symbol op
  have hnotZero : op.symbol ≠ '0' := by cases op <;> decide
  have hnotClosing : op.symbol ≠ ')' := by cases op <;> decide
  induction cs using kept.induct with
  | case1 b d e rest hzero ih =>
    simp only [List.cons_append] at ih ⊢
    rw [kept, kept, if_pos hzero, if_pos hzero, ih, List.cons_append]
  | case2 b d e rest hzero ih =>
    simp only [List.cons_append] at ih ⊢
    rw [kept, kept, if_neg hzero, if_neg hzero, ih, List.cons_append]
  | case3 cs hshort =>
    match cs, hshort with
    | [], _ => simp [kept, hop]
    | [a], _ => simp [kept, hop, hnotZero]
    | [a, b], _ => simp [kept, hop, hnotZero, hnotClosing]
    | a :: b :: d :: rest, hshort => exact absurd rfl (hshort a b d rest)

theorem length_kept_le (cs : List Char) : (kept cs).length ≤ cs.length := by
  induction cs using kept.induct with
  | case1 b d e rest hzero ih =>
    rw [kept, if_pos hzero]
    simp only [List.length_cons] at ih ⊢
    omega
  | case2 b d e rest hzero ih =>
    rw [kept, if_neg hzero]
    simp only [List.length_cons] at ih ⊢
    omega
  | case3 cs hshort =>
    rw [kept]
    exact hshort

theorem length_lt_three {cs : List Char} (h : ∀ c d e rest, cs = c :: d :: e :: rest → False) :
    cs.length < 3 := by
  match cs, h with
  | [], _ => simp
  | [_], _ => simp
  | [_, _], _ => simp
  | c :: d :: e :: rest, h => exact (h c d e rest rfl).elim

theorem kept_eq_self_iff {cs : List Char} :
    kept cs = cs ↔ ∀ op : Operator, ¬ [op.symbol, '0', ')'] <:+: cs := by
  induction cs using kept.induct with
  | case1 b d e rest hzero ih =>
    obtain ⟨op, rfl⟩ := exists_symbol_of_isOperator hzero.1
    obtain ⟨-, rfl, rfl⟩ := hzero
    constructor
    · -- a text from which a zero has gone is shorter
      intro h
      have hlength := congrArg List.length h
      have hrest := length_kept_le (')' :: rest)
      rw [kept, if_pos ⟨isOperator_symbol op, rfl, rfl⟩] at hlength
      simp only [List.length_cons] at hlength hrest
      omega
    · intro h
      exact absurd (List.prefix_append [op.symbol, '0', ')'] rest).isInfix (h op)
  | case2 b d e rest hzero ih =>
    rw [kept, if_neg hzero, List.cons_eq_cons, ih]
    constructor
    · rintro ⟨-, h⟩ op hinfix
      rcases List.infix_cons_iff.mp hinfix with hprefix | htail
      · simp only [List.cons_prefix_cons] at hprefix
        obtain ⟨rfl, rfl, rfl, -⟩ := hprefix
        exact hzero ⟨isOperator_symbol op, rfl, rfl⟩
      · exact h op htail
    · intro h
      exact ⟨rfl, fun op hinfix => h op (List.infix_cons_iff.mpr (Or.inr hinfix))⟩
  | case3 cs hshort =>
    rw [kept]
    · apply iff_of_true rfl
      intro op hinfix
      have hlength := hinfix.length_le
      have hlt := length_lt_three hshort
      simp only [List.length_cons, List.length_nil] at hlength
      omega
    · exact hshort

theorem lastRun_kept_loneZero (cs : List Char) (op : Operator) :
    lastRun (kept (cs ++ [op.symbol, '0', ')'])) = [')'] := by
  have hclosing : isOperator ')' = false := by decide
  rw [kept_loneZero, lastRun_concat _ hclosing, kept_operator, lastRun_operator]
  rfl

theorem lastRun_kept_concat (cs : List Char) {c : Char} (hc : isOperator c = false) :
    lastRun (kept (cs ++ [c])) = [')'] ∨ lastRun (kept (cs ++ [c])) = lastRun (kept cs) ++ [c] := by
  -- only the end of the text decides what a further character does
  by_cases h : c = ')' ∧ EndsInLoneZero cs
  · obtain ⟨rfl, ds, op, rfl⟩ := h
    apply Or.inl
    rw [List.append_assoc]
    exact lastRun_kept_loneZero ds op
  · apply Or.inr
    rw [kept_concat (fun hclosing hzero => h ⟨hclosing, hzero⟩), lastRun_concat _ hc]

theorem lastRun_kept_ne_nil (cs : List Char) {c : Char} (hc : isOperator c = false) :
    lastRun (kept (cs ++ [c])) ≠ [] := by
  rcases lastRun_kept_concat cs hc with h | h <;> simp [h]

theorem length_lastRun_kept_le (cs : List Char) :
    (lastRun (kept cs)).length ≤ (lastRun cs).length := by
  induction cs using List.reverseRecOn with
  | nil => exact le_refl _
  | append_singleton cs c ih =>
    cases hc : isOperator c with
    | true =>
      obtain ⟨op, rfl⟩ := exists_symbol_of_isOperator hc
      rw [kept_operator, lastRun_operator, lastRun_operator]
    | false =>
      rw [lastRun_concat _ hc, List.length_append, List.length_singleton]
      rcases lastRun_kept_concat cs hc with h | h
      · rw [h, List.length_singleton]
        exact Nat.le_add_left ..
      · rw [h, List.length_append, List.length_singleton]
        exact Nat.add_le_add_right ih 1

theorem kept_append {cs ds : List Char} (hds : ')' ∉ ds) : kept (cs ++ ds) = kept cs ++ ds := by
  induction ds using List.reverseRecOn with
  | nil => simp
  | append_singleton ds c ih =>
    have hclosing : ')' ∉ ds := fun h => hds (List.mem_append_left _ h)
    have hc : c ≠ ')' := by
      rintro rfl
      exact hds (by simp)
    rw [← List.append_assoc, kept_concat (fun h => absurd h hc), ih hclosing, List.append_assoc]

theorem endsInLoneZero_of_lastRun {cs : List Char} (h : lastRun (kept cs) = ['0']) (hne : cs ≠ ['0']) :
    EndsInLoneZero cs := by
  rcases List.eq_nil_or_concat' cs with rfl | ⟨ds, c, rfl⟩
  · exact absurd h (by decide)
  cases hc : isOperator c with
  | true =>
    obtain ⟨op, rfl⟩ := exists_symbol_of_isOperator hc
    rw [kept_operator, lastRun_operator] at h
    exact absurd h (by simp)
  | false =>
    rcases lastRun_kept_concat ds hc with hrun | hrun
    · exact absurd (hrun.symm.trans h) (by decide)
    · obtain ⟨hempty, rfl⟩ : lastRun (kept ds) = [] ∧ c = '0' := by
        simpa using List.append_inj' (hrun.symm.trans (h.trans (List.nil_append ['0']).symm)) rfl
      -- only an operator, or nothing at all, leaves no run before the zero
      rcases List.eq_nil_or_concat' ds with rfl | ⟨es, d, rfl⟩
      · exact absurd rfl hne
      cases hd : isOperator d with
      | true =>
        obtain ⟨op, rfl⟩ := exists_symbol_of_isOperator hd
        exact ⟨es, op, by simp⟩
      | false => exact absurd hempty (lastRun_kept_ne_nil es hd)

def Ready (cs : List Char) : Prop :=
  cs = [] ∨ (∃ ds op, cs = ds ++ [Operator.symbol op]) ∨ ∃ ds, cs = ds ++ ['(']

theorem Ready.kept {cs : List Char} (h : Ready cs) : Ready (kept cs) := by
  rcases h with rfl | ⟨ds, op, rfl⟩ | ⟨ds, rfl⟩
  · exact Or.inl rfl
  · rw [kept_operator]
    exact Or.inr (Or.inl ⟨_, op, rfl⟩)
  · rw [kept_concat (fun h => absurd h (by decide))]
    exact Or.inr (Or.inr ⟨_, rfl⟩)

theorem Ready.lastRun {cs : List Char} (h : Ready cs) :
    lastRun cs = [] ∨ ∃ ds, lastRun cs = ds ++ ['('] := by
  rcases h with rfl | ⟨ds, op, rfl⟩ | ⟨ds, rfl⟩
  · exact Or.inl rfl
  · exact Or.inl (lastRun_operator ds op)
  · exact Or.inr ⟨_, lastRun_concat ds (by decide)⟩

theorem Ready.lastRun_ne_zero {cs : List Char} (h : Ready cs) : Formula.lastRun cs ≠ ['0'] := by
  rcases h.lastRun with hrun | ⟨ds, hrun⟩
  · simp [hrun]
  · intro hzero
    have hlast := (List.append_inj' (hrun.symm.trans (hzero.trans (List.nil_append ['0']).symm)) rfl).2
    exact absurd hlast (by decide)

/-- No run of characters without an operator is longer than an entry may be. -/
def RunsWithin (room : ℕ) (cs : List Char) : Prop :=
  ∀ run, run <:+: cs → (∀ c ∈ run, isOperator c = false) → run.length ≤ room

theorem RunsWithin.left {room : ℕ} {cs ds : List Char} (h : RunsWithin room (cs ++ ds)) : RunsWithin room cs :=
  fun run hrun hplain => h run (List.infix_append_of_infix_left hrun) hplain

theorem RunsWithin.length_le {room : ℕ} {cs ds : List Char} (h : RunsWithin room (cs ++ ds))
    (hds : ∀ c ∈ ds, isOperator c = false) : (lastRun (kept cs)).length + ds.length ≤ room := by
  have hinfix : lastRun cs ++ ds <:+: cs ++ ds := by
    refine ⟨upToOperator cs, [], ?_⟩
    rw [List.append_nil, ← List.append_assoc, upToOperator_append_lastRun]
  have hplain : ∀ c ∈ lastRun cs ++ ds, isOperator c = false := by
    intro c hc
    rcases List.mem_append.mp hc with hc | hc
    · exact not_isOperator_of_mem_lastRun hc
    · exact hds c hc
  have hlength := h _ hinfix hplain
  have hkept := length_lastRun_kept_le cs
  rw [List.length_append] at hlength
  omega

theorem IsWhole.isDigit {ds : List Char} (h : IsWhole ds) : ∀ c ∈ ds, c.isDigit = true := by
  cases h with
  | zero => exact List.forall_mem_singleton.mpr rfl
  | digits hd _ hds => exact List.forall_mem_cons.mpr ⟨hd, hds⟩

theorem IsWhole.ne_nil {ds : List Char} (h : IsWhole ds) : ds ≠ [] := by
  cases h <;> simp

theorem IsNumeral.isLiteralChar {ds : List Char} (h : IsNumeral ds) :
    ∀ c ∈ ds, Token.isLiteralChar c = true := by
  have hdigit (c : Char) (hc : c.isDigit = true) : Token.isLiteralChar c = true := by
    simp [Token.isLiteralChar, hc]
  cases h with
  | whole hds => exact fun c hc => hdigit c (hds.isDigit c hc)
  | point hds hfs =>
    intro c hc
    simp only [List.mem_append, List.mem_cons] at hc
    rcases hc with hc | rfl | hc
    · exact hdigit c (hds.isDigit c hc)
    · rfl
    · exact hdigit c (hfs c hc)

theorem IsNumeral.ne_nil {ds : List Char} (h : IsNumeral ds) : ds ≠ [] := by
  cases h with
  | whole hds => exact hds.ne_nil
  | point => simp

theorem not_isOperator_of_isLiteralChar {c : Char} (hc : Token.isLiteralChar c = true) :
    isOperator c = false := by
  by_contra h
  obtain ⟨op, rfl⟩ := exists_symbol_of_isOperator (Bool.not_eq_false _ ▸ h)
  cases op <;> exact absurd hc (by decide)

theorem isExpressionChar {part : Part} {cs : List Char} (h : Formula part cs) :
    ∀ c ∈ cs, Token.isExpressionChar c = true := by
  induction h with
  | numeral h =>
    intro c hc
    simp [Token.isExpressionChar, h.isLiteralChar c hc]
  | group h ih =>
    intro c hc
    simp only [List.mem_cons, List.mem_append, List.not_mem_nil, or_false] at hc
    rcases hc with rfl | hc | rfl
    · rfl
    · exact ih c hc
    · rfl
  | operand h ih => exact ih
  | join hl op hr ihl ihr =>
    intro c hc
    simp only [List.mem_append, List.mem_cons] at hc
    rcases hc with hc | rfl | hc
    · exact ihl c hc
    · cases op <;> rfl
    · exact ihr c hc

theorem exists_last {part : Part} {cs : List Char} (h : Formula part cs) :
    ∃ ds c, cs = ds ++ [c] ∧ isOperator c = false := by
  induction h with
  | @numeral ds h =>
    obtain ⟨es, c, rfl⟩ := (List.eq_nil_or_concat' ds).resolve_left h.ne_nil
    exact ⟨es, c, rfl, not_isOperator_of_isLiteralChar (h.isLiteralChar c (by simp))⟩
  | @group cs h ih => exact ⟨'(' :: cs, ')', rfl, by decide⟩
  | operand h ih => exact ih
  | @join cs ds hl op hr ihl ihr =>
    obtain ⟨es, c, rfl, hc⟩ := ihr
    exact ⟨cs ++ op.symbol :: es, c, by simp, hc⟩

end Formula

end DeskCalculator
