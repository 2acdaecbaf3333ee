import DeskCalculator.Proofs.Expression.Columns
import DeskCalculator.Proofs.Expression.Shown
import DeskCalculator.Proofs.Number.Cursor
import DeskCalculator.Proofs.Number.Infinity

/-! Which numbers take part in an evaluation that succeeds. Every operator checks its own result, and an operand that is
not finite shows in the result, but for a divisor: what is divided by a literal that is too large becomes zero. -/
namespace DeskCalculator

namespace Arithmetic

variable {op : Operator} {x y z : Float}

theorem isFinite_of_finite (h : finite x = .ok y) : x = y ∧ x.isFinite = true := by
  obtain ⟨heq, hlt⟩ := finite_eq_ok_iff.mp h
  exact ⟨heq, (Binary64.isFinite_iff x).mpr hlt⟩

theorem divide_eq_ok (h : divide x y = .ok z) : x / y = z ∧ (x / y).isFinite = true := by
  unfold divide at h
  split at h
  · cases h
  · exact isFinite_of_finite h

/-- An operator that gives a value gives a finite one, of finite operands; only a divisor may be infinite. -/
theorem isFinite_of_apply (h : apply op x y = .ok z) :
    z.isFinite = true ∧ x.isFinite = true ∧ y.isNaN = false ∧ (op ≠ .divide → y.isFinite = true) := by
  have hboth {w : Float} (hw : finite w = .ok z)
      (hoperands : w.isFinite = true → x.isFinite = true ∧ y.isFinite = true) :
      z.isFinite = true ∧ x.isFinite = true ∧ y.isNaN = false ∧ (op ≠ .divide → y.isFinite = true) := by
    obtain ⟨rfl, hfinite⟩ := isFinite_of_finite hw
    obtain ⟨hx, hy⟩ := hoperands hfinite
    exact ⟨hfinite, hx, Binary64.isNaN_of_isFinite hy, fun _ => hy⟩
  cases op with
  | plus => exact hboth h Binary64.isFinite_of_add
  | minus => exact hboth h Binary64.isFinite_of_sub
  | times => exact hboth h Binary64.isFinite_of_mul
  | divide =>
    obtain ⟨rfl, hfinite⟩ := divide_eq_ok h
    obtain ⟨hx, hy⟩ := Binary64.isFinite_of_div hfinite
    exact ⟨hfinite, hx, hy, fun hne => absurd rfl hne⟩

end Arithmetic

namespace Numeral
open Text

theorem ne_n_of_isLiteralChar {c : Char} (hc : Token.isLiteralChar c = true) : c.toLower ≠ 'n' := by
  simp only [Token.isLiteralChar, Bool.or_eq_true, beq_iff_eq] at hc
  rcases hc with hdigit | rfl
  · exact forall_digit (P := fun c => c.toLower ≠ 'n') (by decide) hdigit
  · decide

/-- The names of infinity and of what is no number have a letter in common, so digits and points never spell one. -/
theorem namedCode?_of_literal {cs : List Char} (hcs : ∀ c ∈ cs, Token.isLiteralChar c = true) :
    namedCode? cs = none := by
  have hletter : 'n' ∉ (String.ofList (cs.map Char.toLower)).toList := by
    rw [String.toList_ofList, List.mem_map]
    rintro ⟨c, hc, hn⟩
    exact ne_n_of_isLiteralChar (hcs c hc) hn
  unfold namedCode?
  split
  · next hname => exact absurd (by rw [hname]; decide) hletter
  · next hname => exact absurd (by rw [hname]; decide) hletter
  · next hname => exact absurd (by rw [hname]; decide) hletter
  · rfl

theorem isNaN_of_literal {text : String} {x : Float} (hchars : ∀ c ∈ text.toList, Token.isLiteralChar c = true)
    (h : read? text = some x) : x.isNaN = false := by
  unfold read? at h
  split at h
  · next n hscan =>
    obtain rfl := Option.some.inj h
    exact isNaN_value n
  · cases h
  · obtain ⟨sign, -, htext⟩ := exists_sign text.toList
    have hname : ∀ c ∈ (takeSign text.toList).2, Token.isLiteralChar c = true := fun c hc =>
      hchars c (by rw [htext]; exact List.mem_append_right _ hc)
    simp [namedCode?_of_literal hname] at h

end Numeral

namespace Tree

/-- A literal, with or without signs, that is too large for a number. -/
def IsOversized : Tree → Prop
  | number _ x => x.isInf = true
  | negation _ operand => operand.IsOversized
  | binary _ _ _ _ => False

def DividesByOversized (t : Tree) : Prop :=
  ∃ column left right, binary .divide column left right ∈ t.inOrder ∧ right.IsOversized

/-- Are all literals numbers, if not finite ones? -/
def HasNumbers (t : Tree) : Prop := ∀ column x, number column x ∈ t.inOrder → x.isNaN = false

variable {t node left right operand : Tree} {column : Column} {op : Operator} {x : Float}

theorem mem_inOrder_self (t : Tree) : t ∈ t.inOrder := by
  cases t <;> simp [inOrder]

theorem inOrder_subset (h : node ∈ t.inOrder) : node.inOrder ⊆ t.inOrder := by
  induction t with
  | number column x =>
    obtain rfl := List.mem_singleton.mp h
    exact List.Subset.refl _
  | negation column operand ih =>
    rcases List.mem_cons.mp h with rfl | h
    · exact List.Subset.refl _
    · exact List.subset_cons_of_subset _ (ih h)
  | binary op column left right ihl ihr =>
    rcases List.mem_append.mp h with h | h
    · exact List.subset_append_of_subset_left _ (ihl h)
    · rcases List.mem_cons.mp h with rfl | h
      · exact List.Subset.refl _
      · exact List.subset_append_of_subset_right _ (List.subset_cons_of_subset _ (ihr h))

theorem operand_mem : operand ∈ (negation column operand).inOrder := List.mem_cons_of_mem _ operand.mem_inOrder_self

theorem left_mem : left ∈ (binary op column left right).inOrder := List.mem_append_left _ left.mem_inOrder_self

theorem right_mem : right ∈ (binary op column left right).inOrder :=
  List.mem_append_right _ (List.mem_cons_of_mem _ right.mem_inOrder_self)

theorem HasNumbers.of_mem (h : t.HasNumbers) (hnode : node ∈ t.inOrder) : node.HasNumbers := fun column x hx =>
  h column x (inOrder_subset hnode hx)

theorem DividesByOversized.of_mem (h : node.DividesByOversized) (hnode : node ∈ t.inOrder) : t.DividesByOversized := by
  obtain ⟨column, left, right, hmem, hright⟩ := h
  exact ⟨column, left, right, inOrder_subset hnode hmem, hright⟩

theorem negation_value_eq_ok : (negation column operand).value = .ok x ↔ ∃ y, operand.value = .ok y ∧ -y = x := by
  simp [value, Outcome.bind_eq_ok, Arithmetic.negate]

theorem binary_value_eq_ok : (binary op column left right).value = .ok x ↔
    ∃ y z, left.value = .ok y ∧ right.value = .ok z ∧ Arithmetic.apply op y z = .ok x := by
  simp [value, Outcome.bind_eq_ok, Outcome.reworded_eq_ok]

/-- Every node of a tree that has a value has one. -/
theorem exists_value (h : t.value = .ok x) (hnode : node ∈ t.inOrder) : ∃ y, node.value = .ok y := by
  induction t generalizing x with
  | number column y =>
    obtain rfl := List.mem_singleton.mp hnode
    exact ⟨x, h⟩
  | negation column operand ih =>
    obtain ⟨y, hy, -⟩ := negation_value_eq_ok.mp h
    rcases List.mem_cons.mp hnode with rfl | hnode
    · exact ⟨x, h⟩
    · exact ih hy hnode
  | binary op column left right ihl ihr =>
    obtain ⟨y, z, hy, hz, -⟩ := binary_value_eq_ok.mp h
    rcases List.mem_append.mp hnode with hnode | hnode
    · exact ihl hy hnode
    · rcases List.mem_cons.mp hnode with rfl | hnode
      · exact ⟨x, h⟩
      · exact ihr hz hnode

/-- The only values that are not finite are those of literals, with or without signs. -/
theorem isFinite_of_value (hnumbers : t.HasNumbers) (h : t.value = .ok x) :
    x.isNaN = false ∧ (x.isFinite = false ↔ t.IsOversized) := by
  induction t generalizing x with
  | number column y =>
    obtain rfl := Except.ok.inj h
    have hnan := hnumbers column y (List.mem_singleton.mpr rfl)
    exact ⟨hnan, Binary64.isFinite_eq_false_iff hnan⟩
  | negation column operand ih =>
    obtain ⟨y, hy, rfl⟩ := negation_value_eq_ok.mp h
    obtain ⟨hnan, hoversized⟩ := ih (hnumbers.of_mem operand_mem) hy
    obtain ⟨hnan, hfinite⟩ := Binary64.isFinite_neg hnan
    rw [hfinite]
    exact ⟨hnan, hoversized⟩
  | binary op column left right =>
    obtain ⟨y, z, -, -, happly⟩ := binary_value_eq_ok.mp h
    have hfinite := (Arithmetic.isFinite_of_apply happly).1
    exact ⟨Binary64.isNaN_of_isFinite hfinite, by simp [hfinite, IsOversized]⟩

/-- Where no operator divides by an oversized literal, a finite value is one of finite values alone. The induction goes
from an operator to its operands: its result is finite only if they are, but for a divisor, and that one is a literal if
it is not finite. -/
theorem isFinite_of_not_dividesByOversized (hnumbers : t.HasNumbers) (hdivides : ¬ t.DividesByOversized)
    (h : t.value = .ok x) (hx : x.isFinite = true) (hnode : node ∈ t.inOrder) :
    ∃ y, node.value = .ok y ∧ y.isFinite = true := by
  induction t generalizing x with
  | number column y =>
    obtain rfl := List.mem_singleton.mp hnode
    exact ⟨x, h, hx⟩
  | negation column operand ih =>
    rcases List.mem_cons.mp hnode with rfl | hnode
    · exact ⟨x, h, hx⟩
    · obtain ⟨y, hy, rfl⟩ := negation_value_eq_ok.mp h
      have hnan := (isFinite_of_value (hnumbers.of_mem operand_mem) hy).1
      rw [(Binary64.isFinite_neg hnan).2] at hx
      exact ih (hnumbers.of_mem operand_mem) (fun hd => hdivides (hd.of_mem operand_mem)) hy hx hnode
  | binary op column left right ihl ihr =>
    obtain ⟨y, z, hy, hz, happly⟩ := binary_value_eq_ok.mp h
    obtain ⟨-, hleft, -, hright⟩ := Arithmetic.isFinite_of_apply happly
    rcases List.mem_append.mp hnode with hnode | hnode
    · exact ihl (hnumbers.of_mem left_mem) (fun hd => hdivides (hd.of_mem left_mem)) hy hleft hnode
    · rcases List.mem_cons.mp hnode with rfl | hnode
      · exact ⟨x, h, hx⟩
      · have hfinite : z.isFinite = true := by
          by_cases hop : op = .divide
          · subst hop
            -- The divisor is no oversized literal, and nothing else is infinite.
            have hliteral : ¬ right.IsOversized := fun hoversized =>
              hdivides ⟨column, left, right, mem_inOrder_self _, hoversized⟩
            rw [← (isFinite_of_value (hnumbers.of_mem right_mem) hz).2] at hliteral
            simpa using hliteral
          · exact hright hop
        exact ihr (hnumbers.of_mem right_mem) (fun hd => hdivides (hd.of_mem right_mem)) hz hfinite hnode

theorem not_isOversized (hnumbers : t.HasNumbers) (h : t.value = .ok x) (hx : x.isFinite = true) :
    ¬ t.IsOversized := by
  rw [← (isFinite_of_value hnumbers h).2, hx]
  decide

theorem all_isFinite_iff (hnumbers : t.HasNumbers) (h : t.value = .ok x) (hx : x.isFinite = true) :
    (∀ node ∈ t.inOrder, ∃ y, node.value = .ok y ∧ y.isFinite = true) ↔ ¬ t.DividesByOversized := by
  constructor
  · rintro hall ⟨column, left, right, hdivision, hoversized⟩
    have hright : right ∈ t.inOrder := inOrder_subset hdivision right_mem
    obtain ⟨y, hy, hfinite⟩ := hall right hright
    exact not_isOversized (hnumbers.of_mem hright) hy hfinite hoversized
  · exact fun hdivides node hnode => isFinite_of_not_dividesByOversized hnumbers hdivides h hx hnode

/-- What is divided by an oversized literal becomes zero. -/
theorem code_of_oversized_divisor (hnumbers : right.HasNumbers) (hright : right.IsOversized)
    (h : (binary .divide column left right).value = .ok x) : Binary64.code x = 0 := by
  obtain ⟨y, z, -, hz, happly⟩ := binary_value_eq_ok.mp h
  obtain ⟨hnan, hfinite⟩ := isFinite_of_value hnumbers hz
  have hinf : z.isInf = true := (Binary64.isFinite_eq_false_iff hnan).mp (hfinite.mpr hright)
  obtain ⟨-, hy, -⟩ := Arithmetic.isFinite_of_apply happly
  obtain ⟨rfl, -⟩ := Arithmetic.divide_eq_ok happly
  exact Binary64.code_div_of_isInf hy hinf

theorem hasNumbers_of_ofTokens {text : String} (h : ofTokens (Token.lex text) = .ok t) : t.HasNumbers := by
  intro column x hnode
  obtain ⟨p, hp, howns⟩ := exists_token h hnode
  cases howns with
  | @number literal _ _ hread =>
    have hmem : Token.literal literal ∈ Token.lex text := by
      rw [← tokensOf_place 0 (Token.lex text)]
      exact List.mem_map_of_mem hp
    have hwhole := (Token.munched_lex text).1.whole _ hmem
    exact Numeral.isNaN_of_literal hwhole.2 hread

theorem value_of_evaluate (h : t.evaluate = .ok x) : t.value = .ok x ∧ x.isFinite = true := by
  cases hvisits : (t.visits 0).findSome? visitFault with
  | some fault =>
    rw [evaluate_of_visitFault hvisits] at h
    cases h
  | none =>
    rw [evaluate_of_no_visitFault hvisits] at h
    obtain ⟨y, hy, hfinite⟩ := Outcome.bind_eq_ok.mp h
    obtain ⟨rfl, hx⟩ := Arithmetic.isFinite_of_finite hfinite
    exact ⟨hy, hx⟩

end Tree

/-- In an evaluation that succeeds every node has a value, none of them is `NaN`, and only literals with their signs can
be infinite. All of them are finite exactly if no operator divides by an oversized literal, whose quotient is zero. In
every other place an oversized literal is refused. -/
theorem finite_iff_no_oversized_divisor (text : String) :
    (∀ v, evaluate text = .ok v → ∃ tree, Tree.ofTokens (Token.lex (Token.sanitize text)) = .ok tree ∧
      tree.value = .ok v ∧
      (∀ node ∈ tree.inOrder, ∃ x, node.value = .ok x ∧ x.isNaN = false ∧ (x.isFinite = false ↔ node.IsOversized)) ∧
      ((∀ node ∈ tree.inOrder, ∃ x, node.value = .ok x ∧ x.isFinite = true) ↔ ¬ tree.DividesByOversized) ∧
      ∀ column left right x, .binary .divide column left right ∈ tree.inOrder → right.IsOversized →
        Tree.value (.binary .divide column left right) = .ok x → Binary64.code x = 0) ∧
    (∀ tree, Tree.ofTokens (Token.lex (Token.sanitize text)) = .ok tree → (∃ node ∈ tree.inOrder, node.IsOversized) →
      ¬ tree.DividesByOversized → ∃ fault, evaluate text = .error fault ∧ fault.kind = .invalidExpression) := by
  have hnodes (tree : Tree) (hnumbers : tree.HasNumbers) {v : Float} (hvalue : tree.value = .ok v)
      (node : Tree) (hnode : node ∈ tree.inOrder) :
      ∃ x, node.value = .ok x ∧ x.isNaN = false ∧ (x.isFinite = false ↔ node.IsOversized) := by
    obtain ⟨x, hx⟩ := Tree.exists_value hvalue hnode
    exact ⟨x, hx, Tree.isFinite_of_value (hnumbers.of_mem hnode) hx⟩
  refine ⟨fun v heval => ?_, fun tree htree ⟨literal, hliteral, hoversized⟩ hdivides => ?_⟩
  · obtain ⟨tree, htree, heval⟩ := Outcome.bind_eq_ok.mp heval
    have hnumbers := Tree.hasNumbers_of_ofTokens htree
    obtain ⟨hvalue, hfinite⟩ := Tree.value_of_evaluate heval
    refine ⟨tree, htree, hvalue, hnodes tree hnumbers hvalue, Tree.all_isFinite_iff hnumbers hvalue hfinite, ?_⟩
    intro column left right x hdivision hoversized hx
    have hright : right ∈ tree.inOrder := Tree.inOrder_subset hdivision Tree.right_mem
    exact Tree.code_of_oversized_divisor (hnumbers.of_mem hright) hoversized hx
  · have hnumbers := Tree.hasNumbers_of_ofTokens htree
    have hevaluate : evaluate text = tree.evaluate := by rw [evaluate, htree, Outcome.ok_bind]
    rw [hevaluate]
    cases heval : tree.evaluate with
    | error fault =>
      have hkind : fault.kind = .invalidExpression :=
        (Tree.evaluate_fails tree fault heval).elim (P := fun kind _ => kind = .invalidExpression) (by decide)
      exact ⟨fault, rfl, hkind⟩
    | ok v =>
      obtain ⟨hvalue, hfinite⟩ := Tree.value_of_evaluate heval
      -- An oversized literal is not finite, but every value would be.
      obtain ⟨x, hx, hxfinite⟩ := (Tree.all_isFinite_iff hnumbers hvalue hfinite).mpr hdivides literal hliteral
      exact absurd hoversized (Tree.not_isOversized (hnumbers.of_mem hliteral) hx hxfinite)

/-! ### A divisor that is too large -/

/-- A power of ten, written out. -/
def tenTo (places : ℕ) : List Char := '1' :: List.replicate places '0'

theorem isDigit_of_mem_tenTo {places : ℕ} {c : Char} (hc : c ∈ tenTo places) : c.isDigit = true := by
  rcases List.mem_cons.mp hc with rfl | hc
  · decide
  · rw [List.eq_of_mem_replicate hc]
    decide

theorem read?_tenTo (places : ℕ) :
    Numeral.read? (String.ofList (tenTo places)) = some (Binary64.ofCode false (Decimal.code ⟨1, places⟩)) := by
  have hdigits : Text.digitsValue (tenTo places) = 10 ^ places := by
    have happend := Text.digitsValue_append ['1'] (List.replicate places '0')
    have hone : Text.digitsValue ['1'] = 1 := by decide
    rwa [Text.digitsValue_zeros, List.length_replicate, hone, Nat.one_mul, Nat.add_zero] at happend
  have hwrites : Numeral.Writes (tenTo places) (10 ^ places) (tenTo places) [] :=
    ⟨by simp [Numeral.spell], by simp [tenTo], fun c => isDigit_of_mem_tenTo, by simp,
      by simp [Numeral.spelledValue, hdigits]⟩
  obtain ⟨d, hread, hvalue⟩ := hwrites.read
  have hcode : d.code = Decimal.code ⟨1, places⟩ :=
    Decimal.code_eq_of_value_eq (by rw [hvalue]; simp [Decimal.value])
  rw [hread, hcode]

/-- A division of two literals is cut into these and the operator. -/
theorem lex_division {cs ds : List Char} (hcs : (Token.literal (String.ofList cs)).IsWhole)
    (hds : (Token.literal (String.ofList ds)).IsWhole) :
    Token.lex (Token.sanitize (String.ofList (cs ++ '/' :: ds)))
      = [.literal (String.ofList cs), .operator .divide, .literal (String.ofList ds)] := by
  have hmunched : Token.Munched [.literal (String.ofList cs), .operator .divide, .literal (String.ofList ds)] := by
    have hoperator : (Token.operator .divide).IsWhole := trivial
    exact ⟨by simp only [List.forall_mem_cons, hcs, hoperator, hds]; simp, by simp [Token.MayPrecede]⟩
  have hkept {cs : List Char} (hcs : (Token.literal (String.ofList cs)).IsWhole) :
      cs.filter Token.isExpressionChar = cs :=
    Token.filter_literalChars fun c hc => hcs.2 c (by rwa [String.toList_ofList])
  have htext : Token.sanitize (String.ofList (cs ++ '/' :: ds))
      = textOf [.literal (String.ofList cs), .operator .divide, .literal (String.ofList ds)] := by
    have hoperator : Token.isExpressionChar '/' = true := by decide
    rw [← String.toList_inj, Token.sanitize, String.toList_ofList, String.toList_ofList, List.filter_append,
      List.filter_cons_of_pos hoperator, hkept hcs, hkept hds]
    simp [textOf, Token.text, Operator.symbol]
  rw [htext, Token.lex_textOf hmunched]

/-- The tree of one, divided by a power of ten. -/
theorem exists_reciprocal (places : ℕ) : ∃ column left right,
    Tree.ofTokens (Token.lex (Token.sanitize (String.ofList (tenTo 0 ++ '/' :: tenTo places))))
      = .ok (.binary .divide column (.number left (Binary64.ofCode false (Decimal.code ⟨1, 0⟩)))
          (.number right (Binary64.ofCode false (Decimal.code ⟨1, places⟩)))) := by
  have hwhole (places : ℕ) : (Token.literal (String.ofList (tenTo places))).IsWhole := by
    refine ⟨by simp [tenTo], fun c hc => ?_⟩
    rw [String.toList_ofList] at hc
    simp [Token.isLiteralChar, isDigit_of_mem_tenTo hc]
  have hspells := Spells.times (.operand (.literal (read?_tenTo 0))) (.inr rfl) (.literal (read?_tenTo places))
  obtain ⟨tree, htree, hshape⟩ := Tree.ofTokens_of_spells (.product hspells) (by omega)
  obtain ⟨column, l, r, rfl, hl, hr⟩ := Tree.eq_binary_of_shape hshape
  obtain ⟨left, rfl⟩ := Tree.eq_number_of_shape hl
  obtain ⟨right, rfl⟩ := Tree.eq_number_of_shape hr
  exact ⟨column, left, right, by rw [lex_division (hwhole 0) (hwhole places)]; exact htree⟩

/-- The reciprocal of `10 ^ 309`, which is too large for a number. -/
theorem one_by_oversized : ∃ tree,
    Tree.ofTokens (Token.lex (Token.sanitize (String.ofList (['1', '/', '1'] ++ List.replicate 309 '0')))) = .ok tree ∧
      evaluate (String.ofList (['1', '/', '1'] ++ List.replicate 309 '0')) = .ok 0.0 ∧
      ∃ node ∈ tree.inOrder, ∃ x, node.value = .ok x ∧ x.isInf = true := by
  obtain ⟨column, left, right, htree⟩ := exists_reciprocal 309
  have hone : Decimal.code ⟨1, 0⟩ = 0x3FF0000000000000 := by decide +kernel
  have hinfinite : Decimal.code ⟨1, (309 : ℕ)⟩ = Binary64.infinityCode := by decide +kernel
  have hquotient : Arithmetic.apply .divide (Binary64.ofCode false 0x3FF0000000000000)
      (Binary64.ofCode false Binary64.infinityCode) = .ok 0.0 := by decide +kernel
  have hfinite : Arithmetic.finite 0.0 = .ok 0.0 := by decide +kernel
  rw [hone, hinfinite] at htree
  refine ⟨_, htree, ?_, _, Tree.right_mem, _, rfl, ?_⟩
  · refine (congrArg (· >>= Tree.evaluate) htree).trans ?_
    rw [Outcome.ok_bind, Tree.evaluate_of_need_le (by simp [Tree.need]), Tree.value, Tree.value, Tree.value,
      Outcome.ok_bind, Outcome.ok_bind, hquotient, Outcome.reworded_ok, Outcome.ok_bind, hfinite]
  · rw [Binary64.isInf_iff, Binary64.code_ofCode false le_rfl]

end DeskCalculator
