import DeskCalculator.Proofs.Expression.Climbing
import DeskCalculator.Proofs.Expression.Lexing
import DeskCalculator.Proofs.Expression.StackEvaluation

/-! The columns of a tree point at the text that it was read from: each node is at the place of its own token, so that
a fault of an operator is reported where the operator stands. -/
namespace DeskCalculator
open Token (Placed)

/-- The part of a text that a column marks. -/
def Column.cut (column : Column) (text : String) : String :=
  String.ofList ((text.toList.take column.stop).drop column.start)

theorem Column.cut_middle (before part after : String) :
    Column.cut ⟨before.length, (before ++ part).length⟩ (before ++ part ++ after) = part := by
  have htaken : (before ++ part).toList.length = (before ++ part).length := String.length_toList
  have hdropped : before.toList.length = before.length := String.length_toList
  rw [cut, String.toList_append, List.take_left' htaken, String.toList_append, List.drop_left' hdropped,
    String.ofList_toList]

namespace Token

variable {start : Nat} {tokens : List Token} {p : Placed}

theorem start_le_of_mem_place (h : p ∈ place start tokens) : start ≤ p.column.start := by
  induction tokens generalizing start with
  | nil => cases h
  | cons token tokens ih =>
    rcases List.mem_cons.mp h with rfl | h
    · exact Nat.le_refl _
    · exact Nat.le_trans (Nat.le_add_right ..) (ih h)

theorem place_pairwise (start : Nat) (tokens : List Token) :
    (place start tokens).Pairwise fun p q => p.column.stop ≤ q.column.start := by
  induction tokens generalizing start with
  | nil => exact .nil
  | cons token tokens ih => exact .cons (fun q hq => start_le_of_mem_place hq) (ih _)

/-- A token stands at its place. -/
theorem cut_of_mem_place (hp : p ∈ place 0 tokens) :
    p.column.stop = p.column.start + p.token.text.length ∧ p.column.stop ≤ (textOf tokens).length ∧
      p.column.cut (textOf tokens) = p.token.text := by
  obtain ⟨before, after, hplace⟩ := List.append_of_mem hp
  obtain ⟨token, column⟩ := p
  obtain ⟨rfl, rfl⟩ := column_of_place hplace
  have hstop : textOf (Tree.tokensOf before ++ [token]) = textOf (Tree.tokensOf before) ++ token.text := by
    simp [textOf]
  have htext : textOf (Tree.tokensOf before ++ token :: Tree.tokensOf after)
      = textOf (Tree.tokensOf before) ++ token.text ++ textOf (Tree.tokensOf after) := by
    simp [textOf, String.append_assoc]
  rw [hstop, htext]
  exact ⟨String.length_append .., by simp, Column.cut_middle ..⟩

end Token

namespace Tree

/-- The nodes of a tree in the order of their tokens: a sign before its operand, an operator between its operands. -/
def inOrder : Tree → List Tree
  | number column value => [number column value]
  | negation column operand => negation column operand :: operand.inOrder
  | binary op column left right => left.inOrder ++ binary op column left right :: right.inOrder

/-- The token that a node was made of, at its place. -/
inductive Owns : Tree → Placed → Prop
  | number {text : String} {value : Float} {column : Column} (hread : Numeral.read? text = some value) :
      Owns (number column value) ⟨.literal text, column⟩
  | negation {column : Column} {operand : Tree} : Owns (negation column operand) ⟨.operator .minus, column⟩
  | binary {op : Operator} {column : Column} {left right : Tree} :
      Owns (binary op column left right) ⟨.operator op, column⟩

/-- Is a node written as a text? -/
def IsWrittenAs : Tree → String → Prop
  | number _ value, text => Numeral.read? text = some value
  | negation _ _, text => text = "-"
  | binary op _ _ _, text => text = op.symbol.toString

theorem Owns.column_eq {node : Tree} {p : Placed} (h : Owns node p) : node.column = p.column := by
  cases h <;> rfl

theorem Owns.isWrittenAs {node : Tree} {p : Placed} (h : Owns node p) : node.IsWrittenAs p.token.text := by
  cases h with
  | number hread => exact hread
  | negation => rfl
  | binary => rfl

theorem Owns.text_ne {node : Tree} {p : Placed} (h : Owns node p) : p.token.text ≠ "" := by
  cases h with
  | number hread =>
    have hempty : Numeral.read? "" = none := by decide
    rintro rfl
    rw [hempty] at hread
    cases hread
  | negation => exact String.singleton_ne_empty
  | binary => exact String.singleton_ne_empty

/-- The tokens of the nodes are the ones that were read, in their order, less parentheses and plus signs. -/
theorem exists_own {phrase : Phrase} {room : Nat} {ps : List Placed} {t : Tree} (h : SpellsAt phrase room ps t) :
    ∃ own, own.Sublist ps ∧ List.Forall₂ Owns t.inOrder own := by
  induction h with
  | literal hread => exact ⟨_, .refl _, .cons (.number hread) .nil⟩
  | plus _ ih =>
    obtain ⟨own, hown, hnodes⟩ := ih
    exact ⟨own, hown.cons _, hnodes⟩
  | minus _ ih =>
    obtain ⟨own, hown, hnodes⟩ := ih
    exact ⟨_ :: own, hown.cons_cons _, .cons .negation hnodes⟩
  | group _ ih =>
    obtain ⟨own, hown, hnodes⟩ := ih
    exact ⟨own, (hown.trans (List.sublist_append_left ..)).cons _, hnodes⟩
  | operand _ ih => exact ih
  | product _ ih => exact ih
  | times _ _ _ ihl ihr =>
    obtain ⟨ownl, hownl, hnodesl⟩ := ihl
    obtain ⟨ownr, hownr, hnodesr⟩ := ihr
    exact ⟨_, hownl.append (hownr.cons_cons _), List.rel_append hnodesl (.cons .binary hnodesr)⟩
  | plusMinus _ _ _ ihl ihr =>
    obtain ⟨ownl, hownl, hnodesl⟩ := ihl
    obtain ⟨ownr, hownr, hnodesr⟩ := ihr
    exact ⟨_, hownl.append (hownr.cons_cons _), List.rel_append hnodesl (.cons .binary hnodesr)⟩

theorem spellsAt_of_ofTokens {tokens : List Token} {t : Tree} (h : ofTokens tokens = .ok t) :
    SpellsAt .sum maxNesting (Token.place 0 tokens) t := by
  obtain ⟨last, -, hread⟩ := ofTokens_eq_ok_iff.mp h
  obtain ⟨used, hused, hspells⟩ := sum_yields (operand_yields _ _) _ _ _ hread
  rwa [hused, List.append_nil]

/-! ### Where an evaluation fails -/

theorem mem_inOrder_of_mem_visits {t : Tree} {waiting : Nat} {visit : Tree × Nat} (h : visit ∈ t.visits waiting) :
    visit.1 ∈ t.inOrder := by
  induction t generalizing waiting with
  | number column x => simpa [inOrder] using congrArg Prod.fst (List.mem_singleton.mp h)
  | negation column operand ih =>
    rcases List.mem_append.mp h with h | h
    · exact List.mem_cons_of_mem _ (ih h)
    · obtain rfl := List.mem_singleton.mp h
      exact List.mem_cons_self
  | binary op column left right ihl ihr =>
    rcases List.mem_append.mp h with h | h
    · rcases List.mem_append.mp h with h | h
      · exact List.mem_append_left _ (ihl h)
      · exact List.mem_append_right _ (List.mem_cons_of_mem _ (ihr h))
    · obtain rfl := List.mem_singleton.mp h
      exact List.mem_append_right _ List.mem_cons_self

/-- Does an operator of a tree fail on the values of its operands? The fault is at that operator. -/
def OperatorFails (t : Tree) (fault : Fault) : Prop :=
  ∃ op column left right x y raised, binary op column left right ∈ t.inOrder ∧
    left.value = .ok x ∧ right.value = .ok y ∧ Arithmetic.apply op x y = .error raised ∧ fault = raised.locate column

theorem operatorFails_of_ownFault {t node : Tree} {fault : Fault} (hnode : node ∈ t.inOrder)
    (h : node.ownFault = some fault) : t.OperatorFails fault := by
  cases node with
  | number column x => cases h
  | negation column operand =>
    rw [ownFault] at h
    split at h <;> cases h
  | binary op column left right =>
    rw [ownFault] at h
    split at h
    · next x y hx hy =>
      cases happly : Arithmetic.apply op x y with
      | ok z =>
        rw [happly] at h
        cases h
      | error raised =>
        rw [happly] at h
        exact ⟨op, column, left, right, x, y, raised, hnode, hx, hy, happly, (Option.some.inj h).symm⟩
    · cases h

/-- An evaluation fails at an operator, at a number for which there is no room, or at the very end. -/
theorem evaluate_eq_error {t : Tree} {fault : Fault} (h : t.evaluate = .error fault) :
    t.OperatorFails fault ∨
      (∃ column x, number column x ∈ t.inOrder ∧ fault = Fault.tooComplex.locate column) ∨
      ∃ x, t.value = .ok x ∧ Arithmetic.finite x = .error fault := by
  have howned {visits : List (Tree × Nat)} (hvisits : ∀ visit ∈ visits, visit ∈ t.visits 0)
      (hfirst : visits.findSome? (ownFault ·.1) = some fault) : t.OperatorFails fault := by
    obtain ⟨visit, hvisit, hown⟩ := List.exists_of_findSome?_eq_some hfirst
    exact operatorFails_of_ownFault (mem_inOrder_of_mem_visits (hvisits visit hvisit)) hown
  by_cases hneed : t.need ≤ 256
  · rw [evaluate_of_need_le hneed] at h
    rcases Outcome.bind_eq_error.mp h with hvalue | hfinite
    · have hfirst := findSome?_ownFault t 0
      rw [hvalue] at hfirst
      exact Or.inl (howned (fun _ => id) hfirst)
    · exact Or.inr (Or.inr hfinite)
  · obtain ⟨before, column, x, after, hvisits, -, heval⟩ := evaluate_of_lt_need (Nat.lt_of_not_le hneed)
    have hfault := Except.error.inj (h.symm.trans heval)
    cases hfirst : before.findSome? (ownFault ·.1) with
    | some own =>
      rw [hfirst] at hfault
      have hbefore (visit : Tree × Nat) (hvisit : visit ∈ before) : visit ∈ t.visits 0 := by
        rw [hvisits]
        exact List.mem_append_left _ hvisit
      refine Or.inl (howned hbefore ?_)
      rw [hfirst, hfault]
      rfl
    | none =>
      rw [hfirst] at hfault
      have hleaf : (number column x, 256) ∈ t.visits 0 := by
        rw [hvisits]
        exact List.mem_append_right _ List.mem_cons_self
      exact Or.inr (Or.inl ⟨column, x, mem_inOrder_of_mem_visits hleaf, hfault⟩)

/-! ### Nodes at their tokens -/

/-- The nodes of a tree stand in a text in their order, none of them over another, and each at what it is written
as. -/
structure PointsInto (t : Tree) (text : String) : Prop where
  inside : ∀ node ∈ t.inOrder, node.column.start < node.column.stop ∧ node.column.stop ≤ text.length
  written : ∀ node ∈ t.inOrder, node.IsWrittenAs (node.column.cut text)
  ascending : (t.inOrder.map column).Pairwise fun c d => c.stop ≤ d.start

theorem exists_token {tokens : List Token} {t node : Tree} (h : ofTokens tokens = .ok t) (hnode : node ∈ t.inOrder) :
    ∃ p ∈ Token.place 0 tokens, Owns node p := by
  obtain ⟨own, hown, hnodes⟩ := exists_own (spellsAt_of_ofTokens h)
  obtain ⟨hlength, howns⟩ := List.forall₂_iff_get.mp hnodes
  obtain ⟨i, rfl⟩ := List.mem_iff_get.mp hnode
  have hi : i.1 < own.length := hlength ▸ i.2
  exact ⟨own.get ⟨i, hi⟩, hown.subset (List.get_mem own ⟨i, hi⟩), howns i i.2 hi⟩

theorem pointsInto_of_ofTokens {tokens : List Token} {t : Tree} (h : ofTokens tokens = .ok t) :
    t.PointsInto (textOf tokens) := by
  obtain ⟨own, hown, hnodes⟩ := exists_own (spellsAt_of_ofTokens h)
  have hcolumns : t.inOrder.map column = own.map Placed.column := by
    rw [← List.forall₂_eq_eq_eq, List.forall₂_map_left_iff, List.forall₂_map_right_iff]
    exact hnodes.imp fun _ _ => Owns.column_eq
  refine ⟨fun node hnode => ?_, fun node hnode => ?_, ?_⟩
  · obtain ⟨p, hp, howns⟩ := exists_token h hnode
    obtain ⟨hstop, hinside, -⟩ := Token.cut_of_mem_place hp
    have hlength : p.token.text.length ≠ 0 := by simpa using howns.text_ne
    rw [howns.column_eq]
    omega
  · obtain ⟨p, hp, howns⟩ := exists_token h hnode
    rw [howns.column_eq, (Token.cut_of_mem_place hp).2.2]
    exact howns.isWrittenAs
  · rw [hcolumns, List.pairwise_map]
    exact (Token.place_pairwise 0 tokens).sublist hown

end Tree

/-- The nodes of the tree of a text are where their own tokens are, and what stands there is what they are written as;
a reader with one column that each token moves makes the same tree. So an operator that fails is reported at its
character, in the text without its foreign characters, and no other fault of an evaluation comes from an operator. -/
theorem columns_point_at_tokens (text : String) :
    (∀ tree, Tree.ofTokens (Token.lex text) = .ok tree →
      SpellsAt .sum Tree.maxNesting (Token.place 0 (Token.lex text)) tree ∧ tree.PointsInto text ∧
      ∀ fuel, 2 * (Token.lex text).length + 2 ≤ fuel → TokenStream.parse fuel (Token.lex text) = .ok tree) ∧
    (∀ tree fault, Tree.ofTokens (Token.lex (Token.sanitize text)) = .ok tree → evaluate text = .error fault →
      (∃ op column left right x y raised, .binary op column left right ∈ tree.inOrder ∧
        left.value = .ok x ∧ right.value = .ok y ∧ Arithmetic.apply op x y = .error raised ∧
        fault = raised.locate column ∧ column.cut (Token.sanitize text) = op.symbol.toString) ∨
      (∃ column x, .number column x ∈ tree.inOrder ∧ fault = Fault.tooComplex.locate column) ∨
      ∃ x, tree.value = .ok x ∧ Arithmetic.finite x = .error fault) := by
  have hpoints (text : String) (tree : Tree) (h : Tree.ofTokens (Token.lex text) = .ok tree) :
      tree.PointsInto text := by
    have htokens := Tree.pointsInto_of_ofTokens h
    rwa [(Token.munched_lex text).2] at htokens
  refine ⟨fun tree h => ⟨Tree.spellsAt_of_ofTokens h, hpoints text tree h, fun fuel hfuel => ?_⟩,
    fun tree fault htree heval => ?_⟩
  · rw [TokenStream.parse_eq hfuel, h]
  · have heval : tree.evaluate = .error fault := by
      rw [evaluate, htree] at heval
      exact heval
    rcases Tree.evaluate_eq_error heval with hoperator | helse
    · obtain ⟨op, column, left, right, x, y, raised, hnode, hx, hy, happly, hfault⟩ := hoperator
      have hcut : column.cut (Token.sanitize text) = op.symbol.toString := (hpoints _ tree htree).written _ hnode
      exact Or.inl ⟨op, column, left, right, x, y, raised, hnode, hx, hy, happly, hfault, hcut⟩
    · exact Or.inr helse

example : (Tree.ofTokens (Token.lex "(1--2)*30")).map (fun tree => tree.inOrder.map Tree.column)
    = .ok [⟨1, 2⟩, ⟨2, 3⟩, ⟨3, 4⟩, ⟨4, 5⟩, ⟨6, 7⟩, ⟨7, 9⟩] := by decide +kernel

end DeskCalculator
