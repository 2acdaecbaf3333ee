import DeskCalculator.Proofs.Outcome
import DeskCalculator.Proofs.Text.Digits
import DeskCalculator.Proofs.Text.Words
import DeskCalculator.Terminal.Keys

/-! The keys of a line that is one word of digits, points, operators and parentheses. -/
namespace DeskCalculator

namespace Token

theorem forall_expressionChar {P : Char → Prop} (hdigit : ∀ k : Fin 10, P (Nat.digitChar k))
    (hpoint : P '.') (hoperator : ∀ op : Operator, P op.symbol) (hopening : P '(') (hclosing : P ')')
    {c : Char} (hc : isExpressionChar c = true) : P c := by
  simp only [isExpressionChar, isLiteralChar, Bool.or_eq_true, beq_iff_eq] at hc
  rcases hc with (hc | rfl) | hc
  · exact Text.forall_digit hdigit hc
  · exact hpoint
  · unfold ofChar? at hc
    split at hc
    · exact hopening
    · exact hclosing
    · rw [Option.isSome_map] at hc
      unfold Operator.ofChar? at hc
      split at hc
      · exact hoperator .plus
      · exact hoperator .minus
      · exact hoperator .times
      · exact hoperator .divide
      · exact Bool.noConfusion hc

theorem isBlank_of_isExpressionChar {c : Char} (hc : isExpressionChar c = true) :
    Text.isBlank c = false := by
  refine forall_expressionChar (P := fun c => Text.isBlank c = false) (by decide) rfl ?_ rfl rfl hc
  intro op
  cases op <;> rfl

end Token

namespace Key

theorem ofChar_digit {c : Char} (hc : c.isDigit = true) : ofChar c = .ok (.digit c) := by
  have hoperator : Operator.ofChar? c = none :=
    Text.forall_digit (P := fun c => Operator.ofChar? c = none) (by decide) hc
  have hhex : Base.hex.isDigit c = true :=
    Text.forall_digit (P := fun c => Base.hex.isDigit c = true) (by decide) hc
  simp only [ofChar, hoperator, hhex, if_true]

theorem ofChar_symbol (op : Operator) : ofChar op.symbol = .ok (.operator op) := by
  simp only [ofChar, Operator.ofChar?_symbol]

theorem exists_ofChar {c : Char} (hc : Token.isExpressionChar c = true) :
    ∃ input, ofChar c = .ok input := by
  refine Token.forall_expressionChar (P := fun c => ∃ input, ofChar c = .ok input) ?_ ⟨_, rfl⟩ ?_ ⟨_, rfl⟩
    ⟨_, rfl⟩ hc
  · intro k
    have hdigit : (Nat.digitChar k).isDigit = true := by
      revert k
      decide
    exact ⟨_, ofChar_digit hdigit⟩
  · intro op
    exact ⟨_, ofChar_symbol op⟩

theorem ofWord_of_ne {word : List Char} (hword : word.head? ≠ some ':') :
    ofWord word = word.mapM fun c => (ofChar c).map input := by
  unfold ofWord
  split
  · exact absurd rfl hword
  · rfl

theorem ofLine_expression {cs : List Char} (hne : cs ≠ [])
    (hcs : ∀ c ∈ cs, Token.isExpressionChar c = true) :
    ∃ inputs : List Input, cs.map ofChar = inputs.map .ok ∧
      ofLine (String.ofList cs) = .ok (inputs.map input) := by
  have hcolon : cs.head? ≠ some ':' := fun h => absurd (hcs _ (List.mem_of_mem_head? h)) (by decide)
  have hwords : Text.words cs = [cs] :=
    Text.words_eq_singleton hne fun c hc => Token.isBlank_of_isExpressionChar (hcs c hc)
  obtain ⟨inputs, hinputs, hkeys⟩ : ∃ inputs : List Input, cs.map ofChar = inputs.map .ok ∧
      (cs.mapM fun c => (ofChar c).map input) = .ok (inputs.map input) := by
    clear hne hcolon hwords
    induction cs with
    | nil => exact ⟨[], rfl, rfl⟩
    | cons c cs ih =>
      obtain ⟨hc, hrest⟩ := List.forall_mem_cons.mp hcs
      obtain ⟨first, hfirst⟩ := exists_ofChar hc
      obtain ⟨inputs, hinputs, hkeys⟩ := ih hrest
      refine ⟨first :: inputs, by simp [hfirst, hinputs], ?_⟩
      rw [List.mapM_cons, hfirst, hkeys]
      rfl
  refine ⟨inputs, hinputs, ?_⟩
  rw [ofLine, String.toList_ofList, hwords, List.mapM_cons, ofWord_of_ne hcolon, hkeys]
  simp only [List.mapM_nil]
  exact congrArg Except.ok (by simp)

end Key

end DeskCalculator
