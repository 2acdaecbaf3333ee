import DeskCalculator.Number.Rendering
import DeskCalculator.Proofs.Expression.Lexing
import DeskCalculator.Proofs.Expression.StackEvaluation
import DeskCalculator.Proofs.Number.Spelling
import DeskCalculator.Proofs.Number.Sums

/-! What a shown number is as an expression. Without an exponent it is a literal, with or without a sign,
and evaluates to itself. With an exponent the letter is passed over, and what is left is a sum of two
literals. -/
namespace DeskCalculator

namespace Arithmetic

theorem finite_eq_ok_iff {x y : Float} :
    finite x = .ok y ↔ x = y ∧ Binary64.code x < Binary64.infinityCode := by
  unfold finite
  split_ifs with hnan hinf
  · rw [Binary64.isNaN_iff] at hnan
    constructor
    · intro h
      exact h.elim
    · rintro ⟨-, hlt⟩
      omega
  · rw [Binary64.isInf_iff] at hinf
    constructor
    · intro h
      exact h.elim
    · rintro ⟨-, hlt⟩
      omega
  · rw [Binary64.isNaN_iff] at hnan
    rw [Binary64.isInf_iff] at hinf
    constructor
    · intro h
      exact ⟨Except.ok.inj h, by omega⟩
    · rintro ⟨rfl, -⟩
      rfl

end Arithmetic

namespace Token

def ofText (text : String) : List Token := lex (sanitize text)

theorem isExpressionChar_of_isLiteralChar {c : Char} (hc : isLiteralChar c = true) :
    isExpressionChar c = true := by
  simp [isExpressionChar, hc]

theorem filter_literalChars {cs : List Char} (hcs : ∀ c ∈ cs, isLiteralChar c = true) :
    cs.filter isExpressionChar = cs :=
  List.filter_eq_self.mpr fun c hc => isExpressionChar_of_isLiteralChar (hcs c hc)

def ofSign (negative : Bool) : List Token := if negative then [operator .minus] else []

def signed (negative : Bool) (cs : List Char) : List Char := if negative then '-' :: cs else cs

theorem ofText_literal (negative : Bool) {cs : List Char} (hne : cs ≠ [])
    (hcs : ∀ c ∈ cs, isLiteralChar c = true) :
    ofText (String.ofList (signed negative cs)) = ofSign negative ++ [literal (String.ofList cs)] := by
  have hlex : cs.foldr join [] = [literal (String.ofList cs)] :=
    makesRuns_literal.foldr_join hne hcs (by simp)
  cases negative
  · simp [ofText, sanitize, lex, signed, ofSign, filter_literalChars hcs, hlex]
  · have hminus : isExpressionChar '-' = true := by decide
    simp only [ofText, sanitize, lex, signed, ofSign, if_true, String.toList_ofList,
      List.filter_cons_of_pos hminus, filter_literalChars hcs, List.foldr_cons, hlex]
    rfl

theorem ofText_sum (negative : Bool) {cs ds : List Char} {foreign : Char} {op : Operator}
    (hcs : cs ≠ []) (hcsLiteral : ∀ c ∈ cs, isLiteralChar c = true)
    (hds : ds ≠ []) (hdsLiteral : ∀ c ∈ ds, isLiteralChar c = true)
    (hforeign : isExpressionChar foreign = false) :
    ofText (String.ofList (signed negative (cs ++ foreign :: op.symbol :: ds)))
      = ofSign negative ++ literal (String.ofList cs) :: [operator op, literal (String.ofList ds)] := by
  have hop : isExpressionChar op.symbol = true := by cases op <;> decide
  have hjoin (tokens : List Token) : join op.symbol tokens = operator op :: tokens := by
    cases op <;> rfl
  have hright : ds.foldr join [] = [literal (String.ofList ds)] :=
    makesRuns_literal.foldr_join hds hdsLiteral (by simp)
  have hleft : cs.foldr join [operator op, literal (String.ofList ds)]
      = literal (String.ofList cs) :: [operator op, literal (String.ofList ds)] :=
    makesRuns_literal.foldr_join hcs hcsLiteral (by simp)
  have hfilter : (cs ++ foreign :: op.symbol :: ds).filter isExpressionChar = cs ++ op.symbol :: ds := by
    rw [List.filter_append, filter_literalChars hcsLiteral,
      List.filter_cons_of_neg (by simp [hforeign]), List.filter_cons_of_pos hop,
      filter_literalChars hdsLiteral]
  cases negative
  · simp only [ofText, sanitize, lex, signed, ofSign, Bool.false_eq_true, if_false,
      String.toList_ofList, hfilter, List.foldr_append, List.foldr_cons, hright, hjoin, hleft,
      List.nil_append]
  · have hminus : isExpressionChar '-' = true := by decide
    simp only [ofText, sanitize, lex, signed, ofSign, if_true, String.toList_ofList,
      List.filter_cons_of_pos hminus, hfilter, List.foldr_append, List.foldr_cons, hright, hjoin,
      hleft]
    rfl

end Token

def withSign (negative : Bool) (x : Float) : Float := if negative then -x else x

namespace Tree
open Token (ofSign)

def signedShape (negative : Bool) (x : Float) : Shape :=
  if negative then .negation (.number x) else .number x

theorem spells_signed {text : String} {x : Float} (hread : Numeral.read? text = some x)
    (negative : Bool) :
    ∃ n ≤ 1, Spells .sum n (ofSign negative ++ [.literal text]) (signedShape negative x) := by
  cases negative
  · exact ⟨0, by omega, .product (.operand (.literal hread))⟩
  · exact ⟨1, le_rfl, .product (.operand (.minus (.literal hread)))⟩

theorem need_value_of_signedShape {tree : Tree} {negative : Bool} {x : Float}
    (h : tree.shape = signedShape negative x) :
    tree.need = 1 ∧ tree.value = .ok (withSign negative x) := by
  cases negative
  · obtain ⟨column, rfl⟩ := eq_number_of_shape h
    exact ⟨rfl, rfl⟩
  · obtain ⟨column, operand, rfl, hoperand⟩ := eq_negation_of_shape h
    obtain ⟨column', rfl⟩ := eq_number_of_shape hoperand
    exact ⟨rfl, rfl⟩

end Tree

theorem evaluate_of_literal {text literal : String} {negative : Bool} {x : Float}
    (htext : Token.ofText text = Token.ofSign negative ++ [.literal literal])
    (hread : Numeral.read? literal = some x) :
    evaluate text = Arithmetic.finite (withSign negative x) := by
  obtain ⟨n, hn, hspells⟩ := Tree.spells_signed hread negative
  obtain ⟨tree, htree, hshape⟩ := Tree.ofTokens_of_spells hspells (by omega)
  obtain ⟨hneed, hvalue⟩ := Tree.need_value_of_signedShape hshape
  rw [← htext, Token.ofText] at htree
  rw [evaluate, htree, Outcome.ok_bind, Tree.evaluate_of_need_le (by omega), hvalue, Outcome.ok_bind]

theorem evaluate_of_sum {text left right : String} {negative : Bool} {op : Operator} {x y w : Float}
    (htext : Token.ofText text
      = Token.ofSign negative ++ .literal left :: [.operator op, .literal right])
    (hop : op = .plus ∨ op = .minus)
    (hleft : Numeral.read? left = some x) (hright : Numeral.read? right = some y)
    (heval : evaluate text = .ok w) : Arithmetic.apply op (withSign negative x) y = .ok w := by
  obtain ⟨n, hn, hspells⟩ := Tree.spells_signed hleft negative
  have hsum : Spells .sum (max n 0)
      (Token.ofSign negative ++ .literal left :: [.operator op, .literal right])
      (.binary op (Tree.signedShape negative x) (.number y)) := by
    simpa using Spells.plusMinus hspells hop (.operand (.literal hright))
  obtain ⟨tree, htree, hshape⟩ := Tree.ofTokens_of_spells hsum (by omega)
  rw [← htext, Token.ofText] at htree
  obtain ⟨column, l, r, rfl, hl, hr⟩ := Tree.eq_binary_of_shape hshape
  obtain ⟨hlneed, hlvalue⟩ := Tree.need_value_of_signedShape hl
  obtain ⟨hrneed, hrvalue⟩ := @Tree.need_value_of_signedShape r false y hr
  have hneed : (Tree.binary op column l r).need ≤ 256 := by
    rw [Tree.need]
    omega
  rw [evaluate, htree, Outcome.ok_bind, Tree.evaluate_of_need_le hneed, Tree.value, hlvalue, hrvalue,
    Outcome.ok_bind, Outcome.ok_bind] at heval
  obtain ⟨z, hz, hfinite⟩ := Outcome.bind_eq_ok.mp heval
  obtain ⟨rfl, -⟩ := Arithmetic.finite_eq_ok_iff.mp hfinite
  exact Outcome.reworded_eq_ok.mp hz

theorem code_lt_of_evaluate {text : String} {v : Float} (h : evaluate text = .ok v) :
    Binary64.code v < Binary64.infinityCode := by
  obtain ⟨tree, -, htree⟩ := Outcome.bind_eq_ok.mp h
  obtain ⟨stack, -, hpop⟩ := Outcome.bind_eq_ok.mp htree
  obtain ⟨x, -, hfinite⟩ := Outcome.bind_eq_ok.mp hpop
  obtain ⟨rfl, hlt⟩ := Arithmetic.finite_eq_ok_iff.mp hfinite
  exact hlt

namespace Number
open Binary64

/-- Numbers that are written alike: both are zero, or they are the same number. -/
def Alike (x y : Float) : Prop := code x = code y ∧ (code x ≠ 0 → isNegative x = isNegative y)

theorem beq_iff_alike {x y : Float} (hx : code x < infinityCode) (hy : code y < infinityCode) :
    (x == y) = true ↔ Alike x y := by
  have hcompare : (x == y) = (Float.Model.UnpackedFloat.compare (unpacked (isNegative x) (code x))
      (unpacked (isNegative y) (code y)) == some .eq) := by
    change (Float.Model.UnpackedFloat.compare x.toModel.unpack y.toModel.unpack == some .eq) = _
    rw [unpack_toModel, unpack_toModel, if_pos hx.le, if_pos hy.le]
  have hfinite : binade (code x) = binade (code y) ∧ mantissa (code x) = mantissa (code y) ↔
      code x = code y := by
    constructor
    · rintro ⟨hbinade, hmantissa⟩
      rw [code_eq_parts (code x), code_eq_parts (code y), hbinade, hmantissa]
    · intro h
      rw [h]
      exact ⟨rfl, rfl⟩
  have hthen (d e : ℤ) (m n : ℕ) : ((compare d e).then (compare m n) = .eq) ↔ d = e ∧ m = n := by
    rw [Ordering.then_eq_eq, compare_eq_iff_eq, compare_eq_iff_eq]
  have hexponent : (binade (code x) : ℤ) - 1074 = binade (code y) - 1074 ↔
      binade (code x) = binade (code y) := by omega
  rw [hcompare, beq_iff_eq]
  unfold Alike unpacked
  by_cases hx0 : code x = 0
  · by_cases hy0 : code y = 0
    · simp [hx0, hy0, Float.Model.UnpackedFloat.compare]
    · rw [dif_pos hx0, dif_neg hy0, if_pos hy]
      cases isNegative y <;> simp [hx0, Ne.symm hy0, sign, Float.Model.UnpackedFloat.compare]
  · by_cases hy0 : code y = 0
    · rw [dif_pos hy0, dif_neg hx0, if_pos hx]
      cases isNegative x <;> simp [hx0, hy0, sign, Float.Model.UnpackedFloat.compare]
    · -- Two magnitudes other than zero: their parts are compared, and the order of the parts is total.
      rw [dif_neg hx0, dif_neg hy0, if_pos hx, if_pos hy]
      cases isNegative x <;> cases isNegative y <;>
        simp [hx0, sign, Float.Model.UnpackedFloat.compare, hthen, hexponent, hfinite]

theorem render_eq {x : Float} (hx : code x < infinityCode) :
    render x = String.ofList (Token.signed (isNegative x && decide (0 < code x)) (renderCode (code x))) := by
  have hle : decide (code x ≤ infinityCode) = true := decide_eq_true hx.le
  simp only [render, hle, Bool.and_true, Token.signed]

theorem renderCode_head {c : ℕ} (hc : c < infinityCode) :
    ∃ d cs, renderCode c = d :: cs ∧ d.isDigit = true := by
  have hwhole {text whole fraction : List Char} {v : ℚ} (h : Numeral.Writes text v whole fraction)
      (rest : List Char) : ∃ d cs, text ++ rest = d :: cs ∧ d.isDigit = true := by
    obtain ⟨d, cs, hcons⟩ := List.exists_cons_of_ne_nil h.whole_ne_nil
    refine ⟨d, _, by rw [h.text_eq, Numeral.spell, hcons]; rfl, ?_⟩
    exact h.whole_digits d (by rw [hcons]; exact List.mem_cons_self ..)
  by_cases he : 'e' ∈ renderCode c
  · obtain ⟨hzero, htext, -⟩ := renderCode_of_mem hc he
    rw [htext, exponential_eq]
    exact hwhole (mantissaText_writes (Decimal.shortest_coefficient_ne_zero hzero hc)) _
  · obtain ⟨v, whole, fraction, hwrites⟩ := renderCode_writes hc he
    simpa using hwhole hwrites []

theorem render_eq_render_iff {x y : Float} (hx : code x < infinityCode) (hy : code y < infinityCode) :
    render x = render y ↔ Alike x y := by
  constructor
  · intro h
    rw [render_eq hx, render_eq hy] at h
    have hlists := congrArg String.toList h
    rw [String.toList_ofList, String.toList_ofList] at hlists
    obtain ⟨d, cs, hd, hdigit⟩ := renderCode_head hx
    obtain ⟨e, es, he, hedigit⟩ := renderCode_head hy
    have hnotMinus {c : Char} (hc : c.isDigit = true) : '-' ≠ c := by
      rintro rfl
      exact absurd hc (by decide)
    -- The signs agree, since a minus sign is no digit; what is left is read back as the code.
    have hsplit : (isNegative x && decide (0 < code x)) = (isNegative y && decide (0 < code y)) ∧
        renderCode (code x) = renderCode (code y) := by
      unfold Token.signed at hlists
      split_ifs at hlists with h₁ h₂ h₂
      · exact ⟨by rw [h₁, h₂], (List.cons.inj hlists).2⟩
      · rw [he] at hlists
        exact absurd (List.cons.inj hlists).1 (hnotMinus hedigit)
      · rw [hd] at hlists
        exact absurd (List.cons.inj hlists).1.symm (hnotMinus hdigit)
      · exact ⟨by rw [Bool.eq_false_iff.mpr h₁, Bool.eq_false_iff.mpr h₂], hlists⟩
    have hread := read?_renderCode hx
    rw [hsplit.2, read?_renderCode hy] at hread
    have hcode : code x = code y := by
      have hparts := congrArg code (Option.some.inj hread)
      rw [code_ofCode false hx.le, code_ofCode false hy.le] at hparts
      exact hparts.symm
    refine ⟨hcode, fun hne => ?_⟩
    have hpos : decide (0 < code x) = true := decide_eq_true (Nat.pos_of_ne_zero hne)
    have hsigns := hsplit.1
    rwa [← hcode, hpos, Bool.and_true, Bool.and_true] at hsigns
  · rintro ⟨hcode, hsign⟩
    rw [render_eq hx, render_eq hy, ← hcode]
    by_cases hzero : code x = 0
    · simp [hzero]
    · rw [hsign hzero]

theorem parts_withSign (negative : Bool) {c : ℕ} (hc : c ≤ infinityCode) :
    isNegative (withSign negative (ofCode false c)) = negative ∧
      code (withSign negative (ofCode false c)) = c := by
  obtain ⟨hsign, hcode⟩ := parts_ofCode false hc
  cases negative
  · exact ⟨hsign, hcode⟩
  · have hneg := parts_neg (hcode.le.trans hc)
    rw [hsign, hcode] at hneg
    exact hneg

theorem isLiteralChar_of_writes {text whole fraction : List Char} {v : ℚ}
    (h : Numeral.Writes text v whole fraction) : ∀ c ∈ text, Token.isLiteralChar c = true := by
  intro c hc
  rcases h.isLiteralChar c hc with h | h <;> simp [Token.isLiteralChar, h]

/-- A number that is shown without an exponent evaluates to a number that is written alike. -/
theorem evaluate_render {x : Float} (hx : code x < infinityCode) (hplain : 'e' ∉ (render x).toList) :
    ∃ w, evaluate (render x) = .ok w ∧ Alike w x := by
  set negative := isNegative x && decide (0 < code x) with hnegative
  have hrender := render_eq hx
  rw [← hnegative] at hrender
  have hcode : 'e' ∉ renderCode (code x) := by
    intro hmem
    rw [hrender, String.toList_ofList, Token.signed] at hplain
    split_ifs at hplain
    · exact hplain (List.mem_cons_of_mem _ hmem)
    · exact hplain hmem
  obtain ⟨v, whole, fraction, hwrites⟩ := renderCode_writes hx hcode
  have htext := Token.ofText_literal negative hwrites.ne_nil (isLiteralChar_of_writes hwrites)
  obtain ⟨hsign, hparts⟩ := parts_withSign negative hx.le
  rw [← hrender] at htext
  refine ⟨withSign negative (ofCode false (code x)), ?_, hparts, fun hne => ?_⟩
  · rw [evaluate_of_literal htext (read?_renderCode hx)]
    exact Arithmetic.finite_eq_ok_iff.mpr ⟨rfl, by rwa [hparts]⟩
  · rw [hparts] at hne
    rw [hsign, hnegative, decide_eq_true (Nat.pos_of_ne_zero hne), Bool.and_true]

end Number

end DeskCalculator
