import DeskCalculator.Proofs.Expression.Stages
import DeskCalculator.Proofs.Text.Digits
import Mathlib.Data.List.Chain
import Mathlib.Data.List.TakeWhile

/-! How a text is cut into tokens. Nothing of it is lost, its runs are as long as they can be, and there is no other
way to cut it so. -/
namespace DeskCalculator
namespace Token

/-- Of what a token consists: a run has characters, all of its own class. -/
def IsWhole : Token → Prop
  | literal text => text ≠ "" ∧ ∀ c ∈ text.toList, isLiteralChar c = true
  | unknown text => text ≠ "" ∧ ∀ c ∈ text.toList, isExpressionChar c = false
  | operator _ | opening | closing => True

/-- May one token stand right before another? Two runs of one class would be one run. -/
def MayPrecede : Token → Token → Prop
  | literal _, literal _ => False
  | unknown _, unknown _ => False
  | _, _ => True

/-- Tokens whose runs are as long as they can be. -/
structure Munched (tokens : List Token) : Prop where
  whole : ∀ token ∈ tokens, token.IsWhole
  apart : tokens.IsChain MayPrecede

/-! ### Runs of a class -/

/-- A class of characters that make runs, with the tokens of these. -/
structure MakesRuns (make : String → Token) (belongs : Char → Bool) : Prop where
  text_eq : ∀ run, (make run).text = run
  isWhole_iff : ∀ run, (make run).IsWhole ↔ run ≠ "" ∧ ∀ c ∈ run.toList, belongs c = true
  mayPrecede_iff : ∀ run token, (make run).MayPrecede token ↔ ∀ run', token ≠ make run'
  join_run : ∀ c, belongs c = true → ∀ run rest, join c (make run :: rest) = make (c.toString ++ run) :: rest
  join_other : ∀ c, belongs c = true → ∀ tokens, (∀ run, tokens.head? ≠ some (make run)) →
    join c tokens = make c.toString :: tokens

theorem makesRuns_literal : MakesRuns literal isLiteralChar where
  text_eq _ := rfl
  isWhole_iff _ := Iff.rfl
  mayPrecede_iff run token := by cases token <;> simp [MayPrecede]
  join_run c hc run rest := by simp only [join, hc, if_true]
  join_other c hc tokens htokens := by
    simp only [join, hc, if_true]
    cases tokens with
    | nil => rfl
    | cons token rest =>
      cases token with
      | literal run => exact absurd rfl (htokens run)
      | unknown | operator | opening | closing => rfl

theorem isForeignChar_iff {c : Char} : isForeignChar c = true ↔ isLiteralChar c = false ∧ ofChar? c = none := by
  simp [isForeignChar, isExpressionChar]

theorem makesRuns_unknown : MakesRuns unknown isForeignChar where
  text_eq _ := rfl
  isWhole_iff run := by simp [IsWhole, isForeignChar]
  mayPrecede_iff run token := by cases token <;> simp [MayPrecede]
  join_run c hc run rest := by simp [join, isForeignChar_iff.mp hc]
  join_other c hc tokens htokens := by
    simp only [join, isForeignChar_iff.mp hc, Bool.false_eq_true, if_false]
    cases tokens with
    | nil => rfl
    | cons token rest =>
      cases token with
      | unknown run => exact absurd rfl (htokens run)
      | literal | operator | opening | closing => rfl

variable {make : String → Token} {belongs : Char → Bool} {c : Char} {token : Token} {tokens : List Token}

theorem textOf_cons (token : Token) (tokens : List Token) : textOf (token :: tokens) = token.text ++ textOf tokens := by
  simp [textOf]

theorem munched_cons_iff : Munched (token :: tokens) ↔
    token.IsWhole ∧ (∀ next ∈ tokens.head?, token.MayPrecede next) ∧ Munched tokens := by
  constructor
  · rintro ⟨hwhole, hapart⟩
    obtain ⟨htoken, hrest⟩ := List.forall_mem_cons.mp hwhole
    obtain ⟨hnext, hapart⟩ := List.isChain_cons.mp hapart
    exact ⟨htoken, hnext, hrest, hapart⟩
  · rintro ⟨htoken, hnext, hrest, hapart⟩
    exact ⟨List.forall_mem_cons.mpr ⟨htoken, hrest⟩, List.isChain_cons.mpr ⟨hnext, hapart⟩⟩

/-- A character of a class joins the run that starts there, or starts one. -/
theorem MakesRuns.join_cases (h : MakesRuns make belongs) (hc : belongs c = true) (tokens : List Token) :
    (∃ run rest, tokens = make run :: rest ∧ join c tokens = make (c.toString ++ run) :: rest) ∨
      (∀ run, tokens.head? ≠ some (make run)) ∧ join c tokens = make c.toString :: tokens := by
  by_cases hhead : ∃ run, tokens.head? = some (make run)
  · obtain ⟨run, hrun⟩ := hhead
    obtain ⟨rest, rfl⟩ : ∃ rest, tokens = make run :: rest := ⟨_, (List.cons_head?_tail hrun).symm⟩
    exact Or.inl ⟨run, rest, rfl, h.join_run c hc run rest⟩
  · have hother (run : String) : tokens.head? ≠ some (make run) := fun hrun => hhead ⟨run, hrun⟩
    exact Or.inr ⟨hother, h.join_other c hc tokens hother⟩

theorem MakesRuns.textOf_join (h : MakesRuns make belongs) (hc : belongs c = true) (tokens : List Token) :
    textOf (join c tokens) = c.toString ++ textOf tokens := by
  rcases h.join_cases hc tokens with ⟨run, rest, rfl, hjoin⟩ | ⟨-, hjoin⟩
  · rw [hjoin, textOf_cons, textOf_cons, h.text_eq, h.text_eq, String.append_assoc]
  · rw [hjoin, textOf_cons, h.text_eq]

theorem MakesRuns.munched_join (h : MakesRuns make belongs) (hc : belongs c = true) (htokens : Munched tokens) :
    Munched (join c tokens) := by
  rcases h.join_cases hc tokens with ⟨run, rest, rfl, hjoin⟩ | ⟨hother, hjoin⟩
  · obtain ⟨hrun, hnext, hrest⟩ := munched_cons_iff.mp htokens
    rw [h.isWhole_iff] at hrun
    simp only [h.mayPrecede_iff] at hnext
    rw [hjoin, munched_cons_iff, h.isWhole_iff]
    simp only [h.mayPrecede_iff]
    refine ⟨⟨by simp, ?_⟩, hnext, hrest⟩
    simpa [hc] using hrun.2
  · rw [hjoin, munched_cons_iff, h.isWhole_iff]
    refine ⟨by simpa using hc, fun next hnext => ?_, htokens⟩
    rw [h.mayPrecede_iff]
    rintro run rfl
    exact hother run hnext

/-- Characters of a class in front of what does not go on with a run make one run. -/
theorem MakesRuns.foldr_join (h : MakesRuns make belongs) {cs : List Char} (hne : cs ≠ [])
    (hcs : ∀ c ∈ cs, belongs c = true) (htokens : ∀ run, tokens.head? ≠ some (make run)) :
    cs.foldr join tokens = make (String.ofList cs) :: tokens := by
  induction cs with
  | nil => exact absurd rfl hne
  | cons c cs ih =>
    obtain ⟨hc, hrest⟩ := List.forall_mem_cons.mp hcs
    by_cases hnil : cs = []
    · subst hnil
      exact h.join_other c hc tokens htokens
    · rw [List.foldr_cons, ih hnil hrest, h.join_run c hc]
      congr 2
      rw [← String.toList_inj]
      simp

/-! ### Characters that are tokens of their own -/

theorem symbol_cases (h : ofChar? c = some token) :
    c = '(' ∧ token = opening ∨ c = ')' ∧ token = closing ∨ ∃ op : Operator, c = op.symbol ∧ token = operator op := by
  unfold ofChar? at h
  split at h
  · exact Or.inl ⟨rfl, (Option.some.inj h).symm⟩
  · exact Or.inr (Or.inl ⟨rfl, (Option.some.inj h).symm⟩)
  · obtain ⟨op, hop, rfl⟩ := Option.map_eq_some_iff.mp h
    refine Or.inr (Or.inr ⟨op, ?_, rfl⟩)
    unfold Operator.ofChar? at hop
    split at hop <;> cases hop <;> rfl

theorem ofChar?_symbol (op : Operator) : ofChar? op.symbol = some (operator op) := by cases op <;> rfl

theorem symbol_of_ofChar? (h : ofChar? c = some token) :
    token.text = c.toString ∧ token.IsWhole ∧ (∀ next, token.MayPrecede next) ∧
      ∀ tokens, join c tokens = token :: tokens := by
  rcases symbol_cases h with ⟨rfl, rfl⟩ | ⟨rfl, rfl⟩ | ⟨op, rfl, rfl⟩
  · exact ⟨rfl, trivial, fun next => by cases next <;> trivial, fun _ => rfl⟩
  · exact ⟨rfl, trivial, fun next => by cases next <;> trivial, fun _ => rfl⟩
  · exact ⟨rfl, trivial, fun next => by cases next <;> trivial, fun _ => by cases op <;> rfl⟩

/-! ### All characters -/

/-- A character belongs to a class that makes runs or is a token of its own. -/
theorem char_cases (c : Char) :
    isLiteralChar c = true ∨ isForeignChar c = true ∨ isLiteralChar c = false ∧ ∃ token, ofChar? c = some token := by
  cases hliteral : isLiteralChar c with
  | true => exact Or.inl rfl
  | false =>
    cases h : ofChar? c with
    | some token => exact Or.inr (Or.inr ⟨rfl, token, rfl⟩)
    | none => exact Or.inr (Or.inl (isForeignChar_iff.mpr ⟨hliteral, h⟩))

theorem munched_join (c : Char) (htokens : Munched tokens) :
    Munched (join c tokens) ∧ textOf (join c tokens) = c.toString ++ textOf tokens := by
  rcases char_cases c with hc | hc | ⟨-, token, htoken⟩
  · exact ⟨makesRuns_literal.munched_join hc htokens, makesRuns_literal.textOf_join hc tokens⟩
  · exact ⟨makesRuns_unknown.munched_join hc htokens, makesRuns_unknown.textOf_join hc tokens⟩
  · obtain ⟨htext, hwhole, hprecedes, hjoin⟩ := symbol_of_ofChar? htoken
    rw [hjoin, textOf_cons, htext, munched_cons_iff]
    exact ⟨⟨hwhole, fun next _ => hprecedes next, htokens⟩, rfl⟩

theorem munched_lex (text : String) : Munched (lex text) ∧ textOf (lex text) = text := by
  have hchars (cs : List Char) : Munched (cs.foldr join []) ∧ textOf (cs.foldr join []) = String.ofList cs := by
    induction cs with
    | nil => exact ⟨⟨by simp, .nil⟩, rfl⟩
    | cons c cs ih =>
      obtain ⟨hmunched, htext⟩ := munched_join c ih.1
      refine ⟨hmunched, ?_⟩
      rw [List.foldr_cons, htext, ih.2, ← String.toList_inj]
      simp
  have h := hchars text.toList
  rwa [String.ofList_toList] at h

/-- Tokens whose runs are as long as they can be are the ones that their text is cut into. -/
theorem lex_textOf (h : Munched tokens) : lex (textOf tokens) = tokens := by
  induction tokens with
  | nil => rfl
  | cons token tokens ih =>
    obtain ⟨hwhole, hnext, hrest⟩ := munched_cons_iff.mp h
    have hrun {make : String → Token} {belongs : Char → Bool} (hruns : MakesRuns make belongs) {run : String}
        (hwhole : (make run).IsWhole) (hnext : ∀ next ∈ tokens.head?, (make run).MayPrecede next) :
        lex (textOf (make run :: tokens)) = make run :: tokens := by
      rw [hruns.isWhole_iff] at hwhole
      simp only [hruns.mayPrecede_iff] at hnext
      have hother (run' : String) : tokens.head? ≠ some (make run') := fun hhead => hnext _ hhead run' rfl
      have hjoined := hruns.foldr_join (by simpa using hwhole.1) hwhole.2 hother
      rw [textOf_cons, hruns.text_eq, lex, String.toList_append, List.foldr_append]
      change run.toList.foldr join (lex (textOf tokens)) = _
      rw [ih hrest, hjoined, String.ofList_toList]
    have hsymbol {c : Char} (hc : ofChar? c = some token) : lex (textOf (token :: tokens)) = token :: tokens := by
      obtain ⟨htext, -, -, hjoin⟩ := symbol_of_ofChar? hc
      have hchar : (c.toString ++ textOf tokens).toList = c :: (textOf tokens).toList := by simp
      rw [textOf_cons, htext, lex, hchar, List.foldr_cons]
      change join c (lex (textOf tokens)) = _
      rw [ih hrest, hjoin]
    cases token with
    | literal run => exact hrun makesRuns_literal hwhole hnext
    | unknown run => exact hrun makesRuns_unknown hwhole hnext
    | operator op => exact hsymbol (ofChar?_symbol op)
    | opening =>
      have hc : ofChar? '(' = some opening := rfl
      exact hsymbol hc
    | closing =>
      have hc : ofChar? ')' = some closing := rfl
      exact hsymbol hc

theorem mem_textOf {c : Char} (htoken : token ∈ tokens) (hc : c ∈ token.text.toList) : c ∈ (textOf tokens).toList := by
  obtain ⟨before, after, rfl⟩ := List.append_of_mem htoken
  simp [textOf, hc]

/-! ### Cutting from the front -/

theorem cutFront_cases (c : Char) (rest : List Char) :
    isLiteralChar c = true ∧ cutFront c rest
        = (literal (String.ofList (c :: rest.takeWhile isLiteralChar)), rest.dropWhile isLiteralChar) ∨
      isForeignChar c = true ∧ cutFront c rest
        = (unknown (String.ofList (c :: rest.takeWhile isForeignChar)), rest.dropWhile isForeignChar) ∨
      ∃ token, ofChar? c = some token ∧ cutFront c rest = (token, rest) := by
  rcases char_cases c with hc | hc | ⟨hc, token, htoken⟩
  · exact Or.inl ⟨hc, by simp [cutFront, hc]⟩
  · exact Or.inr (Or.inl ⟨hc, by simp [cutFront, isForeignChar_iff.mp hc]⟩)
  · exact Or.inr (Or.inr ⟨token, htoken, by simp [cutFront, hc, htoken]⟩)

/-- A run that is cut off is over: its class does not go on after it. -/
theorem MakesRuns.cut (h : MakesRuns make belongs) (hc : belongs c = true) (rest : List Char)
    (hfront : ∀ d ds run, (cutFront d ds).1 = make run → belongs d = true) :
    (make (String.ofList (c :: rest.takeWhile belongs))).IsWhole ∧
      (make (String.ofList (c :: rest.takeWhile belongs))).text.toList ++ rest.dropWhile belongs = c :: rest ∧
      ∀ d ds, rest.dropWhile belongs = d :: ds →
        (make (String.ofList (c :: rest.takeWhile belongs))).MayPrecede (cutFront d ds).1 := by
  rw [h.isWhole_iff, h.text_eq, String.toList_ofList, List.cons_append, List.takeWhile_append_dropWhile]
  refine ⟨⟨by simp, List.forall_mem_cons.mpr ⟨hc, fun d hd => List.mem_takeWhile_imp hd⟩⟩, rfl, fun d ds hrest => ?_⟩
  rw [h.mayPrecede_iff]
  intro run hrun
  have hends := Text.dropWhile_ends belongs rest d (by rw [hrest]; rfl)
  simp [hfront d ds run hrun] at hends

theorem cutFront_spec (c : Char) (rest : List Char) :
    (cutFront c rest).1.IsWhole ∧ (cutFront c rest).1.text.toList ++ (cutFront c rest).2 = c :: rest ∧
      ∀ d ds, (cutFront c rest).2 = d :: ds → (cutFront c rest).1.MayPrecede (cutFront d ds).1 := by
  have hliteral (d : Char) (ds : List Char) (run : String) (h : (cutFront d ds).1 = literal run) :
      isLiteralChar d = true := by
    rcases cutFront_cases d ds with ⟨hd, -⟩ | ⟨-, hcut⟩ | ⟨token, htoken, hcut⟩
    · exact hd
    · rw [hcut] at h
      cases h
    · rw [hcut] at h
      obtain ⟨-, -, hprecedes, -⟩ := symbol_of_ofChar? htoken
      exact (h ▸ hprecedes (literal run) : (literal run).MayPrecede (literal run)).elim
  have hforeign (d : Char) (ds : List Char) (run : String) (h : (cutFront d ds).1 = unknown run) :
      isForeignChar d = true := by
    rcases cutFront_cases d ds with ⟨-, hcut⟩ | ⟨hd, -⟩ | ⟨token, htoken, hcut⟩
    · rw [hcut] at h
      cases h
    · exact hd
    · rw [hcut] at h
      obtain ⟨-, -, hprecedes, -⟩ := symbol_of_ofChar? htoken
      exact (h ▸ hprecedes (unknown run) : (unknown run).MayPrecede (unknown run)).elim
  rcases cutFront_cases c rest with ⟨hc, hcut⟩ | ⟨hc, hcut⟩ | ⟨token, htoken, hcut⟩
  · rw [hcut]
    exact makesRuns_literal.cut hc rest hliteral
  · rw [hcut]
    exact makesRuns_unknown.cut hc rest hforeign
  · obtain ⟨htext, hwhole, hprecedes, -⟩ := symbol_of_ofChar? htoken
    rw [hcut, htext]
    exact ⟨hwhole, by simp, fun d ds _ => hprecedes _⟩

theorem munch_eq_lex (text : String) : munch text.toList = lex text := by
  have hmunch (cs : List Char) : Munched (munch cs) ∧ textOf (munch cs) = String.ofList cs := by
    fun_induction munch cs with
    | case1 => exact ⟨⟨by simp, .nil⟩, rfl⟩
    | case2 c rest ih =>
      obtain ⟨hwhole, htext, hnext⟩ := cutFront_spec c rest
      obtain ⟨hmunched, hrest⟩ := ih
      refine ⟨munched_cons_iff.mpr ⟨hwhole, fun next hhead => ?_, hmunched⟩, ?_⟩
      · cases hafter : (cutFront c rest).2 with
        | nil =>
          rw [hafter, munch] at hhead
          cases hhead
        | cons d ds =>
          rw [hafter, munch] at hhead
          obtain rfl := Option.some.inj hhead
          exact hnext d ds hafter
      · rw [textOf_cons, hrest, ← htext, String.ofList_append, String.ofList_toList]
  obtain ⟨hmunched, htext⟩ := hmunch text.toList
  rw [← lex_textOf hmunched, htext, String.ofList_toList]

end Token

/-- A text is cut into tokens without loss, its runs as long as they can be, and tokens of this kind are the ones that
their own text is cut into. One token after the other is what looking one character ahead finds. What is left of a text
when all foreign characters are taken out has no tokens of them. -/
theorem lexing_is_lossless_and_canonical :
    (∀ text, textOf (Token.lex text) = text ∧ Token.Munched (Token.lex text)) ∧
    (∀ tokens, Token.Munched tokens → Token.lex (textOf tokens) = tokens) ∧
    (∀ text run, Token.unknown run ∉ Token.lex (Token.sanitize text)) ∧
    (∀ text, Token.munch text.toList = Token.lex text) := by
  refine ⟨fun text => (Token.munched_lex text).symm, fun tokens => Token.lex_textOf, fun text run hrun => ?_,
    Token.munch_eq_lex⟩
  obtain ⟨hmunched, htext⟩ := Token.munched_lex (Token.sanitize text)
  obtain ⟨hne, hforeign⟩ := hmunched.whole _ hrun
  obtain ⟨c, hc⟩ := List.exists_mem_of_ne_nil run.toList (by simpa using hne)
  -- a foreign character of the run would be left in the text
  have hleft : c ∈ (Token.sanitize text).toList := by
    rw [← htext]
    exact Token.mem_textOf hrun hc
  have hexpression : Token.isExpressionChar c = true := by
    rw [Token.sanitize, String.toList_ofList] at hleft
    exact (List.mem_filter.mp hleft).2
  rw [hforeign c hc] at hexpression
  cases hexpression

end DeskCalculator
