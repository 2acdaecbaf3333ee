import DeskCalculator.Proofs.Expression.Grammar

/-! The stages of reading an expression. One token at a time takes one stage to the next, and from every stage there
is a way to the end. So the token that no stage can take is the first one with which no expression starts, and the
reader of trees stops at that token. -/
namespace DeskCalculator
open Token (Placed)

/-- A stage of reading. In front of an operand, `room` levels of nesting are left for it. The sum that it is a part of
has `level` of them, and the sums around that one have those in `outer`. -/
inductive Stage where
  | operand (room level : Nat) (outer : List Nat)
  | operator (level : Nat) (outer : List Nat)

namespace Stage

def step : Stage → Token → Option Stage
  | operand _ level outer, .literal text =>
    if (Numeral.read? text).isSome then some (operator level outer) else none
  | operand (room + 1) level outer, .operator op => if op.isSum then some (operand room level outer) else none
  | operand (room + 1) level outer, .opening => some (operand room room (level :: outer))
  | operator level outer, .operator _ => some (operand level level outer)
  | operator _ (level :: outer), .closing => some (operator level outer)
  | _, _ => none

def run (stage : Stage) : List Token → Option Stage
  | [] => some stage
  | token :: rest => (stage.step token).bind fun next => next.run rest

/-- Is an expression over, with all its parentheses closed? -/
def IsFinal : Stage → Prop
  | operator _ [] => True
  | _ => False

def start : Stage := operand Tree.maxNesting Tree.maxNesting []

theorem run_append (stage : Stage) (ts us : List Token) :
    stage.run (ts ++ us) = (stage.run ts).bind fun next => next.run us := by
  induction ts generalizing stage with
  | nil => rfl
  | cons token ts ih =>
    simp only [List.cons_append, run]
    cases stage.step token with
    | none => rfl
    | some next => exact ih next

theorem run_singleton (stage : Stage) (token : Token) : stage.run [token] = stage.step token := by
  cases h : stage.step token <;> simp [run, h]

/-- Tokens to the end of an expression: an operand where one has to come, and the parentheses that are open. -/
def completion : Stage → List Token
  | operand _ _ outer => .literal "0" :: List.replicate outer.length .closing
  | operator _ outer => List.replicate outer.length .closing

theorem run_closings (level : Nat) (outer : List Nat) :
    ∃ last, (operator level outer).run (List.replicate outer.length .closing) = some last ∧ last.IsFinal := by
  induction outer generalizing level with
  | nil => exact ⟨operator level [], rfl, trivial⟩
  | cons next outer ih => exact ih next

theorem run_completion (stage : Stage) : ∃ last, stage.run stage.completion = some last ∧ last.IsFinal := by
  cases stage with
  | operator level outer => exact run_closings level outer
  | operand room level outer =>
    have hstep : (operand room level outer).step (.literal "0") = some (operator level outer) := by
      have hread : (Numeral.read? "0").isSome = true := by decide
      simp [step, hread]
    obtain ⟨last, hrun, hfinal⟩ := run_closings level outer
    refine ⟨last, ?_, hfinal⟩
    rw [completion, run, hstep]
    exact hrun

end Stage

namespace Tree

/-! ### The reader goes through the stages -/

theorem tokensOf_append (ps qs : List Placed) : tokensOf (ps ++ qs) = tokensOf ps ++ tokensOf qs := List.map_append

/-- Does no operator of some levels come next? -/
def EndsBefore (levels : List (Operator → Bool)) (rest : List Placed) : Prop :=
  ∀ level ∈ levels, startsWith level rest = false

/-- A fault is at the token that a stage cannot take. Where all the tokens are taken and the last stage is not the
end, it is at the last one of the input. -/
inductive Blames (last : Column) (stage : Stage) (ps : List Placed) (column : Column) : Prop
  | stuck {before after : List Placed} {token : Token} {next : Stage} (hps : ps = before ++ ⟨token, column⟩ :: after)
      (hrun : stage.run (tokensOf before) = some next) (hstep : next.step token = none)
  | incomplete {next : Stage} (hcolumn : column = last) (hrun : stage.run (tokensOf ps) = some next)
      (hopen : ¬ next.IsFinal)

/-- What was read took one stage to another, and is over before an operator of some levels. -/
def Tracks (last : Column) (levels : List (Operator → Bool)) (stage finish : Stage) (ps : List Placed) :
    Except Fault (Tree × List Placed) → Prop
  | .ok (_, rest) =>
    ∃ used, ps = used ++ rest ∧ stage.run (tokensOf used) = some finish ∧ EndsBefore levels rest
  | .error fault => Blames last stage ps fault.column

section
variable {last column : Column} {levels levels' : List (Operator → Bool)} {stage mid finish : Stage}
  {ps rest used : List Placed} {x : Except Fault (Tree × List Placed)}

theorem Blames.after (h : Blames last mid rest column) (hused : stage.run (tokensOf used) = some mid) :
    Blames last stage (used ++ rest) column := by
  cases h with
  | @stuck before after token next hps hrun hstep =>
    have hsplit : used ++ rest = (used ++ before) ++ ⟨token, column⟩ :: after := by rw [hps, List.append_assoc]
    refine .stuck hsplit ?_ hstep
    rw [tokensOf_append, Stage.run_append, hused]
    exact hrun
  | incomplete hcolumn hrun hopen =>
    refine .incomplete hcolumn ?_ hopen
    rw [tokensOf_append, Stage.run_append, hused]
    exact hrun

theorem Tracks.after (h : Tracks last levels mid finish rest x) (hused : stage.run (tokensOf used) = some mid) :
    Tracks last levels stage finish (used ++ rest) x := by
  cases x with
  | error fault => exact Blames.after h hused
  | ok result =>
    obtain ⟨tree, left⟩ := result
    obtain ⟨more, rfl, hrun, hends⟩ := h
    refine ⟨used ++ more, (List.append_assoc ..).symm, ?_, hends⟩
    rw [tokensOf_append, Stage.run_append, hused]
    exact hrun

theorem Tracks.step {token : Token} (h : Tracks last levels mid finish rest x) (hstep : stage.step token = some mid) :
    Tracks last levels stage finish (⟨token, column⟩ :: rest) x :=
  have hone : stage.run (tokensOf [⟨token, column⟩]) = some mid := (Stage.run_singleton stage token).trans hstep
  h.after hone

theorem Tracks.bind {f : Tree × List Placed → Except Fault (Tree × List Placed)}
    (hx : Tracks last levels stage mid ps x)
    (hf : ∀ tree rest, rest.length ≤ ps.length → EndsBefore levels rest →
      Tracks last levels' mid finish rest (f (tree, rest))) :
    Tracks last levels' stage finish ps (x >>= f) := by
  cases x with
  | error fault => exact hx
  | ok result =>
    obtain ⟨tree, rest⟩ := result
    obtain ⟨used, rfl, hrun, hends⟩ := hx
    exact (hf tree rest (by simp) hends).after hrun

theorem Tracks.map (h : Tracks last levels stage finish ps x) (f : Tree → Tree) :
    Tracks last levels stage finish ps (x.map fun (tree, rest) => (f tree, rest)) := by
  cases x with
  | error fault => exact h
  | ok result => exact h

theorem tracks_stuck {token : Token} (hstep : stage.step token = none) (fault : Fault) :
    Tracks last levels stage finish (⟨token, column⟩ :: rest) (.error (fault.locate column)) :=
  have hfirst : ⟨token, column⟩ :: rest = [] ++ ⟨token, column⟩ :: rest := rfl
  .stuck hfirst rfl hstep

theorem tracks_nothing (hends : EndsBefore levels ps) (tree : Tree) :
    Tracks last levels stage stage ps (.ok (tree, ps)) := ⟨[], rfl, rfl, hends⟩

/-- A chain comes back to the stage after an operand with each operand that it takes. -/
theorem chain_tracks {level : Operator → Bool} {item : Reader}
    (hitem : ∀ ps, Tracks last levels stage finish ps (item ps))
    (hstep : ∀ op, level op = true → finish.step (.operator op) = some stage) (bound : Nat) (left : Tree)
    (hbound : ps.length ≤ bound) (hends : EndsBefore levels ps) :
    Tracks last (level :: levels) finish finish ps (chain level item bound left ps) := by
  induction bound generalizing left ps with
  | zero =>
    obtain rfl : ps = [] := List.length_eq_zero_iff.mp (Nat.le_zero.mp hbound)
    exact tracks_nothing (fun level _ => rfl) left
  | succ bound ih =>
    cases hs : startsWith level ps with
    | false =>
      rw [chain_of_not_startsWith hs]
      refine tracks_nothing (fun other hother => ?_) left
      rcases List.mem_cons.mp hother with rfl | hother
      · exact hs
      · exact hends other hother
    | true =>
      obtain ⟨op, column, tail, rfl, hop⟩ := eq_of_startsWith hs
      rw [chain_operator hop]
      refine ((hitem tail).bind fun right rest hrest hends => ?_).step (hstep op hop)
      rw [List.length_cons] at hbound
      exact ih _ (by omega) hends

theorem chainOf_tracks {level : Operator → Bool} {item : Reader}
    (hitem : ∀ ps, Tracks last levels stage finish ps (item ps))
    (hstep : ∀ op, level op = true → finish.step (.operator op) = some stage) (ps : List Placed) :
    Tracks last (level :: levels) stage finish ps (chainOf level item ps) :=
  (hitem ps).bind fun first _ _ hends => chain_tracks hitem hstep _ first (Nat.le_refl _) hends

end

/-- A reader of operands takes each stage in front of one to the stage after it. -/
def Follows (last : Column) (room : Nat) (reader : Reader) : Prop :=
  ∀ level outer ps, Tracks last [] (.operand room level outer) (.operator level outer) ps (reader ps)

theorem Follows.sum {last : Column} {room : Nat} {reader : Reader} (h : Follows last room reader) (outer : List Nat)
    (ps : List Placed) :
    Tracks last [Operator.isSum, Operator.isProduct] (.operand room room outer) (.operator room outer) ps
      (sum reader ps) :=
  chainOf_tracks (chainOf_tracks (h room outer) fun _ _ => rfl) (fun _ _ => rfl) ps

/-- An operator belongs to one level or the other. -/
theorem EndsBefore.ne_operator {p : Placed} {rest : List Placed}
    (h : EndsBefore [Operator.isSum, Operator.isProduct] (p :: rest)) (op : Operator) : p.token ≠ .operator op := by
  obtain ⟨token, column⟩ := p
  rintro rfl
  have hsum : op.isSum = false := h Operator.isSum (by simp)
  have hproduct : op.isProduct = false := h Operator.isProduct (by simp)
  simp [Operator.isSum, hproduct] at hsum

theorem close_tracks (last : Column) (room level : Nat) (outer : List Nat) (tree : Tree) {rest : List Placed}
    (hends : EndsBefore [Operator.isSum, Operator.isProduct] rest) :
    Tracks last [] (.operator room (level :: outer)) (.operator level outer) rest (close last (tree, rest)) := by
  cases rest with
  | nil => exact .incomplete rfl rfl id
  | cons p rest =>
    obtain ⟨token, column⟩ := p
    cases token with
    | closing => exact (tracks_nothing (by simp [EndsBefore]) tree).step rfl
    | operator op => exact absurd rfl (hends.ne_operator op)
    | literal | unknown | opening => exact tracks_stuck rfl _

/-- What there is to read the operands of the next level with: nothing where no level is left. -/
inductive FollowsInner (last : Column) : Nat → Option Reader → Prop
  | none : FollowsInner last 0 none
  | some {room : Nat} {reader : Reader} (h : Follows last room reader) : FollowsInner last (room + 1) (some reader)

theorem operandWithin_follows {last : Column} {inner : Option Reader} {room : Nat}
    (hinner : FollowsInner last room inner) : Follows last room (operandWithin last inner) := by
  intro level outer ps
  unfold operandWithin
  -- No token at all, a literal, the two signs, a parenthesis, and any other token.
  split
  · exact .incomplete rfl rfl id
  · next text column rest =>
    split
    · next value hread =>
      exact (tracks_nothing (by simp [EndsBefore]) _).step (by simp [Stage.step, hread])
    · next hread => exact tracks_stuck (by simp [Stage.step, hread]) _
  · next column rest =>
    cases hinner with
    | none => exact tracks_stuck rfl _
    | some h => exact (h level outer rest).step rfl
  · next column rest =>
    cases hinner with
    | none => exact tracks_stuck rfl _
    | some h => exact ((h level outer rest).map _).step rfl
  · next column rest =>
    cases hinner with
    | none => exact tracks_stuck rfl _
    | @some smaller reader h =>
      have hclose := (h.sum (level :: outer) rest).bind fun tree _ _ hends =>
        close_tracks last smaller level outer tree hends
      exact hclose.step rfl
  · next token column rest hliteral hplus hminus hopening =>
    refine tracks_stuck ?_ _
    cases token with
    | literal text => exact absurd rfl (hliteral text)
    | opening => exact absurd rfl hopening
    | closing | unknown => cases room <;> rfl
    | operator op =>
      have hproduct : op.isSum = false := by
        cases op with
        | plus => exact absurd rfl hplus
        | minus => exact absurd rfl hminus
        | times | divide => rfl
      cases room <;> simp [Stage.step, hproduct]

theorem operand_follows (last : Column) (room : Nat) : Follows last room (operand last room) := by
  induction room with
  | zero => exact operandWithin_follows .none
  | succ room ih => exact operandWithin_follows (.some ih)

end Tree

/-! ### The first token that does not fit -/

/-- Can tokens be followed by others so that all of them together are an expression? -/
def Completable (tokens : List Token) : Prop := ∃ more tree, Tree.ofTokens (tokens ++ more) = .ok tree

/-- The text that tokens make together. -/
def textOf (tokens : List Token) : String := String.join (tokens.map Token.text)

theorem length_textOf_append (ts us : List Token) :
    (textOf (ts ++ us)).length = (textOf ts).length + (textOf us).length := by
  simp [textOf]

namespace Token

/-- Tokens stand in the text of all tokens after the text of those before them. -/
theorem place_append (start : Nat) (ts us : List Token) :
    place start (ts ++ us) = place start ts ++ place (start + (textOf ts).length) us := by
  induction ts generalizing start with
  | nil => simp [place, textOf]
  | cons token ts ih =>
    rw [List.cons_append, place, ih, place]
    simp [textOf, Nat.add_assoc]

theorem length_place (start : Nat) (ts : List Token) : (place start ts).length = ts.length := by
  have htokens := congrArg List.length (Tree.tokensOf_place start ts)
  rwa [List.length_map] at htokens

/-- The column of a token is the place of its text in the text of all tokens. -/
theorem column_of_place {tokens : List Token} {before after : List Placed} {token : Token} {column : Column}
    (h : place 0 tokens = before ++ ⟨token, column⟩ :: after) :
    tokens = Tree.tokensOf before ++ token :: Tree.tokensOf after ∧
      column = ⟨(textOf (Tree.tokensOf before)).length, (textOf (Tree.tokensOf before ++ [token])).length⟩ := by
  have htokens : tokens = Tree.tokensOf before ++ token :: Tree.tokensOf after := by
    rw [← Tree.tokensOf_place 0 tokens, h, Tree.tokensOf_append]
    rfl
  refine ⟨htokens, ?_⟩
  have hparts := place_append 0 (Tree.tokensOf before) (token :: Tree.tokensOf after)
  rw [← htokens, h] at hparts
  have hlength : before.length = (place 0 (Tree.tokensOf before)).length := by
    rw [length_place, List.length_map]
  have hplaced := (List.cons.inj (List.append_inj hparts hlength).2).1
  rw [(Placed.mk.inj hplaced).2, length_textOf_append, Nat.zero_add]
  simp [textOf]

end Token

namespace Tree

/-- A fault is at a token that no stage takes, or at the last token. -/
theorem blames_of_ofTokens {tokens : List Token} {fault : Fault} {last : Placed} (h : ofTokens tokens = .error fault)
    (hlast : (Token.place 0 tokens).getLast? = some last) :
    Blames last.column Stage.start (Token.place 0 tokens) fault.column := by
  have htracks := (operand_follows last.column maxNesting).sum [] (Token.place 0 tokens)
  simp only [ofTokens, hlast] at h
  rcases Outcome.bind_eq_error.mp h with hread | ⟨⟨tree, rest⟩, hread, hrest⟩
  · rw [hread] at htracks
    exact htracks
  · rw [hread] at htracks
    obtain ⟨used, hused, hrun, hends⟩ := htracks
    cases rest with
    | nil => cases hrest
    | cons p rest =>
      obtain ⟨token, column⟩ := p
      cases token with
      | operator op => exact absurd rfl (hends.ne_operator op)
      | literal | unknown | opening | closing =>
        cases hrest
        exact .stuck hused hrun rfl

theorem Blames.not_isFinal {last column : Column} {stage finish : Stage} {ps : List Placed}
    (h : Blames last stage ps column) (hrun : stage.run (tokensOf ps) = some finish) : ¬ finish.IsFinal := by
  cases h with
  | stuck hps hbefore hstep =>
    rw [hps, tokensOf_append, Stage.run_append, hbefore] at hrun
    simp [Stage.run, hstep] at hrun
  | incomplete _ hnext hopen =>
    obtain rfl := Option.some.inj (hnext.symm.trans hrun)
    exact hopen

theorem exists_ofTokens_iff (tokens : List Token) :
    (∃ tree, ofTokens tokens = .ok tree) ↔ ∃ finish, Stage.start.run tokens = some finish ∧ finish.IsFinal := by
  constructor
  · rintro ⟨tree, h⟩
    obtain ⟨last, -, hread⟩ := ofTokens_eq_ok_iff.mp h
    have htracks := (operand_follows last.column maxNesting).sum [] (Token.place 0 tokens)
    rw [hread] at htracks
    obtain ⟨used, hused, hrun, -⟩ := htracks
    rw [List.append_nil] at hused
    rw [← hused, tokensOf_place] at hrun
    exact ⟨_, hrun, trivial⟩
  · rintro ⟨finish, hrun, hfinal⟩
    cases h : ofTokens tokens with
    | ok tree => exact ⟨tree, rfl⟩
    | error fault =>
      cases hlast : (Token.place 0 tokens).getLast? with
      | some last => exact absurd hfinal ((blames_of_ofTokens h hlast).not_isFinal (by rwa [tokensOf_place]))
      | none =>
        have hnil : tokens = [] := by
          rw [← tokensOf_place 0 tokens, List.getLast?_eq_none_iff.mp hlast]
          rfl
        rw [hnil] at hrun
        obtain rfl := Option.some.inj hrun
        exact absurd hfinal id

end Tree

theorem completable_iff (tokens : List Token) :
    Completable tokens ↔ ∃ stage, Stage.start.run tokens = some stage := by
  constructor
  · rintro ⟨more, haccepts⟩
    obtain ⟨finish, hrun, -⟩ := (Tree.exists_ofTokens_iff _).mp haccepts
    rw [Stage.run_append] at hrun
    obtain ⟨stage, hstage, -⟩ := Option.bind_eq_some_iff.mp hrun
    exact ⟨stage, hstage⟩
  · rintro ⟨stage, hstage⟩
    refine ⟨stage.completion, (Tree.exists_ofTokens_iff _).mpr ?_⟩
    rw [Stage.run_append, hstage]
    exact stage.run_completion

end DeskCalculator
