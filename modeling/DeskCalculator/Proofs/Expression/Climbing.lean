import DeskCalculator.Expression.Climbing
import DeskCalculator.Proofs.Expression.Stages

/-! A reader of expressions that climbs by the precedence of operators over a stream of tokens. It looks one token
ahead, and knows no other place than the column of the last token that came from the stream, whether that token was
consumed or only looked at. Its outcomes are those of the reader of trees, so that this one column is the right one
wherever it fails. -/
namespace DeskCalculator
open Token (Placed)

namespace TokenStream

/-! ### What is ahead of a stream -/

/-- The tokens that are not yet consumed, each at its place. -/
def ahead (s : TokenStream) : List Placed :=
  match s.peeked with
  | some token => ⟨token, s.column⟩ :: Token.place s.column.stop s.tokens
  | none => Token.place s.column.stop s.tokens

/-- The place of the last token of all. -/
def last (s : TokenStream) : Column := (s.ahead.getLast?.map Placed.column).getD s.column

variable {s : TokenStream} {token : Token} {column : Column} {rest : List Placed}

theorem last_of_nil (h : s.ahead = []) : s.last = s.column := by
  rw [last, h]
  rfl

theorem next_of_nil (h : s.ahead = []) : s.next = (none, s) := by
  obtain ⟨tokens, peeked, column⟩ := s
  cases peeked with
  | some token => cases h
  | none =>
    cases tokens with
    | nil => rfl
    | cons token tokens => cases h

theorem next_of_cons (h : s.ahead = ⟨token, column⟩ :: rest) :
    ∃ after, s.next = (some token, after) ∧ after.column = column ∧ after.ahead = rest ∧ after.last = s.last := by
  have hlast {after : TokenStream} (hcolumn : after.column = column) (hahead : after.ahead = rest) :
      after.last = s.last := by
    rw [last, last, h, hahead, hcolumn]
    cases rest with
    | nil => rfl
    | cons p rest => rfl
  obtain ⟨tokens, peeked, start⟩ := s
  cases peeked with
  | some token' =>
    obtain ⟨hplaced, hrest⟩ := List.cons.inj h
    obtain ⟨rfl, rfl⟩ := Placed.mk.inj hplaced
    exact ⟨{ tokens, column := start }, rfl, rfl, hrest, hlast rfl hrest⟩
  | none =>
    cases tokens with
    | nil => cases h
    | cons token' tokens =>
      obtain ⟨hplaced, hrest⟩ := List.cons.inj h
      obtain ⟨rfl, rfl⟩ := Placed.mk.inj hplaced
      exact ⟨{ tokens, column := ⟨start.stop, start.stop + token'.text.length⟩ }, rfl, rfl, hrest, hlast rfl hrest⟩

theorem peek_of_nil (h : s.ahead = []) : s.peek = s ∧ s.peeked = none := by
  obtain ⟨tokens, peeked, column⟩ := s
  cases peeked with
  | some token => cases h
  | none =>
    cases tokens with
    | nil => exact ⟨rfl, rfl⟩
    | cons token tokens => cases h

/-- Looking at a token moves the column to it, and it is still ahead. -/
theorem peek_of_cons (h : s.ahead = ⟨token, column⟩ :: rest) :
    s.peek.peeked = some token ∧ s.peek.column = column ∧ s.peek.ahead = ⟨token, column⟩ :: rest ∧
      s.peek.last = s.last := by
  have hlast {after : TokenStream} (hahead : after.ahead = ⟨token, column⟩ :: rest) : after.last = s.last := by
    rw [last, last, h, hahead]
    rfl
  obtain ⟨tokens, peeked, start⟩ := s
  cases peeked with
  | some token' =>
    obtain ⟨rfl, rfl⟩ := Placed.mk.inj (List.cons.inj h).1
    exact ⟨rfl, rfl, h, rfl⟩
  | none =>
    cases tokens with
    | nil => cases h
    | cons token' tokens =>
      obtain ⟨rfl, rfl⟩ := Placed.mk.inj (List.cons.inj h).1
      exact ⟨rfl, rfl, h, hlast h⟩

end TokenStream

namespace Tree
open TokenStream (precedence)

/-! ### Readers by precedence -/

/-- The reader of the expressions whose operators have at least a precedence. -/
def readerAt (item : Reader) (least : Nat) : Reader :=
  if least ≤ 10 then sum item else if least ≤ 20 then product item else item

/-- Reads on after the first operand of such an expression. -/
def restAt (item : Reader) (least : Nat) (left : Tree) : Reader := fun ps =>
  if least ≤ 10 then
    chain Operator.isProduct item ps.length left ps >>= fun (left, rest) =>
      chain Operator.isSum (product item) rest.length left rest
  else if least ≤ 20 then chain Operator.isProduct item ps.length left ps
  else .ok (left, ps)

theorem readerAt_eq (item : Reader) (least : Nat) (ps : List Placed) :
    readerAt item least ps = item ps >>= fun (first, rest) => restAt item least first rest := by
  unfold readerAt restAt
  split
  · rw [sum, chainOf, product, chainOf]
    cases item ps <;> rfl
  · split
    · rfl
    · cases item ps <;> rfl

/-- The number of operators in a chain is bounded by the tokens that are left, whatever the bound says. -/
theorem chain_congr {level : Operator → Bool} {item : Reader} {accepts : List Token → Shape → Prop}
    (hitem : Sound item accepts) {bound bound' : Nat} {ps : List Placed} (h : ps.length ≤ bound)
    (h' : ps.length ≤ bound') (left : Tree) :
    chain level item bound left ps = chain level item bound' left ps := by
  induction bound generalizing bound' left ps with
  | zero =>
    obtain rfl : ps = [] := List.length_eq_zero_iff.mp (Nat.le_zero.mp h)
    have hends : startsWith level [] = false := rfl
    rw [chain_of_not_startsWith hends, chain_of_not_startsWith hends]
  | succ bound ih =>
    cases hs : startsWith level ps with
    | false => rw [chain_of_not_startsWith hs, chain_of_not_startsWith hs]
    | true =>
      obtain ⟨op, column, tail, rfl, hop⟩ := eq_of_startsWith hs
      -- the operator takes a token and its operand gives none back, so that both bounds can go down
      rw [List.length_cons] at h h'
      obtain ⟨bound', rfl⟩ := Nat.exists_eq_add_one_of_ne_zero (by omega : bound' ≠ 0)
      rw [chain_operator hop, chain_operator hop]
      cases hread : item tail with
      | error fault => rfl
      | ok result =>
        obtain ⟨right, rest⟩ := result
        obtain ⟨used, rfl, -⟩ := hitem _ _ _ hread
        rw [List.length_append] at h h'
        exact ih (by omega) (by omega) _

section
variable {item : Reader} {accepts accepts' : List Token → Shape → Prop} {least : Nat} {left : Tree} {ps : List Placed}

theorem precedence_of_isProduct {op : Operator} (hop : op.isProduct = true) : precedence op = 20 := by
  rcases (Operator.isProduct_iff op).mp hop with rfl | rfl <;> rfl

theorem precedence_of_isSum {op : Operator} (hop : op.isSum = true) : precedence op = 10 := by
  rcases (Operator.isSum_iff op).mp hop with rfl | rfl <;> rfl

theorem restAt_of_ends (h : ∀ op column rest, ps = ⟨.operator op, column⟩ :: rest → precedence op < least) :
    restAt item least left ps = .ok (left, ps) := by
  have hends {level : Operator → Bool} (hlevel : ∀ op, level op = true → least ≤ precedence op) :
      startsWith level ps = false := by
    rw [Bool.eq_false_iff]
    intro hs
    obtain ⟨op, column, rest, rfl, hop⟩ := eq_of_startsWith hs
    exact Nat.not_lt.mpr (hlevel op hop) (h op column rest rfl)
  have hproduct (hleast : least ≤ 20) : startsWith Operator.isProduct ps = false := by
    refine hends fun op hop => ?_
    rw [precedence_of_isProduct hop]
    exact hleast
  unfold restAt
  split
  · next hleast =>
    have hsum : startsWith Operator.isSum ps = false := by
      refine hends fun op hop => ?_
      rw [precedence_of_isSum hop]
      exact hleast
    rw [chain_of_not_startsWith (hproduct (by omega)), Outcome.ok_bind]
    exact chain_of_not_startsWith hsum ..
  · split
    · next hleast => exact chain_of_not_startsWith (hproduct hleast) ..
    · rfl

/-- After an operator comes an expression that binds tighter, and then the rest. -/
theorem restAt_operator (hitem : Sound item accepts) (hproduct : Sound (product item) accepts')
    (hends : ∀ ps tree rest, product item ps = .ok (tree, rest) → startsWith Operator.isProduct rest = false)
    {op : Operator} (hop : least ≤ precedence op) (column : Column) (rest : List Placed) :
    restAt item least left (⟨.operator op, column⟩ :: rest)
      = readerAt item (precedence op + 1) rest >>= fun (right, rest) =>
          restAt item least (.binary op column left right) rest := by
  -- the bound of a chain after an operator, which is one for the tokens that are left then
  have hchain {level : Operator → Bool} {item : Reader} {accepts : List Token → Shape → Prop}
      (hitem : Sound item accepts) (hlevel : level op = true) (left : Tree) :
      chain level item (rest.length + 1) left (⟨.operator op, column⟩ :: rest)
        = item rest >>= fun (right, rest) => chain level item rest.length (.binary op column left right) rest := by
    rw [chain_operator hlevel]
    cases hread : item rest with
    | error fault => rfl
    | ok result =>
      obtain ⟨right, after⟩ := result
      obtain ⟨used, rfl, -⟩ := hitem _ _ _ hread
      exact chain_congr hitem (by simp) (Nat.le_refl _) _
  by_cases htight : op.isProduct = true
  · rw [precedence_of_isProduct htight] at hop ⊢
    have hreader : readerAt item (20 + 1) rest = item rest := rfl
    rw [hreader]
    unfold restAt
    split
    · rw [List.length_cons, hchain hitem htight]
      cases item rest <;> rfl
    · rw [List.length_cons]
      exact hchain hitem htight left
  · have hsum : op.isSum = true := by simpa [Operator.isSum] using htight
    rw [precedence_of_isSum hsum] at hop ⊢
    have hreader : readerAt item (10 + 1) rest = product item rest := rfl
    have hnone : startsWith Operator.isProduct (⟨.operator op, column⟩ :: rest) = false := by
      simpa [startsWith] using htight
    rw [hreader]
    unfold restAt
    simp only [if_pos hop, chain_of_not_startsWith hnone, Outcome.ok_bind, List.length_cons, hchain hproduct hsum]
    cases hread : product item rest with
    | error fault => rfl
    | ok result =>
      obtain ⟨right, after⟩ := result
      simp only [Outcome.ok_bind, chain_of_not_startsWith (hends _ _ _ hread)]

end

theorem length_le_of_readerAt {last : Column} {room least : Nat} {ps rest : List Placed} {tree : Tree}
    (h : readerAt (operand last room) least ps = .ok (tree, rest)) : rest.length ≤ ps.length := by
  have hshrinks {reader : Reader} {accepts : List Token → Shape → Prop} (hreader : Sound reader accepts)
      (hread : reader ps = .ok (tree, rest)) : rest.length ≤ ps.length := by
    obtain ⟨used, rfl, -⟩ := hreader _ _ _ hread
    simp
  have hitem := operand_sound last room
  unfold readerAt at h
  split at h
  · exact hshrinks (sum_sound hitem) h
  · split at h
    · exact hshrinks (product_sound hitem) h
    · exact hshrinks hitem h

/-- After a product no operator of a product follows. -/
theorem product_ends {last : Column} {room : Nat} {ps rest : List Placed} {tree : Tree}
    (h : product (operand last room) ps = .ok (tree, rest)) : startsWith Operator.isProduct rest = false := by
  have hstep : ∀ op, Operator.isProduct op = true →
      (Stage.operator room []).step (.operator op) = some (.operand room room []) := fun _ _ => rfl
  have htracks := chainOf_tracks (operand_follows last room room []) hstep ps
  rw [← product, h] at htracks
  obtain ⟨used, -, -, hends⟩ := htracks
  exact hends Operator.isProduct (by simp)

end Tree

namespace TokenStream

/-! ### Climbing gives the outcomes of the reader -/

/-- A stream and a reader come to the same tree with the same tokens ahead, or to the same fault, which the reader
puts where the stream is. -/
def Agrees (last : Column) : Climb → Except Fault (Tree × List Placed) → Prop
  | .ok (tree, s), .ok (tree', rest) => tree = tree' ∧ s.ahead = rest ∧ s.last = last
  | .error (fault, s), .error fault' => fault.locate s.column = fault'
  | _, _ => False

section
variable {last : Column} {x : Climb} {y : Except Fault (Tree × List Placed)}

theorem Agrees.bind {f : Tree × TokenStream → Climb} {g : Tree × List Placed → Except Fault (Tree × List Placed)}
    (h : Agrees last x y)
    (hf : ∀ tree s, y = .ok (tree, s.ahead) → s.last = last → Agrees last (f (tree, s)) (g (tree, s.ahead))) :
    Agrees last (x >>= f) (y >>= g) := by
  cases x with
  | error left =>
    cases y with
    | error fault => exact h
    | ok result => exact h.elim
  | ok result =>
    cases y with
    | error fault => exact h.elim
    | ok result' =>
      obtain ⟨tree, s⟩ := result
      obtain ⟨tree', rest⟩ := result'
      obtain ⟨rfl, rfl, hlast⟩ := h
      exact hf tree s rfl hlast

theorem Agrees.map (h : Agrees last x y) (f : Tree → Tree) :
    Agrees last (x.map fun (tree, s) => (f tree, s)) (y.map fun (tree, rest) => (f tree, rest)) := by
  cases x with
  | error left =>
    cases y with
    | error fault => exact h
    | ok result => exact h.elim
  | ok result =>
    cases y with
    | error fault => exact h.elim
    | ok result' =>
      obtain ⟨tree, s⟩ := result
      obtain ⟨tree', rest⟩ := result'
      obtain ⟨rfl, hahead, hlast⟩ := h
      exact ⟨rfl, hahead, hlast⟩

end

/-- With fuel for an expression, it is read as by the reader with the room that is left at its depth. There is enough
if there are two units for each token, one to start an expression there and one to take an operand. -/
def ClimbsWith (fuel : Nat) : Prop :=
  ∀ room depth least (s : TokenStream), depth + room = Tree.maxNesting → 2 * s.ahead.length + 2 ≤ fuel →
    Agrees s.last (climb fuel depth least s) (Tree.readerAt (Tree.operand s.last room) least s.ahead)

def ClimbsOnWith (fuel : Nat) : Prop :=
  ∀ room depth least left (s : TokenStream), depth + room = Tree.maxNesting → 2 * s.ahead.length + 1 ≤ fuel →
    Agrees s.last (climbOn fuel depth least left s) (Tree.restAt (Tree.operand s.last room) least left s.ahead)

def TakesPrimaryWith (fuel : Nat) : Prop :=
  ∀ room depth (s : TokenStream), depth + room = Tree.maxNesting → 2 * s.ahead.length + 1 ≤ fuel →
    Agrees s.last (primary fuel (depth + 1) s) (Tree.operand s.last room s.ahead)

theorem climb_too_deep (fuel : Nat) {depth : Nat} (hdepth : Tree.maxNesting < depth) (least : Nat) (s : TokenStream) :
    climb fuel depth least s = .error (Fault.tooComplex, s) := by
  cases fuel with
  | zero => rw [climb]
  | succ fuel => rw [climb, if_pos hdepth]

/-- The closing parenthesis is the next token, or the stream comes to where it should have been. -/
theorem agrees_close (tree : Tree) (s : TokenStream) :
    Agrees s.last
      (match s.next with
        | (some .closing, s) => .ok (tree, s)
        | (_, s) => .error (Fault.unbalancedParenthesis, s))
      (Tree.close s.last (tree, s.ahead)) := by
  cases hahead : s.ahead with
  | nil =>
    rw [next_of_nil hahead, last_of_nil hahead]
    rfl
  | cons p rest =>
    obtain ⟨token, column⟩ := p
    obtain ⟨after, hnext, rfl, hafter, hlast⟩ := next_of_cons hahead
    rw [hnext]
    cases token with
    | closing => exact ⟨rfl, hafter, hlast⟩
    | literal | unknown | operator | opening => rfl

variable {fuel : Nat}

theorem climbsWith_succ (hprimary : TakesPrimaryWith fuel) (hon : ClimbsOnWith fuel) : ClimbsWith (fuel + 1) := by
  intro room depth least s hdepth hfuel
  rw [climb, if_neg (by omega), Tree.readerAt_eq]
  -- an operand takes up tokens, each of which is worth two units of the fuel
  refine (hprimary room depth s hdepth (by omega)).bind fun left after hread hlast => ?_
  obtain ⟨used, hused, -⟩ := Tree.operand_sound _ _ _ _ _ hread
  have hlength := congrArg List.length hused
  rw [List.length_append] at hlength
  have hagrees := hon room depth least left after hdepth (by omega)
  rwa [hlast] at hagrees

theorem climbsOnWith_succ (hclimb : ClimbsWith fuel) (hon : ClimbsOnWith fuel) : ClimbsOnWith (fuel + 1) := by
  intro room depth least left s hdepth hfuel
  rw [climbOn]
  cases hahead : s.ahead with
  | nil =>
    obtain ⟨hpeek, hpeeked⟩ := peek_of_nil hahead
    rw [hpeek, hpeeked, Tree.restAt_of_ends (by simp)]
    exact ⟨rfl, hahead, rfl⟩
  | cons p rest =>
    obtain ⟨token, column⟩ := p
    obtain ⟨hpeeked, hcolumn, hpeek, hlast⟩ := peek_of_cons hahead
    rw [hahead, List.length_cons] at hfuel
    cases token with
    | literal | unknown | opening | closing =>
      rw [hpeeked, Tree.restAt_of_ends (by simp)]
      exact ⟨rfl, hpeek, hlast⟩
    | operator op =>
      rw [hpeeked]
      by_cases hop : precedence op < least
      · rw [Tree.restAt_of_ends (by simp [hop])]
        simp only [if_pos hop]
        exact ⟨rfl, hpeek, hlast⟩
      · -- the operator had been looked at, so that the column is still its own once it is consumed
        obtain ⟨after, hnext, hcolumn', hafter, hlast'⟩ := next_of_cons hpeek
        rw [hlast] at hlast'
        have hitem := Tree.operand_sound s.last room
        rw [Tree.restAt_operator hitem (Tree.product_sound hitem) (fun _ _ _ => Tree.product_ends)
          (Nat.not_lt.mp hop)]
        simp only [if_neg hop, hnext, hcolumn']
        have hright := hclimb room depth (precedence op + 1) after hdepth (by rw [hafter]; omega)
        rw [hafter, hlast'] at hright
        refine hright.bind fun right after' hread hlast'' => ?_
        have hlength := Tree.length_le_of_readerAt hread
        have hleft := hon room depth least (.binary op column left right) after' hdepth (by omega)
        rwa [hlast''] at hleft

theorem takesPrimaryWith_succ (hclimb : ClimbsWith fuel) : TakesPrimaryWith (fuel + 1) := by
  intro room depth s hdepth hfuel
  rw [primary]
  cases hahead : s.ahead with
  | nil =>
    rw [next_of_nil hahead]
    have hoperand : Tree.operand s.last room [] = .error (Fault.expectedExpression.locate s.last) := by
      cases room <;> rfl
    rw [hoperand, last_of_nil hahead]
    rfl
  | cons p rest =>
    obtain ⟨token, column⟩ := p
    obtain ⟨after, hnext, rfl, rfl, hlast⟩ := next_of_cons hahead
    rw [hahead, List.length_cons] at hfuel
    rw [hnext, ← hlast]
    cases token with
    | literal text =>
      cases hread : Numeral.read? text with
      | none => cases room <;> simp [Tree.operand, Tree.operandWithin, hread, Agrees]
      | some value => cases room <;> simp [Tree.operand, Tree.operandWithin, hread, Agrees]
    | unknown | closing => cases room <;> rfl
    | opening =>
      -- without room the next level is refused before it takes a token, with the column at this one
      cases room with
      | zero =>
        simp only [climb_too_deep fuel (by omega : Tree.maxNesting < depth + 1)]
        rfl
      | succ room =>
        have hinner := hclimb room (depth + 1) 0 after (by omega) (by omega)
        exact hinner.bind fun tree s _ hlast' => hlast' ▸ agrees_close tree s
    | operator op =>
      cases op with
      | times | divide => cases room <;> rfl
      | plus =>
        cases room with
        | zero =>
          simp only [climb_too_deep fuel (by omega : Tree.maxNesting < depth + 1)]
          rfl
        | succ room => exact hclimb room (depth + 1) unaryPrecedence after (by omega) (by omega)
      | minus =>
        cases room with
        | zero =>
          simp only [climb_too_deep fuel (by omega : Tree.maxNesting < depth + 1)]
          rfl
        | succ room => exact (hclimb room (depth + 1) unaryPrecedence after (by omega) (by omega)).map _

theorem climbs (fuel : Nat) : ClimbsWith fuel ∧ ClimbsOnWith fuel ∧ TakesPrimaryWith fuel := by
  induction fuel with
  | zero =>
    refine ⟨?_, ?_, ?_⟩
    · intro room depth least s _ hfuel
      omega
    · intro room depth least left s _ hfuel
      omega
    · intro room depth s _ hfuel
      omega
  | succ fuel ih =>
    obtain ⟨hclimb, hon, hprimary⟩ := ih
    exact ⟨climbsWith_succ hprimary hon, climbsOnWith_succ hclimb hon, takesPrimaryWith_succ hclimb⟩

/-- What is left is looked for at the same place. -/
theorem Agrees.settle_eq {last : Placed} {x : Climb} {tokens : List Token}
    (hlast : (Token.place 0 tokens).getLast? = some last)
    (h : Agrees last.column x (Tree.sum (Tree.operand last.column Tree.maxNesting) (Token.place 0 tokens))) :
    settle x = Tree.ofTokens tokens := by
  simp only [Tree.ofTokens, hlast]
  cases hread : Tree.sum (Tree.operand last.column Tree.maxNesting) (Token.place 0 tokens) with
  | error fault =>
    cases x with
    | ok result => exact (hread ▸ h).elim
    | error left =>
      rw [hread] at h
      exact congrArg Except.error h
  | ok result =>
    cases x with
    | error left => exact (hread ▸ h).elim
    | ok result' =>
      obtain ⟨tree, rest⟩ := result
      obtain ⟨tree', s⟩ := result'
      rw [hread] at h
      obtain ⟨rfl, rfl, -⟩ := h
      -- both ask for the next token, and refuse it in the same words
      cases hahead : s.ahead with
      | nil =>
        rw [settle, next_of_nil hahead]
        rfl
      | cons p rest =>
        obtain ⟨token, column⟩ := p
        obtain ⟨after, hnext, rfl, -, -⟩ := next_of_cons hahead
        rw [settle, hnext]
        cases token <;> rfl

/-- With fuel for its tokens, a text is read as by the reader of trees, and refused with the same fault at the same
column. -/
theorem parse_eq {fuel : Nat} {tokens : List Token} (hfuel : 2 * tokens.length + 2 ≤ fuel) :
    parse fuel tokens = Tree.ofTokens tokens := by
  cases hplaced : Token.place 0 tokens with
  | nil =>
    have hahead : ({ tokens } : TokenStream).ahead = [] := hplaced
    obtain ⟨hpeek, hpeeked⟩ := peek_of_nil hahead
    simp [parse, hpeek, hpeeked, Tree.ofTokens, hplaced]
  | cons p rest =>
    have hahead : ({ tokens } : TokenStream).ahead = ⟨p.token, p.column⟩ :: rest := hplaced
    obtain ⟨hpeeked, -, hpeek, hlast⟩ := peek_of_cons hahead
    have hlength : rest.length + 1 = tokens.length := by
      rw [← Token.length_place 0 tokens, hplaced, List.length_cons]
    rw [parse, hpeeked, if_neg (by simp)]
    -- the stream has looked at its first token, and the tokens ahead of it are still all of them
    generalize ({ tokens } : TokenStream).peek = s at hpeek hlast
    have hagrees := (climbs fuel).1 Tree.maxNesting 0 0 s (Nat.zero_add _) (by rw [hpeek, List.length_cons]; omega)
    have hend : (Token.place 0 tokens).getLast? = some ((p :: rest).getLast (by simp)) := by
      rw [hplaced, List.getLast?_eq_some_getLast]
    have hcolumn : s.last = ((p :: rest).getLast (by simp)).column := by
      rw [last, hpeek, List.getLast?_eq_some_getLast (by simp)]
      rfl
    have hahead : s.ahead = Token.place 0 tokens := hpeek.trans hplaced.symm
    rw [hcolumn, hahead] at hagrees
    exact hagrees.settle_eq hend

end TokenStream

/-- A list of tokens that is no expression is refused at the first token with which no expression starts, or at its
last token if it is only incomplete; a list of no tokens is refused at no place. A reader that climbs over the tokens
refuses it there too, with the one column that it has for all its faults. -/
theorem refused_at_first_offending {tokens : List Token} {fault : Fault} (h : Tree.ofTokens tokens = .error fault) :
    (∀ fuel, 2 * tokens.length + 2 ≤ fuel → TokenStream.parse fuel tokens = .error fault) ∧
    ((tokens = [] ∧ fault.column = Column.nowhere) ∨
      ∃ before token after, tokens = before ++ token :: after ∧
        fault.column = ⟨(textOf before).length, (textOf (before ++ [token])).length⟩ ∧ Completable before ∧
        (¬ Completable (before ++ [token]) ∨ after = [] ∧ Completable tokens)) := by
  refine ⟨fun fuel hfuel => (TokenStream.parse_eq hfuel).trans h, ?_⟩
  cases hlast : (Token.place 0 tokens).getLast? with
  | none =>
    obtain rfl : tokens = [] := by
      rw [← Tree.tokensOf_place 0 tokens, List.getLast?_eq_none_iff.mp hlast]
      rfl
    obtain rfl : Fault.emptyExpression = fault := Except.error.inj h
    exact Or.inl ⟨rfl, rfl⟩
  | some last =>
    right
    cases Tree.blames_of_ofTokens h hlast with
    | @stuck before after token stage hps hrun hstep =>
      -- the run of the stages gets to the token and not past it
      obtain ⟨htokens, hcolumn⟩ := Token.column_of_place hps
      refine ⟨_, token, _, htokens, hcolumn, (completable_iff _).mpr ⟨stage, hrun⟩, Or.inl fun hmore => ?_⟩
      obtain ⟨next, hnext⟩ := (completable_iff _).mp hmore
      rw [Stage.run_append, hrun] at hnext
      simp [Stage.run, hstep] at hnext
    | @incomplete stage hcolumn hrun hopen =>
      -- it gets past all of them, and the last one takes the blame
      obtain ⟨before, hplaced⟩ := List.getLast?_eq_some_iff.mp hlast
      obtain ⟨htokens, hplace⟩ := Token.column_of_place hplaced
      rw [Tree.tokensOf_place] at hrun
      have hbefore := hrun
      rw [htokens, Stage.run_append] at hbefore
      obtain ⟨stage', hstage, -⟩ := Option.bind_eq_some_iff.mp hbefore
      exact ⟨_, last.token, [], htokens, hcolumn.trans hplace, (completable_iff _).mpr ⟨stage', hstage⟩,
        Or.inr ⟨rfl, (completable_iff _).mpr ⟨stage, hrun⟩⟩⟩

/-- A parenthesis that closes nothing is where `2)` goes wrong. -/
theorem refused_at_unopened_parenthesis :
    Tree.ofTokens [.literal "2", .closing] = .error (Fault.unbalancedParenthesis.locate ⟨1, 2⟩) ∧
      ∃ before token after, [.literal "2", .closing] = before ++ token :: after ∧
        (⟨1, 2⟩ : Column) = ⟨(textOf before).length, (textOf (before ++ [token])).length⟩ ∧ Completable before ∧
        (¬ Completable (before ++ [token]) ∨ after = [] ∧ Completable [.literal "2", .closing]) := by
  have hrefused : Tree.ofTokens [.literal "2", .closing] = .error (Fault.unbalancedParenthesis.locate ⟨1, 2⟩) := rfl
  exact ⟨hrefused, (refused_at_first_offending hrefused).2.resolve_left (by simp)⟩

end DeskCalculator
