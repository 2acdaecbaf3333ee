import DeskCalculator.Expression.Token
import DeskCalculator.Number.Numeral
/-!
Expression trees, and the tree that a list of tokens spells:

  sum     := product (('+' | '-') product)*
  product := operand (('*' | '/') operand)*
  operand := ('+' | '-') operand | literal | '(' sum ')'

Operators of one level group to the left. Signs and parentheses may nest 128 deep. A text that is no
sum is refused at the first token that does not fit, or at its last token if it is only incomplete.
-/
namespace DeskCalculator

inductive Tree where
  | number (column : Column) (value : Float)
  | negation (column : Column) (operand : Tree)
  | binary (op : Operator) (column : Column) (left right : Tree)
deriving DecidableEq, Inhabited

namespace Tree

open Token (Placed)

def column : Tree → Column
  | number column _ => column
  | negation column _ => column
  | binary _ column _ _ => column

/-- Reads an expression from the front of a list of tokens and returns the rest. -/
abbrev Reader := List Placed → Except Fault (Tree × List Placed)

def maxNesting : Nat := 128

/-- Reads on after `left` while the operators are of the level: each takes one more operand, and
what was read so far becomes its left one. The first argument bounds the number of operators. -/
def chain (level : Operator → Bool) (operand : Reader) : Nat → Tree → Reader
  | bound + 1, left, ⟨.operator op, column⟩ :: rest =>
    if level op then do
      let (right, rest) ← operand rest
      chain level operand bound (binary op column left right) rest
    else .ok (left, ⟨.operator op, column⟩ :: rest)
  | _, left, rest => .ok (left, rest)

def chainOf (level : Operator → Bool) (operand : Reader) : Reader := fun tokens => do
  let (first, rest) ← operand tokens
  chain level operand rest.length first rest

def product (operand : Reader) : Reader := chainOf Operator.isProduct operand

def sum (operand : Reader) : Reader := chainOf Operator.isSum (product operand)

def close (last : Column) : Tree × List Placed → Except Fault (Tree × List Placed)
  | (tree, ⟨.closing, _⟩ :: rest) => .ok (tree, rest)
  | (_, ⟨_, column⟩ :: _) => .error (Fault.unbalancedParenthesis.locate column)
  | (_, []) => .error (Fault.unbalancedParenthesis.locate last)

/-- One operand, where `inner` reads the operands nested one level deeper, if there is room for
them, and `last` is the place of the last token of the input. -/
def operandWithin (last : Column) (inner : Option Reader) : Reader
  | [] => .error (Fault.expectedExpression.locate last)
  | ⟨.literal text, column⟩ :: rest =>
    match Numeral.read? text with
    | some value => .ok (number column value, rest)
    | none => .error (Fault.malformedNumber.locate column)
  | ⟨.operator .plus, column⟩ :: rest =>
    match inner with
    | some operand => operand rest
    | none => .error (Fault.tooComplex.locate column)
  | ⟨.operator .minus, column⟩ :: rest =>
    match inner with
    | some operand => (operand rest).map fun (tree, rest) => (negation column tree, rest)
    | none => .error (Fault.tooComplex.locate column)
  | ⟨.opening, column⟩ :: rest =>
    match inner with
    | some operand => sum operand rest >>= close last
    | none => .error (Fault.tooComplex.locate column)
  | ⟨_, column⟩ :: _ => .error (Fault.expectedExpression.locate column)

def operand (last : Column) : (room : Nat) → Reader
  | 0 => operandWithin last none
  | room + 1 => operandWithin last (some (operand last room))

def ofTokens (tokens : List Token) : Except Fault Tree :=
  let placed := Token.place 0 tokens
  match placed.getLast? with
  | none => .error Fault.emptyExpression
  | some last => do
    match ← sum (operand last.column maxNesting) placed with
    | (tree, []) => .ok tree
    | (_, ⟨.closing, column⟩ :: _) => .error (Fault.unbalancedParenthesis.locate column)
    | (_, ⟨_, column⟩ :: _) => .error (Fault.unexpectedToken.locate column)

end Tree

end DeskCalculator
