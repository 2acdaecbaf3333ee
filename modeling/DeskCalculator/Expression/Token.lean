import DeskCalculator.Fault
/-!
Tokens of arithmetic: operators, parentheses, literals, and runs of characters that mean nothing here.
The texts of the tokens of a text, put together, are that text.
-/
namespace DeskCalculator

inductive Operator where
  | plus
  | minus
  | times
  | divide
deriving DecidableEq, Repr, Inhabited

namespace Operator

def symbol : Operator → Char
  | plus => '+'
  | minus => '-'
  | times => '*'
  | divide => '/'

def ofChar? : Char → Option Operator
  | '+' => some plus
  | '-' => some minus
  | '*' => some times
  | '/' => some divide
  | _ => none

/-- Products bind tighter than sums. -/
def isProduct : Operator → Bool
  | times | divide => true
  | plus | minus => false

def isSum (op : Operator) : Bool := !op.isProduct

theorem ofChar?_symbol (op : Operator) : ofChar? op.symbol = some op := by cases op <;> rfl

end Operator

/-- A token: a run of digits and points, a run of foreign characters, or one character of its own. -/
inductive Token where
  | literal (text : String)
  | unknown (text : String)
  | operator (op : Operator)
  | opening
  | closing
deriving DecidableEq, Repr, Inhabited

namespace Token

def text : Token → String
  | literal text | unknown text => text
  | operator op => op.symbol.toString
  | opening => "("
  | closing => ")"

def ofChar? : Char → Option Token
  | '(' => some opening
  | ')' => some closing
  | c => (Operator.ofChar? c).map operator

def isLiteralChar (c : Char) : Bool := c.isDigit || c == '.'

def isExpressionChar (c : Char) : Bool := isLiteralChar c || (ofChar? c).isSome

def isForeignChar (c : Char) : Bool := !isExpressionChar c

/-- Puts a character before a list of tokens: it joins a run of its own class that the list starts
with, and is a token of its own otherwise. -/
def join (c : Char) (tokens : List Token) : List Token :=
  if isLiteralChar c then
    match tokens with
    | literal text :: rest => literal (c.toString ++ text) :: rest
    | _ => literal c.toString :: tokens
  else
    match ofChar? c with
    | some token => token :: tokens
    | none =>
      match tokens with
      | unknown text :: rest => unknown (c.toString ++ text) :: rest
      | _ => unknown c.toString :: tokens

/-- The tokens of a text; runs are as long as they can be. -/
def lex (text : String) : List Token := text.toList.foldr join []

/-- The token that a text with a first character starts with, and the text after it. A run goes on as long as the
character looked at next belongs to it. -/
def cutFront (c : Char) (rest : List Char) : Token × List Char :=
  if isLiteralChar c then
    (literal (String.ofList (c :: rest.takeWhile isLiteralChar)), rest.dropWhile isLiteralChar)
  else
    match ofChar? c with
    | some token => (token, rest)
    | none =>
      (unknown (String.ofList (c :: rest.takeWhile isForeignChar)), rest.dropWhile isForeignChar)

theorem length_cutFront_le (c : Char) (rest : List Char) : (cutFront c rest).2.length ≤ rest.length := by
  unfold cutFront
  split
  · exact (List.dropWhile_sublist _).length_le
  · split
    · exact Nat.le_refl _
    · exact (List.dropWhile_sublist _).length_le

/-- Cuts a text token by token from its front. -/
def munch : List Char → List Token
  | [] => []
  | c :: rest => (cutFront c rest).1 :: munch (cutFront c rest).2
termination_by cs => cs.length
decreasing_by exact Nat.lt_succ_of_le (length_cutFront_le c rest)

def sanitize (text : String) : String := String.ofList (text.toList.filter isExpressionChar)

structure Placed where
  token : Token
  column : Column
deriving DecidableEq, Repr

/-- Gives each token its place in the text that the tokens make together, which starts at `start`. -/
def place (start : Nat) : List Token → List Placed
  | [] => []
  | token :: rest =>
    let stop := start + token.text.length
    ⟨token, ⟨start, stop⟩⟩ :: place stop rest

end Token

end DeskCalculator
