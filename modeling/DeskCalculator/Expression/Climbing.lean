import DeskCalculator.Expression.Tree
/-!
Reading an expression by climbing: a stream of tokens is read with one token looked at ahead, and operators
are taken as long as they bind at least as tightly as their surroundings.
-/
namespace DeskCalculator

/-- A stream of tokens with one of them looked at, and the column of the last one that came from it. -/
structure TokenStream where
  tokens : List Token
  peeked : Option Token := none
  column : Column := Column.nowhere

namespace TokenStream

def next (s : TokenStream) : Option Token × TokenStream :=
  match s.peeked, s.tokens with
  | some token, _ => (some token, { s with peeked := none })
  | none, [] => (none, s)
  | none, token :: rest =>
    (some token, { tokens := rest, column := ⟨s.column.stop, s.column.stop + token.text.length⟩ })

def peek (s : TokenStream) : TokenStream :=
  match s.peeked with
  | some _ => s
  | none => { s.next.2 with peeked := s.next.1 }

def precedence : Operator → Nat
  | .plus | .minus => 10
  | .times | .divide => 20

def unaryPrecedence : Nat := 30

/-- A fault comes with the stream as it was left. -/
abbrev Climb := Except (Fault × TokenStream) (Tree × TokenStream)

mutual

/-- Reads an expression whose operators have at least a precedence, `depth` levels deep. Where the fuel is out it is
taken to be too complex. -/
def climb : (fuel depth least : Nat) → TokenStream → Climb
  | 0, _, _, s => .error (Fault.tooComplex, s)
  | fuel + 1, depth, least, s =>
    if Tree.maxNesting < depth then .error (Fault.tooComplex, s)
    else do
      let (left, s) ← primary fuel (depth + 1) s
      climbOn fuel depth least left s

/-- Goes on after a left operand as long as the operators have at least the precedence. -/
def climbOn : (fuel depth least : Nat) → Tree → TokenStream → Climb
  | 0, _, _, _, s => .error (Fault.tooComplex, s)
  | fuel + 1, depth, least, left, s =>
    let s := s.peek
    match s.peeked with
    | some (.operator op) =>
      -- an operator that binds less tightly is left there, with the column at it
      if precedence op < least then .ok (left, s)
      else do
        let s := s.next.2
        let (right, after) ← climb fuel depth (precedence op + 1) s
        climbOn fuel depth least (.binary op s.column left right) after
    | _ => .ok (left, s)

/-- Reads an operand, and expressions within it at the given depth. -/
def primary : (fuel depth : Nat) → TokenStream → Climb
  | 0, _, s => .error (Fault.tooComplex, s)
  | fuel + 1, depth, s =>
    match s.next with
    | (some .opening, s) => do
      let (tree, s) ← climb fuel depth 0 s
      match s.next with
      | (some .closing, s) => .ok (tree, s)
      | (_, s) => .error (Fault.unbalancedParenthesis, s)
    | (some (.operator .minus), s) =>
      (climb fuel depth unaryPrecedence s).map fun (tree, after) => (.negation s.column tree, after)
    | (some (.operator .plus), s) => climb fuel depth unaryPrecedence s
    | (some (.literal text), s) =>
      match Numeral.read? text with
      | some value => .ok (.number s.column value, s)
      | none => .error (Fault.malformedNumber, s)
    | (_, s) => .error (Fault.expectedExpression, s)

end

/-- A fault is put at the column that the stream has come to, and so is a token that is left. -/
def settle : Climb → Except Fault Tree
  | .error (fault, s) => .error (fault.locate s.column)
  | .ok (tree, s) =>
    match s.next with
    | (none, _) => .ok tree
    | (some .closing, s) => .error (Fault.unbalancedParenthesis.locate s.column)
    | (some _, s) => .error (Fault.unexpectedToken.locate s.column)

/-- Reads all the tokens, given enough fuel for them. -/
def parse (fuel : Nat) (tokens : List Token) : Except Fault Tree :=
  let s := ({ tokens } : TokenStream).peek
  if s.peeked = none then .error Fault.emptyExpression else settle (climb fuel 0 0 s)

end TokenStream

end DeskCalculator
