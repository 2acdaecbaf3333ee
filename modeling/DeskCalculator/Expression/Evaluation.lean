import DeskCalculator.Expression.Arithmetic
import DeskCalculator.Expression.Stack
import DeskCalculator.Expression.Tree
/-!
Evaluation of expressions on a stack of 256 operands. The nodes of a tree are visited operands first,
left to right, and the first fault ends the evaluation; it is reported at the node that raised it.
-/
namespace DeskCalculator

namespace Tree

def pushAt (column : Column) (stack : Stack Float) (value : Float) : Except Fault (Stack Float) :=
  let (pushed, stack) := stack.push value
  (pushed.map fun _ => stack).mapError (·.locate column)

/-- The stack after a tree was visited: the value of the tree is on top of what was there. -/
def visit : Tree → Stack Float → Except Fault (Stack Float)
  | number column value, stack => pushAt column stack value
  | negation column operand, stack => do
    let stack ← visit operand stack
    let (popped, stack) := stack.pop
    let value ← (popped >>= Arithmetic.negate).mapError (·.locate column)
    pushAt column stack value
  | binary op column left right, stack => do
    let stack ← visit left stack
    let stack ← visit right stack
    let (popped, stack) := stack.popTwo
    let value ← (popped >>= fun (x, y) => Arithmetic.apply op x y).mapError (·.locate column)
    pushAt column stack value

def evaluate (tree : Tree) : Except Fault Float := do
  let stack ← tree.visit (Stack.empty Fault.tooComplex.detail)
  Arithmetic.finite (← stack.pop.1)

end Tree

def evaluate (text : String) : Except Fault Float := do
  (← Tree.ofTokens (Token.lex (Token.sanitize text))).evaluate

end DeskCalculator
