import DeskCalculator.Expression.Evaluation
/-!
Evaluation by a visitor, which comes to the nodes of a tree operands first. It keeps its stack and the
first fault; with a fault it goes on through the tree and does nothing.
-/
namespace DeskCalculator

structure Visitor where
  stack : Stack Float
  fault : Option Fault := none

namespace Visitor

/-- Work on the stack, which stays as it was left where the work fails. -/
abbrev Work := EStateM Fault (Stack Float)

def onStack {α : Type} (operation : Stack Float → Except Fault α × Stack Float) : Work α := fun stack =>
  match operation stack with
  | (.ok value, stack) => .ok value stack
  | (.error fault, stack) => .error fault stack

/-- Puts the value of a node in the place of those of its operands. -/
def compute (node : Tree) : Work Unit := do
  let value ← match node with
    | .number _ value => pure value
    | .negation _ _ => do
      let x ← onStack Stack.pop
      liftExcept (Arithmetic.negate x)
    | .binary op _ _ _ => do
      let (x, y) ← onStack Stack.popTwo
      liftExcept (Arithmetic.apply op x y)
  onStack (·.push value)

def visit (visitor : Visitor) (node : Tree) : Visitor :=
  if visitor.fault.isSome then visitor
  else
    match compute node visitor.stack with
    | .ok _ stack => ⟨stack, none⟩
    | .error fault stack => ⟨stack, some (fault.locate node.column)⟩

/-- A node takes a visitor to its operands, and then to itself. -/
def accept (visitor : Visitor) : Tree → Visitor
  | .number column value => visitor.visit (.number column value)
  | .negation column operand => (visitor.accept operand).visit (.negation column operand)
  | .binary op column left right =>
    ((visitor.accept left).accept right).visit (.binary op column left right)

def evaluate (tree : Tree) : Except Fault Float :=
  let visitor := accept ⟨Stack.empty Fault.tooComplex.detail, none⟩ tree
  match visitor.fault with
  | some fault => .error fault
  | none => do Arithmetic.finite (← visitor.stack.pop.1)

end Visitor

end DeskCalculator
