import DeskCalculator.Expression.Visitor
import DeskCalculator.Proofs.Outcome

/-! A visitor does what the visits of a tree by recursion do. After a fault it is taken through the rest of the tree,
and comes out of it as it went in; before one it has the stack of the visits, so that the first fault is theirs too. -/
namespace DeskCalculator

namespace Visitor

/-- How a visit has ended: with a stack, or with the fault that is kept. -/
def outcome (visitor : Visitor) : Except Fault (Stack Float) :=
  match visitor.fault with
  | some fault => .error fault
  | none => .ok visitor.stack

/-! ### After a fault -/

theorem visit_of_fault {visitor : Visitor} (h : visitor.fault.isSome = true) (node : Tree) :
    visitor.visit node = visitor := if_pos h

/-- A fault silences all the nodes that come after it. -/
theorem accept_of_fault {visitor : Visitor} (h : visitor.fault.isSome = true) (tree : Tree) :
    visitor.accept tree = visitor := by
  induction tree with
  | number column value => exact visit_of_fault h _
  | negation column operand ih => rw [accept, ih, visit_of_fault h]
  | binary op column left right ihl ihr => rw [accept, ihl, ihr, visit_of_fault h]

/-! ### Before a fault -/

/-- How work at a column ends. -/
def Work.ends (work : Work Unit) (column : Column) (stack : Stack Float) : Except Fault (Stack Float) :=
  match work stack with
  | .ok _ left => .ok left
  | .error fault _ => .error (fault.locate column)

section
variable {α : Type} (stack : Stack Float) (column : Column)

theorem ends_push (value : Float) :
    Work.ends (onStack (·.push value)) column stack = Tree.pushAt column stack value := by
  rw [Work.ends, onStack, Tree.pushAt]
  rcases stack.push value with ⟨_ | _, left⟩ <;> rfl

theorem ends_onStack_bind (operation : Stack Float → Except Fault α × Stack Float) (rest : α → Work Unit) :
    (onStack operation >>= rest).ends column stack =
      (operation stack).1.mapError (·.locate column) >>= fun a => (rest a).ends column (operation stack).2 := by
  simp only [Work.ends, bind, EStateM.bind, onStack]
  rcases operation stack with ⟨_ | a, left⟩ <;> rfl

theorem ends_lift_bind (x : Except Fault α) (rest : α → Work Unit) :
    (liftExcept x >>= rest : Work Unit).ends column stack =
      x.mapError (·.locate column) >>= fun a => (rest a).ends column stack := by
  cases x <;> rfl

theorem outcome_visit (node : Tree) : (visit ⟨stack, none⟩ node).outcome = (compute node).ends node.column stack := by
  rw [visit, Work.ends]
  dsimp only [Option.isSome]
  cases compute node stack <;> rfl

theorem outcome_visit_number (value : Float) :
    (visit ⟨stack, none⟩ (.number column value)).outcome = Tree.pushAt column stack value := by
  rw [outcome_visit]
  exact ends_push stack column value

theorem outcome_visit_negation (operand : Tree) :
    (visit ⟨stack, none⟩ (.negation column operand)).outcome = (do
      let value ← (stack.pop.1 >>= Arithmetic.negate).mapError (·.locate column)
      Tree.pushAt column stack.pop.2 value) := by
  rw [outcome_visit, compute, Outcome.reworded_bind, bind_assoc]
  simp only [ends_onStack_bind, ends_lift_bind, ends_push]
  rfl

theorem outcome_visit_binary (op : Operator) (left right : Tree) :
    (visit ⟨stack, none⟩ (.binary op column left right)).outcome = (do
      let value ← (stack.popTwo.1 >>= fun (x, y) => Arithmetic.apply op x y).mapError (·.locate column)
      Tree.pushAt column stack.popTwo.2 value) := by
  rw [outcome_visit, compute, Outcome.reworded_bind, bind_assoc]
  simp only [ends_onStack_bind, ends_lift_bind, ends_push]
  rfl

end

/-- What a fault silences goes on, without one, from the stack that it finds. -/
theorem outcome_next {next : Visitor → Visitor} {rest : Stack Float → Except Fault (Stack Float)}
    (hsilent : ∀ {visitor : Visitor}, visitor.fault.isSome = true → next visitor = visitor)
    (hrest : ∀ stack, (next ⟨stack, none⟩).outcome = rest stack) (visitor : Visitor) :
    (next visitor).outcome = visitor.outcome >>= rest := by
  rcases visitor with ⟨stack, _ | fault⟩
  · exact hrest stack
  · rw [hsilent rfl]
    rfl

theorem outcome_accept (stack : Stack Float) (tree : Tree) : (accept ⟨stack, none⟩ tree).outcome = tree.visit stack := by
  induction tree generalizing stack with
  | number column value => exact outcome_visit_number stack column value
  | negation column operand ih =>
    rw [accept, Tree.visit, ← ih]
    exact outcome_next (visit_of_fault · _) (outcome_visit_negation · column operand) _
  | binary op column left right ihl ihr =>
    -- the right operand, and after it the node, go on from the stack that was left for them
    have hnode := outcome_next (visit_of_fault · _) (outcome_visit_binary · column op left right)
    rw [accept, Tree.visit, ← ihl, hnode, outcome_next (accept_of_fault · right) (ihr ·), bind_assoc]

theorem evaluate_eq (tree : Tree) : evaluate tree = tree.evaluate := by
  rw [evaluate, Tree.evaluate, ← outcome_accept]
  rcases accept ⟨Stack.empty Fault.tooComplex.detail, none⟩ tree with ⟨stack, _ | fault⟩ <;> rfl

end Visitor

end DeskCalculator
