import DeskCalculator.Fault
/-!
Stacks of bounded height. A push beyond the bound is a fault, but the value is on the stack all the
same; a pop from an empty stack is a fault too.
-/
namespace DeskCalculator

structure Stack (α : Type) where
  overflowDetail : String
  items : List α
deriving DecidableEq, Repr

namespace Stack

variable {α : Type}

def capacity : Nat := 256

def empty (overflowDetail : String) : Stack α := ⟨overflowDetail, []⟩

def size (s : Stack α) : Nat := s.items.length

def isEmpty (s : Stack α) : Bool := s.items.isEmpty

/-- Puts a value on top; whether the stack is too high now is checked afterwards. -/
def push (s : Stack α) (value : α) : Except Fault Unit × Stack α :=
  let s := { s with items := value :: s.items }
  (if s.size ≤ capacity then .ok () else .error (Fault.invalid s.overflowDetail), s)

def pop (s : Stack α) : Except Fault α × Stack α :=
  match s.items with
  | [] => (.error Fault.missingOperand, s)
  | value :: rest => (.ok value, { s with items := rest })

/-- Takes the two top values off; the lower one is the first of the pair. A lone value is lost. -/
def popTwo (s : Stack α) : Except Fault (α × α) × Stack α :=
  match s.items with
  | second :: first :: rest => (.ok (first, second), { s with items := rest })
  | _ => (.error Fault.missingOperand, { s with items := [] })

def inspect (render : α → String) (s : Stack α) : String :=
  "[" ++ ", ".intercalate (s.items.reverse.map render) ++ "]"

end Stack

end DeskCalculator
