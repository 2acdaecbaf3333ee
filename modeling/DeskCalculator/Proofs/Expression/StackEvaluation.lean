import DeskCalculator.Proofs.Expression.Visitor
/-!
Evaluation on the stack against evaluation by recursion. A node is visited after its operands, and while
the right operand of an operator is visited the value of the left one waits on the stack; `visits` lists
the nodes in this order with the number of values that wait below each. On a tree that needs at most 256
places the two evaluations agree. On every other tree the stack runs full at a leaf, and the answer is the
fault of that leaf unless an operator fails before it.
-/
namespace DeskCalculator.Tree

/-! ### Evaluation by recursion, and the order of visits -/

/-- The greatest number of values that are on the stack at once. -/
def need : Tree → Nat
  | number _ _ => 1
  | negation _ operand => operand.need
  | binary _ _ left right => max left.need (1 + right.need)

/-- The value of a tree, operands first and the left one before the right one; a fault is reported at the
node that raised it. -/
def value : Tree → Except Fault Float
  | number _ value => .ok value
  | negation column operand => do
    let x ← operand.value
    (Arithmetic.negate x).mapError (·.locate column)
  | binary op column left right => do
    let x ← left.value
    let y ← right.value
    (Arithmetic.apply op x y).mapError (·.locate column)

/-- The nodes in post-order, each with the number of values that wait on the stack below its own, when
`waiting` values wait below the whole tree. -/
def visits (waiting : Nat) : Tree → List (Tree × Nat)
  | number column value => [(number column value, waiting)]
  | negation column operand => visits waiting operand ++ [(negation column operand, waiting)]
  | binary op column left right =>
    visits waiting left ++ visits (waiting + 1) right ++ [(binary op column left right, waiting)]

def faultOf {α : Type} : Except Fault α → Option Fault
  | .ok _ => none
  | .error fault => some fault

/-- The fault that a node itself raises on the values of its operands, at its own column. A node whose
operands have no value raises none. -/
def ownFault : Tree → Option Fault
  | number _ _ => none
  | negation column operand =>
    match operand.value with
    | .ok x => faultOf ((Arithmetic.negate x).mapError (·.locate column))
    | .error _ => none
  | binary op column left right =>
    match left.value, right.value with
    | .ok x, .ok y => faultOf ((Arithmetic.apply op x y).mapError (·.locate column))
    | _, _ => none

def visitFault (visit : Tree × Nat) : Option Fault :=
  visit.1.ownFault <|>
    if visit.2 < Stack.capacity then none else some (Fault.tooComplex.locate visit.1.column)

theorem ownFault_column {t : Tree} {fault : Fault} (h : t.ownFault = some fault) :
    fault.column = t.column := by
  have hlocated {x : Except Fault Float} {column : Column}
      (h : faultOf (x.mapError (·.locate column)) = some fault) : fault.column = column := by
    cases x with
    | ok x => simp [faultOf] at h
    | error e =>
      obtain rfl : e.locate column = fault := by simpa [faultOf] using h
      rfl
  cases t with
  | number column value => simp [ownFault] at h
  | negation column operand =>
    rw [ownFault] at h
    split at h
    · exact hlocated h
    · simp at h
  | binary op column left right =>
    rw [ownFault] at h
    split at h
    · exact hlocated h
    · simp at h

theorem findSome?_ownFault (t : Tree) (waiting : Nat) :
    (t.visits waiting).findSome? (ownFault ·.1) = faultOf t.value := by
  induction t generalizing waiting with
  | number column value => rfl
  | negation column operand ih =>
    rw [visits, List.findSome?_append, ih, value]
    cases h : operand.value with
    | error fault => rfl
    | ok x => simp [faultOf, ownFault, h]
  | binary op column left right ihl ihr =>
    rw [visits, List.findSome?_append, List.findSome?_append, ihl, ihr, value]
    cases hl : left.value with
    | error fault => rfl
    | ok x =>
      cases hr : right.value with
      | error fault => rfl
      | ok y => simp [faultOf, ownFault, hl, hr]

/-! ### The stack follows the order of visits -/

/-- `Leaves result s fault? value`: the machine either failed with the given fault, or, if there is none,
ended with the value on top of what was on the stack `s` before. -/
def Leaves (result : Except Fault (Stack Float)) (s : Stack Float) (fault? : Option Fault)
    (value : Except Fault Float) : Prop :=
  match fault? with
  | some fault => result = .error fault
  | none => ∃ x, value = .ok x ∧ result = .ok { s with items := x :: s.items }

theorem pushAt_of_room {s : Stack Float} (h : s.size < Stack.capacity) (column : Column) (x : Float) :
    pushAt column s x = .ok { s with items := x :: s.items } := by
  have hpushed : s.items.length + 1 ≤ Stack.capacity := h
  simp [pushAt, Stack.push, Stack.size, hpushed]

theorem pushAt_of_full {s : Stack Float} (hs : s.overflowDetail = Fault.tooComplex.detail)
    (h : ¬ s.size < Stack.capacity) (column : Column) (x : Float) :
    pushAt column s x = .error (Fault.tooComplex.locate column) := by
  have hpushed : ¬ s.items.length + 1 ≤ Stack.capacity := h
  have hfault : Fault.invalid s.overflowDetail = Fault.tooComplex := by rw [hs]; rfl
  simp [pushAt, Stack.push, Stack.size, hpushed, hfault]

theorem pushAt_leaves {s : Stack Float} (hs : s.overflowDetail = Fault.tooComplex.detail)
    (column : Column) (result : Except Fault Float) :
    Leaves (result >>= pushAt column s) s
      (faultOf result <|>
        if s.size < Stack.capacity then none else some (Fault.tooComplex.locate column)) result := by
  cases result with
  | error fault => rfl
  | ok x =>
    by_cases hsize : s.size < Stack.capacity
    · simp only [faultOf, hsize, if_true]
      exact ⟨x, rfl, pushAt_of_room hsize column x⟩
    · simp only [faultOf, hsize, if_false]
      exact pushAt_of_full hs hsize column x

/-- A visit ends as the list of visits says, whatever was on the stack before. The induction is on the
tree: the left value waits below the visits of the right operand, and when the node itself is visited
the stack is as it was before, with the operands' values on top. -/
theorem visit_leaves (t : Tree) (s : Stack Float) (hs : s.overflowDetail = Fault.tooComplex.detail) :
    Leaves (t.visit s) s ((t.visits s.size).findSome? visitFault) t.value := by
  induction t generalizing s with
  | number column x =>
    simpa [visits, visitFault, ownFault, faultOf, visit, value, Tree.column] using
      pushAt_leaves hs column (.ok x)
  | negation column operand ih =>
    have h := ih s hs
    rw [visits, List.findSome?_append]
    cases hf : (operand.visits s.size).findSome? visitFault with
    | some fault =>
      rw [hf] at h
      have hvisit : operand.visit s = .error fault := h
      simp [Leaves, visit, hvisit]
    | none =>
      rw [hf] at h
      obtain ⟨x, hvalue, hvisit⟩ := h
      have hlast := pushAt_leaves hs column ((Arithmetic.negate x).mapError (·.locate column))
      simpa [visit, hvisit, Stack.pop, visitFault, ownFault, hvalue, value, Tree.column] using hlast
  | binary op column left right ihl ihr =>
    have hl := ihl s hs
    rw [visits, List.findSome?_append, List.findSome?_append]
    cases hfl : (left.visits s.size).findSome? visitFault with
    | some fault =>
      rw [hfl] at hl
      have hvisit : left.visit s = .error fault := hl
      simp [Leaves, visit, hvisit]
    | none =>
      rw [hfl] at hl
      obtain ⟨x, hx, hvisitl⟩ := hl
      have hr := ihr { s with items := x :: s.items } hs
      have hsize : ({ s with items := x :: s.items } : Stack Float).size = s.size + 1 := rfl
      rw [hsize] at hr
      cases hfr : (right.visits (s.size + 1)).findSome? visitFault with
      | some fault =>
        rw [hfr] at hr
        have hvisit : right.visit { s with items := x :: s.items } = .error fault := hr
        simp [Leaves, visit, hvisitl, hvisit]
      | none =>
        rw [hfr] at hr
        obtain ⟨y, hy, hvisitr⟩ := hr
        have hlast := pushAt_leaves hs column ((Arithmetic.apply op x y).mapError (·.locate column))
        simpa [visit, hvisitl, hvisitr, Stack.popTwo, visitFault, ownFault, hx, hy, value,
          Tree.column] using hlast

/-! ### Heights of the stack -/

theorem need_pos (t : Tree) : 0 < t.need := by
  induction t with
  | number column x => exact Nat.one_pos
  | negation column operand ih => exact ih
  | binary op column left right ihl ihr =>
    rw [need]
    omega

theorem lt_of_mem_root {node : Tree} {waiting : Nat} {visit : Tree × Nat}
    (h : visit ∈ [(node, waiting)]) : visit.2 < waiting + node.need := by
  obtain rfl := List.mem_singleton.mp h
  exact Nat.lt_add_of_pos_right node.need_pos

theorem lt_of_mem_visits {t : Tree} {waiting : Nat} {visit : Tree × Nat}
    (h : visit ∈ t.visits waiting) : visit.2 < waiting + t.need := by
  induction t generalizing waiting with
  | number column x => exact lt_of_mem_root h
  | negation column operand ih =>
    rcases List.mem_append.mp h with h | h
    · exact ih h
    · exact lt_of_mem_root h
  | binary op column left right ihl ihr =>
    rcases List.mem_append.mp h with h | h
    · rw [need]
      rcases List.mem_append.mp h with h | h
      · have := ihl h
        omega
      · have := ihr h
        omega
    · exact lt_of_mem_root h

/-- A tree that needs more places than there are fills the stack at a leaf: it is the first visit that
finds the stack full. The induction descends into the operand in which that happens first. -/
theorem exists_overflowing_leaf (t : Tree) (waiting : Nat) (hwaiting : waiting ≤ Stack.capacity)
    (hneed : Stack.capacity < waiting + t.need) :
    ∃ before column x after,
      t.visits waiting = before ++ (number column x, Stack.capacity) :: after ∧
        ∀ visit ∈ before, visit.2 < Stack.capacity := by
  induction t generalizing waiting with
  | number column x =>
    obtain rfl : waiting = Stack.capacity := by
      rw [need] at hneed
      omega
    exact ⟨[], column, x, [], rfl, by simp⟩
  | negation column operand ih =>
    obtain ⟨before, c, x, after, hvisits, hbefore⟩ := ih waiting hwaiting hneed
    exact ⟨before, c, x, after ++ [(negation column operand, waiting)],
      by simp [visits, hvisits], hbefore⟩
  | binary op column left right ihl ihr =>
    rw [need] at hneed
    by_cases hleft : Stack.capacity < waiting + left.need
    · obtain ⟨before, c, x, after, hvisits, hbefore⟩ := ihl waiting hwaiting hleft
      exact ⟨before, c, x, after ++ right.visits (waiting + 1) ++ [(binary op column left right, waiting)],
        by simp [visits, hvisits], hbefore⟩
    · have hpos := left.need_pos
      obtain ⟨before, c, x, after, hvisits, hbefore⟩ :=
        ihr (waiting + 1) (by omega) (by omega)
      refine ⟨left.visits waiting ++ before, c, x, after ++ [(binary op column left right, waiting)],
        by simp [visits, hvisits], fun visit hvisit => ?_⟩
      rcases List.mem_append.mp hvisit with hvisit | hvisit
      · have := lt_of_mem_visits hvisit
        omega
      · exact hbefore visit hvisit

theorem findSome?_visitFault {visits : List (Tree × Nat)}
    (h : ∀ visit ∈ visits, visit.2 < Stack.capacity) :
    visits.findSome? visitFault = visits.findSome? (ownFault ·.1) := by
  induction visits with
  | nil => rfl
  | cons visit visits ih =>
    have hvisit : visitFault visit = visit.1.ownFault := by
      simp [visitFault, h visit List.mem_cons_self]
    rw [List.findSome?_cons, List.findSome?_cons, hvisit,
      ih fun v hv => h v (List.mem_cons_of_mem _ hv)]

/-! ### The two evaluations -/

abbrev startingStack : Stack Float := Stack.empty Fault.tooComplex.detail

theorem visit_startingStack (t : Tree) :
    Leaves (t.visit startingStack) startingStack ((t.visits 0).findSome? visitFault) t.value :=
  visit_leaves t startingStack rfl

theorem evaluate_of_visitFault {t : Tree} {fault : Fault}
    (h : (t.visits 0).findSome? visitFault = some fault) : t.evaluate = .error fault := by
  have hvisit := visit_startingStack t
  rw [h] at hvisit
  have hvisit : t.visit startingStack = .error fault := hvisit
  rw [evaluate, hvisit, Outcome.error_bind]

theorem evaluate_of_no_visitFault {t : Tree} (h : (t.visits 0).findSome? visitFault = none) :
    t.evaluate = t.value >>= Arithmetic.finite := by
  have hvisit := visit_startingStack t
  rw [h] at hvisit
  obtain ⟨x, hvalue, hvisit⟩ := hvisit
  rw [evaluate, hvisit, hvalue]
  rfl

theorem evaluate_of_need_le {t : Tree} (hneed : t.need ≤ 256) :
    t.evaluate = t.value >>= Arithmetic.finite := by
  have hroom : ∀ visit ∈ t.visits 0, visit.2 < Stack.capacity := by
    intro visit hmem
    have hlt := lt_of_mem_visits hmem
    have hcapacity : Stack.capacity = 256 := rfl
    omega
  have hfaults := findSome?_visitFault hroom
  rw [findSome?_ownFault] at hfaults
  cases hvalue : t.value with
  | error fault =>
    rw [hvalue] at hfaults
    exact evaluate_of_visitFault hfaults
  | ok x =>
    rw [hvalue] at hfaults
    rw [evaluate_of_no_visitFault hfaults, hvalue]

/-- The stack runs full at a leaf, and no node before it finds the stack full. -/
theorem evaluate_of_lt_need {t : Tree} (hneed : 256 < t.need) :
    ∃ before column x after, t.visits 0 = before ++ (number column x, 256) :: after ∧
      (∀ visit ∈ before, visit.2 < 256) ∧
      t.evaluate = .error ((before.findSome? (ownFault ·.1)).getD (Fault.tooComplex.locate column)) := by
  obtain ⟨before, column, x, after, hvisits, hbefore⟩ :=
    exists_overflowing_leaf t 0 (Nat.zero_le _) (by rw [Nat.zero_add]; exact hneed)
  refine ⟨before, column, x, after, hvisits, hbefore, evaluate_of_visitFault ?_⟩
  -- The leaf has no fault of its own, and what it finds on the stack is too much.
  have hleaf : visitFault (number column x, Stack.capacity) = some (Fault.tooComplex.locate column) := rfl
  rw [hvisits, List.findSome?_append, findSome?_visitFault hbefore, List.findSome?_cons, hleaf]
  cases before.findSome? (ownFault ·.1) <;> rfl

/-! ### Faults -/

/-- What an evaluation fails with. -/
def evaluationFaults : List Fault := [Fault.tooComplex, Fault.notANumber, Fault.overflow, Fault.divisionByZero]

theorem finite_fails (x : Float) : FailsAs evaluationFaults (Arithmetic.finite x) := by
  unfold Arithmetic.finite
  split
  · exact .error (by decide)
  · split
    · exact .error (by decide)
    · exact .ok x

theorem apply_fails (op : Operator) (x y : Float) : FailsAs evaluationFaults (Arithmetic.apply op x y) := by
  cases op with
  | plus | minus | times => exact finite_fails _
  | divide =>
    change FailsAs evaluationFaults (Arithmetic.divide x y)
    unfold Arithmetic.divide
    split
    · exact .error (by decide)
    · exact finite_fails _

theorem value_fails (t : Tree) : FailsAs evaluationFaults t.value := by
  induction t with
  | number column x => exact .ok x
  | negation column operand ih => exact ih.bind fun x _ => .ok (-x)
  | binary op column left right ihl ihr =>
    exact ihl.bind fun x _ => ihr.bind fun y _ => (apply_fails op x y).relocated column

theorem ownFault_isOneOf {t : Tree} {fault : Fault} (h : t.ownFault = some fault) :
    fault.IsOneOf evaluationFaults := by
  have hfails {x : Except Fault Float} (hx : FailsAs evaluationFaults x) (h : faultOf x = some fault) :
      fault.IsOneOf evaluationFaults := by
    cases x with
    | ok x => cases h
    | error e => exact hx fault (congrArg _ (Option.some.inj h))
  cases t with
  | number column x => cases h
  | negation column operand =>
    rw [ownFault] at h
    split at h
    · exact hfails (.relocated (.ok _) column) h
    · cases h
  | binary op column left right =>
    rw [ownFault] at h
    split at h
    · exact hfails ((apply_fails op _ _).relocated column) h
    · cases h

theorem visitFault_isOneOf {visits : List (Tree × Nat)} {fault : Fault}
    (h : visits.findSome? visitFault = some fault) : fault.IsOneOf evaluationFaults := by
  obtain ⟨visit, _, hvisit⟩ := List.exists_of_findSome?_eq_some h
  rw [visitFault] at hvisit
  cases hown : visit.1.ownFault with
  | some own =>
    obtain rfl : own = fault := by simpa [hown] using hvisit
    exact ownFault_isOneOf hown
  | none =>
    obtain ⟨_, rfl⟩ : ¬ visit.2 < Stack.capacity ∧ Fault.tooComplex.locate visit.1.column = fault := by
      simpa [hown] using hvisit
    exact ⟨Fault.tooComplex, by decide, _, rfl⟩

theorem visitFault_detail {visits : List (Tree × Nat)} {fault : Fault}
    (h : visits.findSome? visitFault = some fault) : fault.detail ≠ Fault.missingOperand.detail :=
  (visitFault_isOneOf h).elim (P := fun _ detail => detail ≠ Fault.missingOperand.detail) (by decide)

theorem evaluate_fails (t : Tree) : FailsAs evaluationFaults t.evaluate := by
  cases hvisits : (t.visits 0).findSome? visitFault with
  | some first =>
    rw [evaluate_of_visitFault hvisits]
    intro fault h
    obtain rfl := Except.error.inj h
    exact visitFault_isOneOf hvisits
  | none =>
    rw [evaluate_of_no_visitFault hvisits]
    exact (value_fails t).bind fun x _ => finite_fails x

end DeskCalculator.Tree

namespace DeskCalculator

/-- Evaluation on the stack, against evaluation by recursion. A tree that needs at most 256 places on
the stack has the value that recursion gives, or the fault of the first node in post-order that raises
one, at that node's column. A tree that needs more is refused with the first fault before the leaf that
finds 256 values on the stack, or else as too complex at that leaf. Either way no operand is ever missing,
and what the visits leave on the empty stack is the value alone. A visitor that keeps the first fault and does
nothing after it comes to the same. -/
theorem evaluate_on_stack (t : Tree) :
    (t.need ≤ 256 → t.evaluate = t.value >>= Arithmetic.finite) ∧
    (∀ fault, t.value = .error fault ↔ (t.visits 0).findSome? (Tree.ownFault ·.1) = some fault) ∧
    (∀ node fault, Tree.ownFault node = some fault → fault.column = node.column) ∧
    (256 < t.need → ∃ before column x after,
      t.visits 0 = before ++ (.number column x, 256) :: after ∧
      (∀ visit ∈ before, visit.2 < 256) ∧
      t.evaluate = .error
        ((before.findSome? (Tree.ownFault ·.1)).getD (Fault.tooComplex.locate column))) ∧
    (∀ fault, t.visit Tree.startingStack = .error fault →
      fault.detail ≠ Fault.missingOperand.detail) ∧
    (∀ stack, t.visit Tree.startingStack = .ok stack →
      ∃ x, t.value = .ok x ∧ stack.pop = (.ok x, Tree.startingStack)) ∧
    Visitor.evaluate t = t.evaluate := by
  have hvisit := Tree.visit_startingStack t
  refine ⟨?_, ?_, fun _ _ => Tree.ownFault_column, ?_, ?_, ?_, Visitor.evaluate_eq t⟩
  · exact Tree.evaluate_of_need_le
  · intro fault
    rw [Tree.findSome?_ownFault]
    cases t.value <;> simp [Tree.faultOf]
  · exact Tree.evaluate_of_lt_need
  · intro fault h
    cases hfault : (t.visits 0).findSome? Tree.visitFault with
    | none =>
      rw [hfault] at hvisit
      obtain ⟨x, _, hok⟩ := hvisit
      simp [hok] at h
    | some first =>
      rw [hfault] at hvisit
      have hvisit : t.visit Tree.startingStack = .error first := hvisit
      obtain rfl : first = fault := by simpa [hvisit] using h
      exact Tree.visitFault_detail hfault
  · intro stack h
    cases hfault : (t.visits 0).findSome? Tree.visitFault with
    | none =>
      rw [hfault] at hvisit
      obtain ⟨x, hvalue, hok⟩ := hvisit
      obtain rfl := Except.ok.inj (h.symm.trans hok)
      exact ⟨x, hvalue, rfl⟩
    | some first =>
      rw [hfault] at hvisit
      have hvisit : t.visit Tree.startingStack = .error first := hvisit
      simp [hvisit] at h

end DeskCalculator
