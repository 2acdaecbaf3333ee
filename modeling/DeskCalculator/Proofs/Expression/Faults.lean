import DeskCalculator.Proofs.Expression.Grammar
import DeskCalculator.Proofs.Expression.StackEvaluation

/-! The faults of an evaluation, from the first token to the last result. -/
namespace DeskCalculator

/-- What the evaluation of a text fails with. -/
def expressionFaults : List Fault := Tree.refusals ++ Tree.evaluationFaults

theorem evaluate_fails (text : String) : FailsAs expressionFaults (evaluate text) := by
  apply FailsAs.bind
  · exact (Tree.ofTokens_fails _).mono (List.subset_append_left _ _)
  · intro tree _
    exact tree.evaluate_fails.mono (List.subset_append_right _ _)

end DeskCalculator
