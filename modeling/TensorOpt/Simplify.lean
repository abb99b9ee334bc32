import TensorOpt.Rule.Engine
import TensorOpt.Rule.Fill
import TensorOpt.Rule.Reshape
import TensorOpt.Rule.Transpose

namespace TensorOpt

def RuleSet.standard (rounds : Nat) : RuleSet := ⟨[.reshape, .transpose, .fill], rounds⟩

theorem RuleSet.forall_standard {P : Rule → Prop} {rounds : Nat} :
    (∀ r ∈ (standard rounds).rules, P r) ↔ P .reshape ∧ P .transpose ∧ P .fill := by
  simp [standard]

/-- Simplifies the expression at `root`, all of which must be typed. -/
def simplify (rounds : Nat) (root : NodeId) : Build RuleError NodeId := do
  match (← get).untyped? root with
  | some e => throw (.untyped e)
  | none => (RuleSet.standard rounds).runOn root

end TensorOpt
