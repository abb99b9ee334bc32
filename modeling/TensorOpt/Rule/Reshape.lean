import TensorOpt.Graph.Operators
import TensorOpt.Pattern.Builder
import TensorOpt.Rule.Basic

namespace TensorOpt.Rule

namespace Reshape

def pattern : Pattern × Label := Pattern.Labelled.build do
  let x ← .wildcard
  let inner ← .call (← .anyOp [Op.reshape, Op.reverseReshape]) [x]
  let outer ← .call (← .anyOp [Op.reshape, Op.reverseReshape]) [inner]
  return (outer, x.label)

def apply (pre post : NodeId) (b : Bindings) : Build RuleError NodeId := do
  match b.first? pattern.2 with
  | none => return post
  | some x =>
    let type ← Rule.checkedType pre
    match type.staticShape? with
    | none => return post
    | some shape => Build.push (.reshape x shape type)

end Reshape

/-- Two reshapes in a row are one reshape to the outer shape, if that is fully known. -/
def reshape : Rule where
  name := "SimplifyReshape"
  pattern := Reshape.pattern.1
  apply := Reshape.apply

end TensorOpt.Rule
