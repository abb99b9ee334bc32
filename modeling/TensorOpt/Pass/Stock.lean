import TensorOpt.Graph.Operators
import TensorOpt.Pass.Basic

namespace TensorOpt.Pass

inductive Action
  /-- Gives each untyped node the type of its first argument. -/
  | infer
  /-- Gives the root a type, if there is one to give. -/
  | assign (type? : Option TensorType)
  /-- Negates the root. -/
  | wrap (type? : Option TensorType)
  /-- Goes to the first argument of the root. -/
  | firstArg
  | identity
  | fail

namespace Action

def assignType (e : NodeId) (t : TensorType) : Build PassError Unit := do
  set (← Build.ask fun g ↦ (g.assignType e t).mapError .graph)

def inferNode (pass : String) (e : NodeId) : Build PassError Unit := do
  let g ← get
  if (g.type? e).isSome then return
  match g.args e with
  | [] => throw (.host pass ("cannot infer a type for " ++ NodeId.render e))
  | a :: _ => assignType e (← Build.ask fun g ↦ (g.checkedType a).mapError .graph)

def perform (pass : String) (root : NodeId) : Action → Build PassError NodeId
  | infer => do
    ((← get).postOrder root).forM (inferNode pass)
    return root
  | assign none => return root
  | assign (some t) => do
    assignType root t
    return root
  | wrap type? => Build.push (.call Op.negative [root] [] type?)
  | firstArg => return ((← get).args root).headD root
  | identity => return root
  | fail => throw (.host pass "refused")

end Action

def stock (name : String) (level : UInt8) (required : List String) (action : Action) : Pass where
  name
  level
  required
  run root := action.perform name root

end TensorOpt.Pass
