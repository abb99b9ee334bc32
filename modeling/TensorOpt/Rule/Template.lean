import TensorOpt.Rule.Basic

namespace TensorOpt

inductive Template
  | pre
  | post
  /-- Gives up. -/
  | fail
  /-- The node bound under the label for the `nth` time, or `post` if there is none. -/
  | bound (label : Label) (nth : Nat)
  /-- A new call with the type of the node that is replaced. -/
  | call (op : String) (args : List Template) (attrs : Attrs)

namespace Template

mutual

def build (preNode postNode : NodeId) (b : Bindings) : Template → Build RuleError NodeId
  | pre => return preNode
  | post => return postNode
  | fail => throw (.notAxisPermuting preNode)
  | bound label nth => return (b.all label)[nth]?.getD postNode
  | call op args attrs => do
    let args ← buildAll preNode postNode b args
    let type ← Rule.checkedType preNode
    Build.push ⟨.call op args attrs, some type⟩

def buildAll (preNode postNode : NodeId) (b : Bindings) :
    List Template → Build RuleError (List NodeId)
  | [] => return []
  | t :: ts => do
    let e ← t.build preNode postNode b
    return e :: (← buildAll preNode postNode b ts)

end

def toRule (replacement : Template) (name : String) (pattern : Pattern) (recursive : Bool) :
    Rule where
  name
  pattern
  recursive
  apply := replacement.build

end Template

end TensorOpt
