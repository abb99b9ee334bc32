import TensorOpt.Graph.Operators
import TensorOpt.Pattern.Builder
import TensorOpt.Rule.Basic

namespace TensorOpt.Rule

namespace Fill

structure Labels where
  other : Label
  value : Label
  full : Label
  ones : Label
  zeros : Label

def pattern : Pattern × Labels := Pattern.Labelled.build do
  let x ← .wildcard
  let data ← .wildcard
  let value ← .const
  let full ← .either (← .callTo Op.full [value]) (← .callTo Op.fullLike [data, value])
  let ones ← .either (← .callTo Op.ones []) (← .callTo Op.onesLike [data])
  let zeros ← .either (← .callTo Op.zeros []) (← .callTo Op.zerosLike [data])
  let fill ← .alt [full, ones, zeros]
  let op ← .attr (← .wildcard) Key.fusion (.int Fusion.broadcast.code)
  let pattern ← .either (← .call op [fill, x]) (← .call op [x, fill])
  return (pattern, ⟨x.label, value.label, full.label, ones.label, zeros.label⟩)

/-- The value that the fill repeats, as a scalar of type `dtype` where it is not a node yet. -/
def value? (b : Bindings) (dtype : DType) : Build RuleError (Option NodeId) := do
  let labels := pattern.2
  if b.contains labels.full then
    match b.first? labels.value with
    | none => return none
    | some value =>
      if (← get).isScalarConst value then return some value else throw (.nonScalarFill value)
  else if b.contains labels.ones then return some (← Build.push (.const (.ofWord dtype 1)))
  else if b.contains labels.zeros then return some (← Build.push (.const (.ofWord dtype 0)))
  else return none

def apply (pre post : NodeId) (b : Bindings) : Build RuleError NodeId := do
  match b.first? pattern.2.other with
  | none => return post
  | some x =>
    let type ← Rule.checkedType pre
    let g ← get
    match g.node? pre with
    | some ⟨.call op [lhs, rhs] attrs, _⟩ =>
      let fillOnLeft := (g.args post)[1]? = some x
      if (← Rule.checkedType (if fillOnLeft then rhs else lhs)) ≠ type then return post
      match ← value? b type.dtype with
      | none => return post
      | some value =>
        let args := if fillOnLeft then [value, x] else [x, value]
        Build.push ⟨.call op args attrs, some type⟩
    | _ => return post

end Fill

/-- An operand of a broadcasting operator that repeats one value everywhere is that value alone, if
the other operand already has the type of the result. -/
def fill : Rule where
  name := "FullElementwise"
  pattern := Fill.pattern.1
  apply := Fill.apply

end TensorOpt.Rule
