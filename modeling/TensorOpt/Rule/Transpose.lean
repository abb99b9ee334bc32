import TensorOpt.Graph.Operators
import TensorOpt.Pattern.Builder
import TensorOpt.Rule.AxisOrder

namespace TensorOpt.Rule

namespace Transpose

def ops : List String := [Op.transpose, Op.layoutTransform]

def pattern : Pattern := Pattern.Labelled.build do
  let x ← .wildcard
  let inner ← .call (← .anyOp ops) [x]
  .call (← .anyOp ops) [inner]

inductive Fused
  | layouts (src dst : Layout)
  | axes (order : AxisOrder)
deriving DecidableEq, Repr

/-- The layouts of a layout transform between layouts of different length. -/
def lengthChange? (g : Graph) (call : NodeId) : Except RuleError (Option (Layout × Layout)) :=
  if g.IsCallTo call Op.layoutTransform then do
    let (src, dst) ← g.layouts call
    return if src.name.length = dst.name.length then none else some (src, dst)
  else return none

/-- Whether one of the calls changes the length; those after it are not looked at. -/
def changesLength (g : Graph) : List NodeId → Except RuleError Bool
  | [] => return false
  | call :: rest => do
    match ← lengthChange? g call with
    | some _ => return true
    | none => changesLength g rest

/-- A layout transform of the result of another, which must leave the layout that is expected. -/
def fuseLayouts? (g : Graph) (outer inner : NodeId) : Except RuleError (Option Fused) := do
  let expected ← g.layoutAttr outer Key.srcLayout
  let found ← g.layoutAttr inner Key.dstLayout
  if expected ≠ found then throw (.layoutMismatch expected.name found.name)
  if ← changesLength g [outer, inner] then
    let src ← g.layoutAttr inner Key.srcLayout
    let dst ← g.layoutAttr outer Key.dstLayout
    return some (.layouts src dst)
  else return none

/-- A layout transform that changes the length next to a transpose. A transpose before it is
absorbed in the source, one after it in the destination. -/
def absorb? (g : Graph) (outer inner : NodeId) : Except RuleError (Option Fused) := do
  let permute (l : Layout) (order : AxisOrder) : Except RuleError Layout :=
    (l.permute order).mapError fun e ↦ .graph (.invalidLayout e)
  match ← lengthChange? g outer with
  | some (src, dst) =>
    let order ← g.axisOrder inner src.rank
    return some (.layouts (← permute src order.inverse) dst)
  | none =>
    match ← lengthChange? g inner with
    | some (src, dst) =>
      let order ← g.axisOrder outer dst.rank
      return some (.layouts src (← permute dst order))
    | none => return none

def composeOrders (g : Graph) (outer inner : NodeId) (rank : Nat) : Except RuleError AxisOrder := do
  let axes ← AxisOrder.compose rank (.identity rank) (← g.axisOrder inner rank)
  AxisOrder.compose rank axes (← g.axisOrder outer rank)

/-- What `outer` applied to `inner` amounts to, the result having the given rank. -/
def fuse (g : Graph) (outer inner : NodeId) (rank : Nat) : Except RuleError Fused := do
  let both := g.IsCallTo outer Op.layoutTransform ∧ g.IsCallTo inner Op.layoutTransform
  match ← if both then fuseLayouts? g outer inner else absorb? g outer inner with
  | some fused => return fused
  | none => return .axes (← composeOrders g outer inner rank)

def place (data : NodeId) (type : TensorType) : Fused → Build RuleError NodeId
  | .layouts src dst =>
    if src = dst then return data else Build.push (.layoutTransform data src.name dst.name type)
  | .axes order =>
    if order = .identity order.length then return data
    else Build.push (.transpose data (some (order.map Int64.ofNat)) type)

def apply (pre post : NodeId) (_ : Bindings) : Build RuleError NodeId := do
  let g ← get
  match g.args post with
  | [] => return post
  | inner :: _ =>
    if g.IsAxisPermuting inner then
      match g.args inner with
      | [] => return post
      | data :: _ =>
        let type ← Rule.checkedType pre
        place data type (← Build.ask fun g ↦ fuse g post inner type.rank)
    else return post

end Transpose

/-- Two operators in a row that reorder axes are one, a pair that does nothing is none. -/
def transpose : Rule where
  name := "SimplifyTranspose"
  pattern := Transpose.pattern
  apply := Transpose.apply

end TensorOpt.Rule
