import TensorOpt.Layout.Parser
import TensorOpt.Rule.Basic

namespace TensorOpt

/-- Axis `i` of the result is axis `order[i]` of the argument. -/
abbrev AxisOrder := List Nat

namespace AxisOrder

def identity (rank : Nat) : AxisOrder := List.range rank

def reversal (rank : Nat) : AxisOrder := (List.range rank).reverse

/-- The axis that `axis` stands for; negative numbers count from the last axis. -/
def resolve? (rank : Nat) (axis : Word) : Option Nat :=
  let n := if axis < 0 then axis.toInt + rank else axis.toInt
  if 0 ≤ n ∧ n < rank then some n.toNat else none

def read (rank found : Nat) : (missing : Nat) → (axes : List Word) → (order : AxisOrder) →
    Except AxesFault AxisOrder
  | 0, _, order => .ok order
  | _ + 1, [], _ => .error (.tooFew rank found)
  | n + 1, axis :: rest, order =>
    match resolve? rank axis with
    | none => .error (.outOfRange axis rank)
    | some i =>
      if i ∈ order then .error (.repeated axis) else read rank found n rest (order ++ [i])

/-- The order given by a list of axes, of which those beyond the rank are ignored. No axes stand for
the reversal. -/
def ofAxes (rank : Nat) (axes : List Word) : Except AxesFault AxisOrder :=
  if axes.isEmpty then .ok (reversal rank) else read rank axes.length rank axes []

/-- The order in which the axes of `dst`, as many as the rank, are found in `src`. -/
def ofLayouts (rank : Nat) (src dst : Layout) : Except AxesFault AxisOrder :=
  (List.range rank).mapM fun i ↦
    match dst.axes[i]?.bind src.indexOf? with
    | some j => .ok j
    | none => .error (.noSource dst.name i src.name)

def inverse (order : AxisOrder) : AxisOrder :=
  (List.range order.length).map fun axis ↦ order.idxOf axis

/-- The order of an operator that reorders by `order` what has been reordered by `axes`. -/
def compose (rank : Nat) (axes order : AxisOrder) : Except RuleError AxisOrder :=
  order.mapM fun i ↦
    match axes[i]? with
    | some axis => .ok axis
    | none => .error (.axisBeyondRank i rank)

end AxisOrder

namespace Graph

def layoutAttr (g : Graph) (call : NodeId) (key : String) : Except RuleError Layout :=
  match (g.attr? call key).bind Attribute.text? with
  | some text => (Layout.parse text).mapError fun e ↦ .graph (.invalidLayout e)
  | none => .error (.missingAttr ((g.callee? call).getD Op.layoutTransform) key)

def layouts (g : Graph) (call : NodeId) : Except RuleError (Layout × Layout) := do
  let src ← g.layoutAttr call Key.srcLayout
  let dst ← g.layoutAttr call Key.dstLayout
  return (src, dst)

def IsAxisPermuting (g : Graph) (e : NodeId) : Prop :=
  g.IsCallTo e Op.transpose ∨ g.IsCallTo e Op.layoutTransform

instance (g : Graph) (e : NodeId) : Decidable (g.IsAxisPermuting e) :=
  inferInstanceAs (Decidable (_ ∨ _))

def axisOrder (g : Graph) (call : NodeId) (rank : Nat) : Except RuleError AxisOrder :=
  if g.IsCallTo call Op.transpose then
    let axes := ((g.attr? call Key.axes).bind Attribute.ints?).getD []
    (AxisOrder.ofAxes rank axes).mapError (.invalidAxes Op.transpose)
  else if g.IsCallTo call Op.layoutTransform then do
    let (src, dst) ← g.layouts call
    (AxisOrder.ofLayouts rank src dst).mapError (.invalidAxes Op.layoutTransform)
  else .error (.notAxisPermuting call)

end Graph

end TensorOpt
