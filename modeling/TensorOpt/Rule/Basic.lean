import TensorOpt.Graph.Build
import TensorOpt.Pattern.Basic

namespace TensorOpt

inductive AxesFault
  | tooFew (expected found : Nat)
  | outOfRange (axis : Word) (rank : Nat)
  | repeated (axis : Word)
  | noSource (dst : String) (position : Nat) (src : String)
deriving DecidableEq, Repr

def AxesFault.message : AxesFault → String
  | tooFew expected found => "expected " ++ toString expected ++ " axes, found " ++ toString found
  | outOfRange axis rank => "axis " ++ axis.render ++ " out of range for rank " ++ toString rank
  | repeated axis => "axis " ++ axis.render ++ " repeated"
  | noSource dst i src =>
    "`" ++ dst ++ "` axis " ++ toString i ++ " has no source in `" ++ src ++ "`"

/-- Why an expression cannot be simplified. A rule that merely does not apply is no error. -/
inductive RuleError
  | untyped (node : NodeId)
  | layoutMismatch (expected found : String)
  | notAxisPermuting (node : NodeId)
  | invalidAxes (op : String) (fault : AxesFault)
  | missingAttr (op key : String)
  | nonScalarFill (node : NodeId)
  | graph (cause : GraphError)
  /-- The axis orders of two operators in a row do not compose at the given rank. -/
  | axisBeyondRank (axis rank : Nat)
  /-- The node is among its own arguments' arguments. -/
  | cyclic (node : NodeId)
  /-- An argument names a node that has not been made. -/
  | missing (node : NodeId)
deriving DecidableEq, Repr

def RuleError.message : RuleError → String
  | untyped e =>
    "expression " ++ NodeId.render e ++
      " has no checked type; run type inference before simplifying"
  | layoutMismatch expected found =>
    "layout transform expects `" ++ expected ++ "` but its input is laid out as `" ++ found ++ "`"
  | notAxisPermuting e =>
    "expression " ++ NodeId.render e ++ " is not a transpose or layout transform"
  | invalidAxes op fault => "invalid axes for `" ++ op ++ "`: " ++ fault.message
  | missingAttr op key => "`" ++ op ++ "` is missing attribute `" ++ key ++ "`"
  | nonScalarFill e => "fill value " ++ NodeId.render e ++ " is not a scalar constant"
  | graph cause => cause.message
  | axisBeyondRank axis rank =>
    "axis " ++ toString axis ++ " lies beyond rank " ++ toString rank
  | cyclic e => "expression " ++ NodeId.render e ++ " depends on itself"
  | missing e => "expression " ++ NodeId.render e ++ " does not exist"

/-- A rule. `apply pre post bindings` gives the node to put in the place of `pre`; `post` is `pre`
over arguments that have been replaced already, and the bindings refer to such nodes too. A rule
declines by giving `post`. What a recursive rule gives is looked at again by all rules. -/
structure Rule where
  name : String
  pattern : Pattern
  recursive : Bool := true
  apply : NodeId → NodeId → Bindings → Build RuleError NodeId

def Rule.checkedType (e : NodeId) : Build RuleError TensorType :=
  Build.ask fun g ↦ (g.checkedType e).mapError .graph

end TensorOpt
