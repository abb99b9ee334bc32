namespace TensorOpt

inductive ScalarKind
  | int
  | uint
  | float
  | bool
deriving DecidableEq, Repr, Inhabited

structure DType where
  kind : ScalarKind
  bits : UInt8
  lanes : UInt16 := 1
deriving DecidableEq, Repr, Inhabited

namespace DType

def isVector (t : DType) : Bool := 1 < t.lanes

/-- Booleans are written without their width, single lanes without their number. -/
def render (t : DType) : String :=
  let width := toString t.bits.toNat
  let base := match t.kind with
    | .bool => "bool"
    | .int => "int" ++ width
    | .uint => "uint" ++ width
    | .float => "float" ++ width
  if t.isVector then base ++ "x" ++ toString t.lanes.toNat else base

end DType

end TensorOpt
