import TensorOpt.Decimal.Double
import TensorOpt.Tensor.TensorType

namespace TensorOpt

/-- An element of a constant. Floating-point elements are held and compared by their bits. -/
inductive Scalar
  | int (value : Word)
  | float (bits : UInt64)
  | bool (value : Bool)
deriving DecidableEq, Repr, Inhabited

def Scalar.ofWord (dtype : DType) (value : Word) : Scalar :=
  match dtype.kind with
  | .float => .float (Float.ofInt value.toInt).toBits
  | .bool => .bool (value ≠ 0)
  | .int | .uint => .int value

def Scalar.render : Scalar → String
  | int v => v.render
  | float bits => (Double.ofBits bits).render
  | bool b => toString b

/-- The number of elements need not agree with the shape. -/
structure Literal where
  dtype : DType
  shape : List Word
  values : List Scalar
deriving DecidableEq, Repr, Inhabited

namespace Literal

def scalar (dtype : DType) (value : Scalar) : Literal := ⟨dtype, [], [value]⟩

def ofWord (dtype : DType) (value : Word) : Literal := scalar dtype (.ofWord dtype value)

def isScalar (l : Literal) : Bool := l.shape.isEmpty

def type (l : Literal) : TensorType := .ofStatic l.shape l.dtype

def render (l : Literal) : String :=
  match l.isScalar, l.values with
  | true, v :: _ => v.render
  | _, vs => "[" ++ ", ".intercalate (vs.map Scalar.render) ++ "]"

end Literal

end TensorOpt
