import TensorOpt.Tensor.DType
import TensorOpt.Word

namespace TensorOpt

inductive Dim
  | static (extent : Word)
  | symbolic (name : String)
deriving DecidableEq, Repr, Inhabited

namespace Dim

def static? : Dim → Option Word
  | static n => some n
  | symbolic _ => none

def render : Dim → String
  | static n => n.render
  | symbolic x => x

end Dim

structure TensorType where
  shape : List Dim
  dtype : DType
deriving DecidableEq, Repr, Inhabited

namespace TensorType

def ofStatic (shape : List Word) (dtype : DType) : TensorType := ⟨shape.map .static, dtype⟩

def rank (t : TensorType) : Nat := t.shape.length

def staticShape? (t : TensorType) : Option (List Word) := t.shape.mapM Dim.static?

def render (t : TensorType) : String :=
  "tensor<" ++ String.join (t.shape.map fun d ↦ d.render ++ "x") ++ t.dtype.render ++ ">"

end TensorType

end TensorOpt
