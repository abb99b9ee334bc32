import TensorOpt.Index.Normalize
import TensorOpt.Tensor.DType

namespace TensorOpt

open Index

/-- A region of memory viewed as an array. `base` is the offset of its first element, counted in
elements. -/
structure Buffer where
  name : String
  dtype : DType
  shape : List Index
  strides : List Index := []
  base : Index := .int 0

namespace Buffer

inductive AccessError
  | arity (buffer : String) (expected found : Nat)
  | scalarIndex (buffer : String) (index : Index)
deriving DecidableEq, Repr

def AccessError.message : AccessError → String
  | arity b expected found =>
    "buffer `" ++ b ++ "` expects " ++ toString expected ++ " indices, got " ++ toString found
  | scalarIndex b i => "scalar buffer `" ++ b ++ "` indexed with `" ++ i.render ++ "`, expected 0"

/-- The row-major offset of indices and the extents of their dimensions, the first extent being
irrelevant. -/
def denseOffset (prepare : Simplifier) : List (Index × Index) → Option Index
  | [] => none
  | (first, _) :: rest =>
    some (rest.foldl (fun offset (i, extent) ↦
      normalize prepare (mkAdd (mkMul offset extent) i)) first)

def stridedOffset (prepare : Simplifier) (base : Index) : List (Index × Index) → Index
  | [] => base
  | (first, stride) :: rest =>
    let head := mkMul first stride
    rest.foldl (fun offset (i, s) ↦ normalize prepare (mkAdd offset (mkMul i s)))
      (normalize prepare (if base = .int 0 then head else mkAdd base head))

def elementOffset (b : Buffer) (prepare : Simplifier) (indices : List Index) :
    Except AccessError Index :=
  match b.strides, b.shape, indices with
  | [], [], [i] => if i = .int 0 then .ok (mkAdd b.base i) else .error (.scalarIndex b.name i)
  | [], shape, indices =>
    if shape.length = indices.length then
      match denseOffset prepare (indices.zip shape) with
      | some offset => .ok (mkAdd b.base offset)
      | none => .ok b.base
    else .error (.arity b.name shape.length indices.length)
  | strides, _, indices =>
    if strides.length = indices.length then
      .ok (stridedOffset prepare b.base (indices.zip strides))
    else .error (.arity b.name strides.length indices.length)

/-- The lanes of an access to an element: of a vector buffer the offset is counted in lanes of the
access, and a vector access is a ramp over its lanes. -/
def laneOffset (b : Buffer) (prepare : Simplifier) (indices : List Index) (access : DType) :
    Except AccessError Index := do
  let offset ← b.elementOffset prepare indices
  let lanes : Word := Int64.ofNat access.lanes.toNat
  let start := if b.dtype.isVector then mkMul offset (.int lanes) else offset
  return if access.isVector then mkRamp start (.int 1) access.lanes else start

end Buffer

end TensorOpt
