import TensorOpt.Graph.Basic

namespace TensorOpt.Node

def var (name : String) (type : TensorType) : Node := ⟨.var name, some type⟩

def const (l : Literal) : Node := ⟨.const l, some l.type⟩

def call (op : String) (args : List NodeId) (attrs : List (String × Attribute))
    (type? : Option TensorType) : Node :=
  ⟨.call op args (.ofList attrs), type?⟩

def scalar (dtype : DType) (value : Scalar) : Node := const (.scalar dtype value)

def reshape (data : NodeId) (shape : List Word) (type : TensorType) : Node :=
  call Op.reshape [data] [(Key.newShape, .ints shape)] (some type)

/-- As `reshape`, with the shape read from right to left. -/
def reverseReshape (data : NodeId) (shape : List Word) (type : TensorType) : Node :=
  call Op.reverseReshape [data] [(Key.newShape, .ints shape)] (some type)

def transpose (data : NodeId) (axes : Option (List Word)) (type : TensorType) : Node :=
  let attrs := match axes with
    | some axes => [(Key.axes, .ints axes)]
    | none => []
  call Op.transpose [data] attrs (some type)

def layoutTransform (data : NodeId) (src dst : String) (type : TensorType) : Node :=
  call Op.layoutTransform [data] [(Key.srcLayout, .string src), (Key.dstLayout, .string dst)]
    (some type)

def binary (op : String) (lhs rhs : NodeId) (type : TensorType) : Node :=
  call op [lhs, rhs] [] (some type)

/-- A tensor of the given shape that repeats what the nullary or unary `op` is given. -/
def filled (op : String) (args : List NodeId) (shape : List Word) (dtype : DType) : Node :=
  call op args [(Key.shape, .ints shape), (Key.dtype, .dtype dtype)] (some (.ofStatic shape dtype))

def full (value : NodeId) (shape : List Word) (dtype : DType) : Node :=
  filled Op.full [value] shape dtype

def ones (shape : List Word) (dtype : DType) : Node := filled Op.ones [] shape dtype

def zeros (shape : List Word) (dtype : DType) : Node := filled Op.zeros [] shape dtype

end TensorOpt.Node

namespace TensorOpt.Graph

def filledLike (g : Graph) (op : String) (data : NodeId) (rest : List NodeId) : Node :=
  .call op (data :: rest) [] (g.type? data)

def fullLike (g : Graph) (data value : NodeId) : Node := g.filledLike Op.fullLike data [value]

def onesLike (g : Graph) (data : NodeId) : Node := g.filledLike Op.onesLike data []

def zerosLike (g : Graph) (data : NodeId) : Node := g.filledLike Op.zerosLike data []

end TensorOpt.Graph
