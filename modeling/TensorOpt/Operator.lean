import TensorOpt.Attribute

namespace TensorOpt

namespace Op

def add : String := "add"
def subtract : String := "subtract"
def multiply : String := "multiply"
def divide : String := "divide"
def maximum : String := "maximum"
def minimum : String := "minimum"
def power : String := "power"
def relu : String := "nn.relu"
def negative : String := "negative"
def exp : String := "exp"
def sum : String := "sum"
def conv2d : String := "nn.conv2d"
def reshape : String := "reshape"
def reverseReshape : String := "contrib_reverse_reshape"
def transpose : String := "transpose"
def layoutTransform : String := "layout_transform"
def full : String := "full"
def fullLike : String := "full_like"
def ones : String := "ones"
def onesLike : String := "ones_like"
def zeros : String := "zeros"
def zerosLike : String := "zeros_like"

end Op

namespace Key

def newShape : String := "newshape"
def axes : String := "axes"
def srcLayout : String := "src_layout"
def dstLayout : String := "dst_layout"
def shape : String := "shape"
def dtype : String := "dtype"
def fusion : String := "TOpPattern"

end Key

/-- How an operator uses the elements of its operands, which decides what it can be fused with. -/
inductive Fusion
  | elementwise
  | broadcast
  | injective
  | reduction
  | outputFusable
  | tuple
  | isolated
deriving DecidableEq, Repr, Inhabited

namespace Fusion

def code : Fusion → Word
  | elementwise => 0
  | broadcast => 1
  | injective => 2
  | reduction => 3
  | outputFusable => 4
  | tuple => 7
  | isolated => 8

def all : List Fusion :=
  [elementwise, broadcast, injective, reduction, outputFusable, tuple, isolated]

def ofCode? (n : Word) : Option Fusion := all.find? (·.code = n)

end Fusion

abbrev Catalog := Table Attrs

namespace Catalog

def attrs (c : Catalog) (op : String) : Attrs := (c.get? op).getD .empty

def setAttr (c : Catalog) (op key : String) (value : Attribute) : Catalog :=
  c.insert op ((c.attrs op).insert key value)

def register (c : Catalog) (op : String) (f : Fusion) : Catalog :=
  c.setAttr op Key.fusion (.int f.code)

def fusion? (c : Catalog) (op : String) : Option Fusion := do
  let value ← (c.attrs op).get? Key.fusion
  Fusion.ofCode? (← value.int?)

def standard : Catalog :=
  let listed : List (Fusion × List String) := [
    (.broadcast, [Op.add, Op.subtract, Op.multiply, Op.divide, Op.maximum, Op.minimum, Op.power]),
    (.elementwise, [Op.relu, Op.negative, Op.exp, Op.full, Op.fullLike, Op.ones, Op.onesLike,
      Op.zeros, Op.zerosLike]),
    (.injective, [Op.reshape, Op.reverseReshape, Op.transpose, Op.layoutTransform]),
    (.reduction, [Op.sum]),
    (.outputFusable, [Op.conv2d])]
  listed.foldl (fun c (f, ops) ↦ ops.foldl (·.register · f) c) .empty

end Catalog

end TensorOpt
