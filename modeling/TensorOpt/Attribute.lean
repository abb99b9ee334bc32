import TensorOpt.Decimal.Double
import TensorOpt.Table
import TensorOpt.Tensor.DType
import TensorOpt.Text.Quoted
import TensorOpt.Word

namespace TensorOpt

/-- An attribute value that is not a list. Floating-point values are held and compared by their
bits. -/
inductive Atom
  | unit
  | bool (value : Bool)
  | int (value : Word)
  | float (bits : UInt64)
  | string (text : String)
  | symbol (name : String)
  | dtype (type : DType)
deriving DecidableEq, Repr, Inhabited

def Atom.render : Atom → String
  | unit => "()"
  | bool b => toString b
  | int v => v.render
  | float bits => (Double.ofBits bits).render
  | string s => Text.quote s
  | symbol s => "@" ++ s
  | dtype t => t.render

inductive Attribute
  | atom (value : Atom)
  | list (items : List Attribute)
deriving Repr, Inhabited

abbrev Attrs := Table Attribute

namespace Attribute

mutual

def decEq : (a b : Attribute) → Decidable (a = b)
  | atom a, atom b => decidable_of_iff (a = b) (by simp)
  | list a, list b =>
    have := decEqList a b
    decidable_of_iff (a = b) (by simp)
  | atom _, list _ | list _, atom _ => isFalse nofun

def decEqList : (a b : List Attribute) → Decidable (a = b)
  | [], [] => isTrue rfl
  | [], _ :: _ | _ :: _, [] => isFalse nofun
  | a :: as, b :: bs =>
    have := decEq a b
    have := decEqList as bs
    decidable_of_iff (a = b ∧ as = bs) (by simp)

end

instance : DecidableEq Attribute := decEq

@[match_pattern]
abbrev int (value : Word) : Attribute := atom (.int value)

@[match_pattern]
abbrev string (text : String) : Attribute := atom (.string text)

@[match_pattern]
abbrev symbol (name : String) : Attribute := atom (.symbol name)

@[match_pattern]
abbrev dtype (type : DType) : Attribute := atom (.dtype type)

def ints (values : List Word) : Attribute := list (values.map int)

def int? : Attribute → Option Word
  | int v => some v
  | _ => none

def text? : Attribute → Option String
  | string s | symbol s => some s
  | _ => none

def ints? : Attribute → Option (List Word)
  | list items => items.mapM int?
  | _ => none

mutual

def render : Attribute → String
  | atom a => a.render
  | list items => "[" ++ ", ".intercalate (renderList items) ++ "]"

def renderList : List Attribute → List String
  | [] => []
  | a :: as => a.render :: renderList as

end

end Attribute

end TensorOpt
