import TensorOpt.Pattern.Basic

namespace TensorOpt.Pattern

abbrev Labelled := StateM Label

namespace Labelled

def fresh : Labelled Label := modifyGet fun l ↦ (l, l + 1)

def wildcard : Labelled Pattern := return .wildcard (← fresh)

def op (name : String) : Labelled Pattern := return .op (← fresh) name

def const : Labelled Pattern := return .const (← fresh)

def alt (options : List Pattern) : Labelled Pattern := return .alt (← fresh) options

def either (p q : Pattern) : Labelled Pattern := alt [p, q]

def anyOp (names : List String) : Labelled Pattern := do alt (← names.mapM op)

def call (callee : Pattern) (args : List Pattern) : Labelled Pattern :=
  return .call (← fresh) callee args

def callTo (name : String) (args : List Pattern) : Labelled Pattern := do call (← op name) args

def attrs (base : Pattern) (expected : Attrs) : Labelled Pattern :=
  return .attrs (← fresh) base expected

def attr (base : Pattern) (key : String) (value : Attribute) : Labelled Pattern :=
  attrs base (.ofList [(key, value)])

def build {α : Type} (x : Labelled α) : α := (x.run 0).1

end Labelled

end TensorOpt.Pattern
