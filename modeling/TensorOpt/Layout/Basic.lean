namespace TensorOpt

/-- An axis of a layout, with the block size if it is a block. -/
structure Axis where
  factor : Option Nat
  letter : Char
deriving DecidableEq, Repr, Inhabited

def Axis.isPrimal (a : Axis) : Bool := a.factor.isNone

def Axis.render (a : Axis) : String :=
  match a.factor with
  | some n => toString n ++ a.letter.toString
  | none => a.letter.toString

/-- The axes of a tensor, outermost first. An upper-case letter is an axis of the tensor itself, a
lower-case one a block split off it, written after its size, as in `NCHW4c`. A layout keeps the text
that it was read from, which need not be the canonical one. -/
structure Layout where
  name : String
  axes : List Axis
deriving DecidableEq, Repr, Inhabited

namespace Layout

/-- What is wrong with the text of a layout or with a choice of its axes. -/
inductive Fault
  | factorOverflow (digit : Char)
  | primalFactor (letter : Char)
  | missingFactor (letter : Char)
  | unexpected (c : Char)
  | danglingFactor
  | repeated (letter : Char)
  | noAxis (position : Nat)
deriving DecidableEq, Repr

def Fault.message : Fault → String
  | factorOverflow c => "split factor overflow at `" ++ c.toString ++ "`"
  | primalFactor c => "primal axis `" ++ c.toString ++ "` cannot have a factor"
  | missingFactor c => "subordinate axis `" ++ c.toString ++ "` needs a positive factor"
  | unexpected c => "unexpected character `" ++ c.toString ++ "`"
  | danglingFactor => "dangling split factor"
  | repeated c => "axis `" ++ c.toString ++ "` appears twice"
  | noAxis i => "permutation index " ++ toString i ++ " out of range"

structure Invalid where
  layout : String
  fault : Fault
deriving DecidableEq, Repr

def Invalid.message (e : Invalid) : String :=
  "invalid layout `" ++ e.layout ++ "`: " ++ e.fault.message

def rank (l : Layout) : Nat := l.axes.length

/-- The position of the axis with the letter of `a`. -/
def indexOf? (l : Layout) (a : Axis) : Option Nat := l.axes.findIdx? (·.letter == a.letter)

def ofAxes (axes : List Axis) : Layout := ⟨String.join (axes.map Axis.render), axes⟩

/-- The layout whose axis `i` is this one's axis `order[i]`. -/
def permute (l : Layout) (order : List Nat) : Except Invalid Layout := do
  let axes ← order.mapM fun i ↦
    match l.axes[i]? with
    | some a => .ok a
    | none => .error ⟨l.name, .noAxis i⟩
  return ofAxes axes

end Layout

end TensorOpt
