import TensorOpt.Word

namespace TensorOpt

/-- An index expression. `ramp base stride lanes` is the vector of the `lanes` values
`base`, `base + stride`, `base + 2 * stride`, and so on. -/
inductive Index
  | int (value : Word)
  | var (name : String)
  | add (lhs rhs : Index)
  | sub (lhs rhs : Index)
  | mul (lhs rhs : Index)
  | floorDiv (lhs rhs : Index)
  | floorMod (lhs rhs : Index)
  | ramp (base stride : Index) (lanes : UInt16)
deriving DecidableEq, Repr, Inhabited

namespace Index

def size : Index → Nat
  | int _ | var _ => 1
  | add a b | sub a b | mul a b | floorDiv a b | floorMod a b => a.size + b.size + 1
  | ramp a b _ => a.size + b.size + 1

def totalSize {α : Type} (size : α → Nat) (l : List α) : Nat := l.foldr (fun a n ↦ size a + n) 0

@[simp]
theorem totalSize_nil {α : Type} (size : α → Nat) : totalSize size [] = 0 := rfl

@[simp]
theorem totalSize_cons {α : Type} (size : α → Nat) (a : α) (l : List α) :
    totalSize size (a :: l) = size a + totalSize size l := rfl

@[simp]
theorem totalSize_append {α : Type} (size : α → Nat) (l l' : List α) :
    totalSize size (l ++ l') = totalSize size l + totalSize size l' := by
  induction l with
  | nil => exact (Nat.zero_add _).symm
  | cons a l ih => rw [List.cons_append, totalSize_cons, ih, totalSize_cons, Nat.add_assoc]

def int? : Index → Option Word
  | int v => some v
  | _ => none

def operands? : Index → Option (Index × Index)
  | add a b | mul a b | floorDiv a b | floorMod a b => some (a, b)
  | _ => none

def addends : Index → List Index
  | add a b => a.addends ++ b.addends
  | e => [e]

def strength : Index → Nat
  | add .. | sub .. => 1
  | mul .. => 2
  | _ => 3

def bracketed (needed : Nat) (e : Index) (text : String) : String :=
  if e.strength < needed then "(" ++ text ++ ")" else text

def render : Index → String
  | int v => v.render
  | var x => x
  | add a b => bracketed 1 a a.render ++ " + " ++ bracketed 2 b b.render
  | sub a b => bracketed 1 a a.render ++ " - " ++ bracketed 2 b b.render
  | mul a b => bracketed 2 a a.render ++ " * " ++ bracketed 3 b b.render
  | floorDiv a b => "floordiv(" ++ a.render ++ ", " ++ b.render ++ ")"
  | floorMod a b => "floormod(" ++ a.render ++ ", " ++ b.render ++ ")"
  | ramp a b n => "ramp(" ++ a.render ++ ", " ++ b.render ++ ", " ++ toString n.toNat ++ ")"

end Index

end TensorOpt
