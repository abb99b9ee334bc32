import TensorOpt.Graph.Basic

namespace TensorOpt

abbrev Build (ε : Type) := ExceptT ε (StateM Graph)

namespace Build

variable {ε α : Type}

def push (n : Node) : Build ε NodeId := do
  let e := (← get).size
  modify (·.push n)
  return e

def ask (f : Graph → Except ε α) : Build ε α := do
  ExceptT.mk (return f (← get))

end Build

end TensorOpt
