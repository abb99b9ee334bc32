import TensorOpt.Index.Basic

namespace TensorOpt.Index

abbrev Env := String → Option Word

inductive EvalError
  | divisionByZero (e : Index)
  | overflow (e : Index)
  | unbound (name : String)
  | notScalar (e : Index)
deriving DecidableEq, Repr

def EvalError.message : EvalError → String
  | divisionByZero e => "division by zero in `" ++ e.render ++ "`"
  | overflow e => "integer overflow evaluating `" ++ e.render ++ "`"
  | unbound x => "variable `" ++ x ++ "` has no value"
  | notScalar e => "expected a scalar index, found vector expression `" ++ e.render ++ "`"

def checked (e : Index) : Option Word → Except EvalError Word
  | some v => .ok v
  | none => .error (.overflow e)

/-- The value of an expression without ramps. -/
def eval (env : Env) : Index → Except EvalError Word
  | int v => .ok v
  | var x =>
    match env x with
    | some v => .ok v
    | none => .error (.unbound x)
  | add a b => do
    let x ← eval env a
    let y ← eval env b
    checked (add a b) (x.add? y)
  | sub a b => do
    let x ← eval env a
    let y ← eval env b
    checked (sub a b) (x.sub? y)
  | mul a b => do
    let x ← eval env a
    let y ← eval env b
    checked (mul a b) (x.mul? y)
  | floorDiv a b => do
    let x ← eval env a
    let y ← eval env b
    if y = 0 then .error (.divisionByZero (floorDiv a b))
    else checked (floorDiv a b) (x.floorDiv? y)
  | floorMod a b => do
    let x ← eval env a
    let y ← eval env b
    if y = 0 then .error (.divisionByZero (floorMod a b))
    else checked (floorMod a b) (x.floorMod? y)
  | e@(ramp ..) => .error (.notScalar e)

/-- The values of all lanes: those of an outermost ramp, or the one value of a scalar. -/
def evalLanes (env : Env) : Index → Except EvalError (List Word)
  | e@(ramp base stride lanes) => do
    let x ← eval env base
    let s ← eval env stride
    (List.range lanes.toNat).mapM fun i ↦ do
      let step ← checked e (Word.mul? (Int64.ofNat i) s)
      checked e (x.add? step)
  | e => do return [← eval env e]

end TensorOpt.Index
