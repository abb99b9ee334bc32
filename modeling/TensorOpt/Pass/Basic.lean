import TensorOpt.Simplify

namespace TensorOpt

inductive PassError
  | rule (cause : RuleError)
  | graph (cause : GraphError)
  | unknownPass (name requiredBy : String)
  | untyped (pass : String) (node : NodeId)
  | host (pass reason : String)
deriving DecidableEq, Repr

def PassError.message : PassError → String
  | rule cause => cause.message
  | graph cause => cause.message
  | unknownPass name requiredBy =>
    "pass `" ++ requiredBy ++ "` requires `" ++ name ++ "`, which is not available"
  | untyped pass e =>
    "pass `" ++ pass ++ "` left expression " ++ NodeId.render e ++ " without a type"
  | host pass reason => "pass `" ++ pass ++ "` failed: " ++ reason

/-- A pass takes the root of an expression to a new root. It runs at optimisation levels from
`level` on. -/
structure Pass where
  name : String
  level : UInt8 := 0
  required : List String := []
  run : NodeId → Build PassError NodeId

namespace Pass

def inferType : String := "InferType"

def simplifyExpr (rounds : Nat) : Pass where
  name := "SimplifyExpr"
  required := [inferType]
  run root := (simplify rounds root).adapt .rule

end Pass

end TensorOpt
