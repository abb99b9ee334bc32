import TensorOpt.Pass.Basic

namespace TensorOpt

structure PassOptions where
  level : UInt8 := 2
  disabled : List String := []

def PassOptions.Enables (o : PassOptions) (p : Pass) : Prop :=
  p.level ≤ o.level ∧ p.name ∉ o.disabled

instance (o : PassOptions) (p : Pass) : Decidable (o.Enables p) :=
  inferInstanceAs (Decidable (_ ∧ _))

/-- Passes to run in order, and passes that are there only to be required. -/
structure Pipeline where
  passes : List Pass
  provided : List Pass := []

/-- A graph and the runs of passes so far, each with the root that it was given. -/
structure PipelineState where
  graph : Graph
  runs : Array (String × NodeId) := #[]

namespace Pipeline

abbrev PassRun := ExceptT PassError (StateM PipelineState)

/-- The pass of that name; provided passes come first. -/
def find? (p : Pipeline) (name : String) : Option Pass :=
  (p.provided ++ p.passes).find? (·.name = name)

def runPass (pass : Pass) (root : NodeId) : PassRun NodeId :=
  ExceptT.mk fun ⟨g, runs⟩ ↦
    let (e, g) := (pass.run root).run g
    (e, ⟨g, runs.push (pass.name, root)⟩)

def runRequired (p : Pipeline) (requiredBy : String) : List String → NodeId → PassRun NodeId
  | [], root => return root
  | name :: rest, root =>
    match p.find? name with
    | none => throw (.unknownPass name requiredBy)
    | some pass => do p.runRequired requiredBy rest (← runPass pass root)

/-- A pass that works on types must leave everything typed. -/
def checkTyped (pass : Pass) (root : NodeId) : PassRun Unit := do
  if Pass.inferType ∈ pass.required then
    match (← get).graph.untyped? root with
    | some e => throw (.untyped pass.name e)
    | none => return

def runEach (p : Pipeline) (o : PassOptions) : List Pass → NodeId → PassRun NodeId
  | [], root => return root
  | pass :: rest, root =>
    if o.Enables pass then do
      let root ← p.runRequired pass.name pass.required root
      let root ← runPass pass root
      checkTyped pass root
      p.runEach o rest root
    else p.runEach o rest root

/-- Runs the enabled passes in order, each on what the one before it gave. -/
def run (p : Pipeline) (o : PassOptions) (root : NodeId) : PassRun NodeId :=
  p.runEach o p.passes root

end Pipeline

end TensorOpt
