import Std.Data.TreeMap
import TensorOpt.Graph.Traversal
import TensorOpt.Pattern.Matcher
import TensorOpt.Rule.Basic

namespace TensorOpt

inductive Event
  | visited (pre post : NodeId)
  | fired (rule : String) (pre post : NodeId) (result : Option NodeId)
deriving DecidableEq, Repr

def defaultRounds : Nat := 32

/-- Rules in the order in which they are tried. `rounds` bounds how often what has taken the place
of a node is looked at again. -/
structure RuleSet where
  rules : List Rule
  rounds : Nat := defaultRounds

/-- What takes the place of the nodes visited so far. -/
abbrev Replacements := Std.TreeMap NodeId NodeId

/-- The node in the place of `e`, which is `e` itself if it has not been visited. -/
def Replacements.apply (r : Replacements) (e : NodeId) : NodeId := r.getD e e

structure Progress where
  graph : Graph
  events : Array Event := #[]

abbrev Run := ExceptT RuleError (StateM Progress)

namespace Run

def graph : Run Graph := return (← get).graph

def note (e : Event) : Run Unit := modify fun ⟨g, events⟩ ↦ ⟨g, events.push e⟩

def build {α : Type} (x : Build RuleError α) : Run α :=
  ExceptT.mk fun ⟨g, events⟩ ↦
    let (a, g) := x.run g
    (a, ⟨g, events⟩)

def fire (r : Rule) (pre post : NodeId) (b : Bindings) : Run NodeId :=
  ExceptT.mk fun ⟨g, events⟩ ↦
    let (a, g) := (r.apply pre post b).run g
    (a, ⟨g, events.push (.fired r.name pre post a.toOption)⟩)

end Run

def Graph.firstMatch? (g : Graph) (rules : List Rule) (e : NodeId) : Option (Rule × Bindings) :=
  rules.findSome? fun r ↦ (r.pattern.match? g e).map fun b ↦ (r, b)

namespace RuleSet

def attempt (s : RuleSet) (pre post : NodeId) (lookup : NodeId → NodeId) :
    Run (Option (Rule × NodeId)) := do
  match (← Run.graph).firstMatch? s.rules pre with
  | none => return none
  | some (r, b) => return some (r, ← Run.fire r pre post (b.map lookup))

/-- Looks at a node again until no rule changes it, but at most so many times. -/
def settle (s : RuleSet) : (rounds : Nat) → NodeId → Run NodeId
  | 0, e => return e
  | n + 1, e => do
    match ← s.attempt e e id with
    | some (_, e') => if e' = e then return e else s.settle n e'
    | none => return e

/-- `pre` over the arguments that have taken the place of its own; `pre` itself if none changed. -/
def rebuild (done : Replacements) (pre : NodeId) : Build RuleError NodeId := do
  match (← get).node? pre with
  | none => return pre
  | some n =>
    let args := n.args.map done.apply
    if args = n.args then return pre else Build.push (n.withArgs args)

def visit (s : RuleSet) (done : Replacements) (pre post : NodeId) : Run NodeId := do
  Run.note (.visited pre post)
  match ← s.attempt pre post fun e ↦ if e = pre then post else done.apply e with
  | none => return post
  | some (r, e) => if r.recursive ∧ e ≠ post then s.settle s.rounds e else return e

/-- Works through the pending steps of a search below `bound`. Nodes are looked up in the graph as
it stands, since an argument may name a node that a rule has made on the way. A node that is entered
again before it has been left depends on itself. -/
def walk (s : RuleSet) (bound : Nat) (tasks : List Graph.Task) (opened : Std.TreeSet NodeId)
    (done : Replacements) : Run Replacements :=
  match tasks with
  | [] => return done
  | .leave e :: rest => do
    let post ← Run.build (rebuild done e)
    let e' ← s.visit done e post
    s.walk bound rest opened (done.insert e e')
  | .enter e :: rest =>
    if e ∈ done then s.walk bound rest opened done
    else if _opened : e ∈ opened then throw (.cyclic e)
    else if _bound : e < bound then do
      match (← Run.graph).node? e with
      | none => throw (.missing e)
      | some n =>
        let args := n.args.filter (· ∉ done)
        s.walk bound (args.map .enter ++ .leave e :: rest) (opened.insert e) done
    else throw (.missing e)
termination_by (unseen (List.range bound) opened, tasks.length)
decreasing_by
  · exact Prod.Lex.right _ (Nat.lt_succ_self _)
  · exact Prod.Lex.right _ (Nat.lt_succ_self _)
  · exact Prod.Lex.left _ _ (unseen_insert_lt (List.mem_range.2 _bound) _opened)

/-- Applies the rules to all that is reachable from `root` and gives the new root. What the rules
make refers to earlier nodes only, so the search stays below the bound of the graph it starts on. -/
def run (s : RuleSet) (root : NodeId) : Run NodeId := do
  let done ← s.walk (← Run.graph).bound [.enter root] {} {}
  return done.apply root

def runOn (s : RuleSet) (root : NodeId) : Build RuleError NodeId :=
  ExceptT.mk fun g ↦
    let (e, progress) := (s.run root).run ⟨g, #[]⟩
    (e, progress.graph)

end RuleSet

end TensorOpt
