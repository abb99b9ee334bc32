import TensorOpt.Graph.Basic
import TensorOpt.Graph.Unseen

namespace TensorOpt.Graph

inductive Task
  | enter (e : NodeId)
  | leave (e : NodeId)
deriving DecidableEq, Repr

theorem lt_size_of_node? {g : Graph} {e : NodeId} {n : Node} (h : g.node? e = some n) :
    e < g.size :=
  (Array.getElem?_eq_some_iff.1 h).1

/-- Works through the pending steps; `seen` are the nodes opened and `order` those left so far. -/
def walk (g : Graph) (tasks : List Task) (seen : Std.TreeSet NodeId) (order : Array NodeId) :
    Array NodeId :=
  match tasks with
  | [] => order
  | .leave e :: rest => walk g rest seen (order.push e)
  | .enter e :: rest =>
    if _seen : e ∈ seen then walk g rest seen order
    else
      match _node : g.node? e with
      | none => walk g rest seen order
      | some n =>
        let seen := seen.insert e
        walk g ((n.args.filter (· ∉ seen)).map .enter ++ .leave e :: rest) seen order
termination_by (unseen (List.range g.size) seen, tasks.length)
decreasing_by
  · exact Prod.Lex.right _ (Nat.lt_succ_self _)
  · exact Prod.Lex.right _ (Nat.lt_succ_self _)
  · exact Prod.Lex.right _ (Nat.lt_succ_self _)
  · exact Prod.Lex.left _ _ (unseen_insert_lt (List.mem_range.2 (lt_size_of_node? _node)) _seen)

/-- The nodes reachable from `root`, each after its arguments where the graph has no cycle. -/
def postOrder (g : Graph) (root : NodeId) : List NodeId := (walk g [.enter root] {} #[]).toList

def untyped? (g : Graph) (root : NodeId) : Option NodeId :=
  (g.postOrder root).find? fun e ↦ (g.type? e).isNone

end TensorOpt.Graph
