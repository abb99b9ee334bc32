import TensorOpt.Graph.Traversal

namespace TensorOpt.Graph

abbrev NodePair := NodeId × NodeId

namespace NodePair

def compare : NodePair → NodePair → Ordering := compareLex (compareOn (·.1)) (compareOn (·.2))

instance : Std.TransCmp compare := inferInstanceAs (Std.TransCmp (compareLex _ _))

instance : Std.LawfulEqCmp compare where
  eq_of_compare {p q} h := by
    obtain ⟨h₁, h₂⟩ := Ordering.then_eq_eq.1 h
    exact Prod.ext (Std.compare_eq_iff_eq.1 h₁) (Std.compare_eq_iff_eq.1 h₂)

end NodePair

def TypesDiffer (m n : Node) : Prop := m.type?.isSome ∧ n.type?.isSome ∧ m.type? ≠ n.type?

instance (m n : Node) : Decidable (TypesDiffer m n) := inferInstanceAs (Decidable (_ ∧ _ ∧ _))

/-- The pairs of arguments that decide whether two nodes are equal, or `none` if they already
differ by themselves. -/
def obligations? (m n : Node) : Option (List NodePair) :=
  if TypesDiffer m n then none
  else
    match m.kind, n.kind with
    | .const l, .const l' => if l = l' then some [] else none
    | .call op args attrs, .call op' args' attrs' =>
      if op = op' ∧ attrs = attrs' ∧ args.length = args'.length then some (args.zip args')
      else none
    | _, _ => none

def pairs (g : Graph) : List NodePair :=
  (List.range g.size).flatMap fun a ↦ (List.range g.size).map fun b ↦ (a, b)

theorem mem_pairs {g : Graph} {a b : NodeId} (ha : a < g.size) (hb : b < g.size) :
    (a, b) ∈ g.pairs := by
  simp [pairs, ha, hb]

/-- Compares the pending pairs, those in `seen` having been taken up before. The last argument of a
call is the next to be compared. -/
def allEqual (g : Graph) (pending : List NodePair) (seen : Std.TreeSet NodePair NodePair.compare) :
    Bool :=
  match pending with
  | [] => true
  | (a, b) :: rest =>
    if a = b then allEqual g rest seen
    else if _seen : (a, b) ∈ seen then allEqual g rest seen
    else
      match _left : g.node? a, _right : g.node? b with
      | some m, some n =>
        match obligations? m n with
        | some more => allEqual g (more.reverse ++ rest) (seen.insert (a, b))
        | none => false
      | _, _ => false
termination_by (unseen g.pairs seen, pending.length)
decreasing_by
  · exact Prod.Lex.right _ (Nat.lt_succ_self _)
  · exact Prod.Lex.right _ (Nat.lt_succ_self _)
  · exact Prod.Lex.left _ _ (unseen_insert_lt
      (mem_pairs (lt_size_of_node? _left) (lt_size_of_node? _right)) _seen)

/-- Whether the operators, attributes and literals are the same in the same places, and no two types
differ. A variable is equal only to itself, and a pair that is met again is taken to be equal. -/
def structuralEq (g : Graph) (a b : NodeId) : Bool := g.allEqual [(a, b)] {}

end TensorOpt.Graph
