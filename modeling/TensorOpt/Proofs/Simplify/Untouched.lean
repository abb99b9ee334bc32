import TensorOpt.Proofs.Rule.Replacement
import TensorOpt.Proofs.Simplify

namespace TensorOpt

variable {g : Graph} {e x : NodeId} {rounds : Nat} {attrs : Attrs} {type? : Option TensorType}
  {op name : String} {σ : TensorType}

theorem Pattern.match?_call_call_eq_none {l₀ l₁ l₂ : Label} {outer inner : Pattern}
    (hargs : ∀ a ∈ g.args e, g.callee? a = none) :
    (call l₂ outer [call l₁ inner [wildcard l₀]]).match? g e = none := by
  refine Option.eq_none_iff_forall_ne_some.2 fun b hmatch ↦ ?_
  obtain ⟨_, y, _, _, _, _, _, _, hn, hy, -⟩ := match?_call_call hmatch
  have hnone := hargs y (by simp [Graph.args_of_node? hn, Node.args])
  cases hnone.symm.trans (Graph.callee?_of_node? hy)

theorem match?_fill_eq_none (hlength : (g.args e).length < 2) :
    Rule.fill.pattern.match? g e = none := by
  refine Option.eq_none_iff_forall_ne_some.2 fun b hmatch ↦ ?_
  obtain ⟨_, _, _, _, _, -, hn | hn, -⟩ := Rule.Fill.match?_pattern hmatch <;>
  · rw [Graph.args_of_node? hn] at hlength
    exact absurd hlength (by simp [Node.args])

theorem firstMatch?_eq_none {rules : List Rule} (h : ∀ r ∈ rules, r.pattern.match? g e = none) :
    g.firstMatch? rules e = none := by
  refine List.findSome?_eq_none_iff.2 fun r hr ↦ ?_
  rw [h r hr]
  rfl

/-- Every rule is about a call of a call, or about a call with two arguments. -/
theorem firstMatch?_standard_eq_none (hlength : (g.args e).length < 2)
    (hargs : ∀ a ∈ g.args e, g.callee? a = none) :
    g.firstMatch? (RuleSet.standard rounds).rules e = none := by
  refine firstMatch?_eq_none (RuleSet.forall_standard.2 ⟨?_, ?_, ?_⟩)
  · exact Pattern.match?_call_call_eq_none hargs
  · exact Pattern.match?_call_call_eq_none hargs
  · exact match?_fill_eq_none hlength

theorem firstMatch?_var (hx : g.node? x = some (.var name σ)) :
    g.firstMatch? (RuleSet.standard rounds).rules x = none := by
  have hargs : g.args x = [] := Graph.args_of_node? hx
  exact firstMatch?_standard_eq_none (by simp [hargs]) (by simp [hargs])

theorem firstMatch?_call_var (hx : g.node? x = some (.var name σ))
    (hn : g.node? e = some ⟨.call op [x] attrs, type?⟩) :
    g.firstMatch? (RuleSet.standard rounds).rules e = none := by
  have hargs : g.args e = [x] := Graph.args_of_node? hn
  have hcallee : g.callee? x = none := Graph.callee?_of_node? hx
  exact firstMatch?_standard_eq_none (by simp [hargs]) (by simpa [hargs] using hcallee)

section Leave

variable {done : Replacements} {p : Progress}

theorem leave_var (hx : p.graph.node? x = some (.var name σ)) :
    exec (Run.build (RuleSet.rebuild done x) >>= (RuleSet.standard rounds).visit done x) p =
      (.ok x, ⟨p.graph, p.events.push (.visited x x)⟩) := by
  have hargs : p.graph.args x = [] := Graph.args_of_node? hx
  have hrebuild : exec (RuleSet.rebuild done x) p.graph = (.ok x, p.graph) :=
    RuleSet.exec_rebuild_same (by simp [hargs])
  exact RuleSet.exec_leave_none hrebuild (firstMatch?_var hx)

theorem leave_call_var (hx : p.graph.node? x = some (.var name σ))
    (hn : p.graph.node? e = some ⟨.call op [x] attrs, type?⟩) (hdone : done.apply x = x) :
    exec (Run.build (RuleSet.rebuild done e) >>= (RuleSet.standard rounds).visit done e) p =
      (.ok e, ⟨p.graph, p.events.push (.visited e e)⟩) := by
  have hargs : p.graph.args e = [x] := Graph.args_of_node? hn
  have hrebuild : exec (RuleSet.rebuild done e) p.graph = (.ok e, p.graph) :=
    RuleSet.exec_rebuild_same (by simpa [hargs] using hdone)
  exact RuleSet.exec_leave_none hrebuild (firstMatch?_call_var hx hn)

end Leave

end TensorOpt
