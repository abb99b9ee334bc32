import TensorOpt.Pass.Pipeline
import TensorOpt.Pass.Stock
import TensorOpt.Proofs.Rule.Frame

namespace TensorOpt

variable {R : Graph → Graph → Prop} {g g' : Graph} {e root : NodeId} {τ : TensorType}
  {p : Pipeline} {o : PassOptions} {q : Pass}

def Pass.Leaves (R : Graph → Graph → Prop) (q : Pass) : Prop :=
  ∀ root, TensorOpt.Leaves id R (q.run root)

theorem leaves_simplifyExpr (hR : Frame R) (rounds : Nat) : (Pass.simplifyExpr rounds).Leaves R :=
  fun root g ↦ leaves_simplify hR rounds root g

namespace Pipeline

theorem leaves_runPass (hq : q.Leaves R) (root : NodeId) :
    Leaves PipelineState.graph R (runPass q root) := fun s ↦ hq root s.graph

theorem leaves_runRequired (hR : Frame R) (hp : ∀ q ∈ p.provided ++ p.passes, q.Leaves R)
    {requiredBy : String} (names : List String) (root : NodeId) :
    Leaves PipelineState.graph R (p.runRequired requiredBy names root) := by
  induction names generalizing root with
  | nil => exact .pure hR root
  | cons name rest ih =>
    rw [runRequired]
    split
    next => exact .throw hR _
    next q hfind =>
      exact (leaves_runPass (hp q (List.mem_of_find?_eq_some hfind)) root).bind hR ih

theorem leaves_checkTyped (hR : Frame R) (q : Pass) (root : NodeId) :
    Leaves PipelineState.graph R (checkTyped q root) := by
  rw [checkTyped]
  split
  next =>
    refine (Leaves.get hR).bind hR fun s ↦ ?_
    split
    next => exact .throw hR _
    next => exact .pure hR ()
  next => exact .pure hR ()

theorem leaves_runEach (hR : Frame R) (hp : ∀ q ∈ p.provided ++ p.passes, q.Leaves R)
    {passes : List Pass} (hpasses : ∀ q ∈ passes, q ∈ p.passes) (root : NodeId) :
    Leaves PipelineState.graph R (p.runEach o passes root) := by
  induction passes generalizing root with
  | nil => exact .pure hR root
  | cons q rest ih =>
    have hq := hp q (List.mem_append_right _ (hpasses q List.mem_cons_self))
    have hrest (root : NodeId) :=
      ih (fun q hq ↦ hpasses q (List.mem_cons_of_mem _ hq)) root
    rw [runEach]
    split
    next =>
      refine (leaves_runRequired hR hp _ root).bind hR fun root₁ ↦ ?_
      refine (leaves_runPass hq root₁).bind hR fun root₂ ↦ ?_
      exact (leaves_checkTyped hR q root₂).bind hR fun _ ↦ hrest root₂
    next => exact hrest root

end Pipeline

section Stock

open Pass (Action)

theorem exec_assignType (e : NodeId) (τ : TensorType) (g : Graph) :
    exec (Action.assignType e τ) g = match g.assignType e τ with
      | .ok g' => (.ok (), g')
      | .error err => (.error (.graph err), g) := by
  rw [Action.assignType, exec_bind, exec_ask]
  cases g.assignType e τ <;> rfl

theorem evolves_assignType (e : NodeId) (τ : TensorType) :
    Leaves id Graph.Evolves (Action.assignType e τ) := by
  intro g
  rw [exec_assignType]
  split
  next g' hassign => exact .single (.assign hassign)
  next => exact .refl

theorem evolves_inferNode (name : String) (e : NodeId) :
    Leaves id Graph.Evolves (Action.inferNode name e) := by
  refine (Leaves.get frame_evolves).bind frame_evolves fun g ↦ ?_
  split
  next => exact .pure frame_evolves ()
  next =>
    split
    next => exact .throw frame_evolves _
    next a _ _ =>
      exact (Leaves.ask frame_evolves _).bind frame_evolves fun τ ↦ evolves_assignType e τ

theorem evolves_stock (name : String) (level : UInt8) (required : List String) (action : Action) :
    (Pass.stock name level required action).Leaves Graph.Evolves := by
  intro root
  show Leaves id Graph.Evolves (action.perform name root)
  have hforM (es : List NodeId) :
      Leaves id Graph.Evolves (es.forM (Action.inferNode name)) := by
    induction es with
    | nil => exact .pure frame_evolves ()
    | cons e rest ih => exact (evolves_inferNode name e).bind frame_evolves fun _ ↦ ih
  cases action with
  | infer =>
    refine (Leaves.get frame_evolves).bind frame_evolves fun g ↦ ?_
    exact (hforM _).bind frame_evolves fun _ ↦ .pure frame_evolves root
  | assign type? =>
    cases type? with
    | none => exact .pure frame_evolves root
    | some τ =>
      exact (evolves_assignType root τ).bind frame_evolves fun _ ↦ .pure frame_evolves root
  | wrap type? => exact .push frame_evolves _
  | firstArg => exact (Leaves.get frame_evolves).bind frame_evolves fun g ↦ .pure frame_evolves _
  | identity => exact .pure frame_evolves root
  | fail => exact .throw frame_evolves _

end Stock

/-- Whatever the outcome, simplification leaves the nodes that were there as they were, types
included. Rules and passes that only make nodes and give types, such as those of the library, leave
every node what it is, and a type that has been given at any time stays. A type that is refused
changes nothing. -/
theorem runs_leave_nodes :
    (∀ rounds root (g : Graph), let h := (exec (simplify rounds root) g).2
      g.nodes.toList <+: h.nodes.toList ∧ h.catalog = g.catalog) ∧
    (∀ (s : RuleSet) root (g : Graph), (∀ r ∈ s.rules, r.Leaves Graph.Evolves) →
      g.Evolves (exec (s.runOn root) g).2) ∧
    (∀ (p : Pipeline) o root (s : PipelineState),
      (∀ q ∈ p.provided ++ p.passes, q.Leaves Graph.Evolves) →
        s.graph.Evolves (exec (p.run o root) s).2.graph) ∧
    (∀ rounds, (Pass.simplifyExpr rounds).Leaves Graph.Evolves) ∧
    (∀ name level required action,
      (Pass.stock name level required action).Leaves Graph.Evolves) ∧
    (∀ g h : Graph, g.Evolves h → g.Extends h) ∧
    ∀ e τ (g g' : Graph) err, exec (Pass.Action.assignType e τ) g = (.error err, g') → g' = g := by
  refine ⟨fun rounds root g ↦ ?_, fun s root g hs ↦ ?_, fun p o root s hp ↦ ?_, ?_, evolves_stock,
    ?_, ?_⟩
  · have hgrows : g.Grows (exec (simplify rounds root) g).2 :=
      leaves_simplify frame_grows rounds root g
    exact ⟨hgrows.nodes_prefix, hgrows.catalog⟩
  · exact RuleSet.leaves_runOn frame_evolves hs root g
  · exact Pipeline.leaves_runEach frame_evolves hp (fun q hq ↦ hq) root s
  · exact leaves_simplifyExpr frame_evolves
  · exact fun g h ↦ Graph.Evolves.extends
  · intro e τ g g' err h
    rw [exec_assignType] at h
    split at h
    next => cases h
    next => exact (Prod.mk.inj h).2.symm

section Retyping

def vector (n : Word) : TensorType := .ofStatic [n] ⟨.int, 32, 1⟩

def negation (type? : Option TensorType) : Graph where
  nodes := #[.var "x" (vector 2), .call Op.negative [0] [] type?]

def retyping : Pipeline where
  passes := [.stock "Type" 0 [] (.assign (some (vector 2))),
    .stock "Retype" 0 [] (.assign (some (vector 3)))]

theorem runs_leave_nodes_retyping :
    let s : PipelineState := ⟨negation none, #[]⟩
    (∀ q ∈ retyping.provided ++ retyping.passes, q.Leaves Graph.Evolves) ∧
      (exec (retyping.run {} 1) s).1 = .error (.graph (.typeConflict 1 (vector 2) (vector 3))) ∧
      (exec (retyping.run {} 1) s).2.graph = negation (some (vector 2)) ∧
      (negation none).Extends (negation (some (vector 2))) := by
  intro s
  have hpasses : ∀ q ∈ retyping.provided ++ retyping.passes, q.Leaves Graph.Evolves := by
    simp only [retyping, List.nil_append, List.forall_mem_cons]
    exact ⟨evolves_stock _ _ _ _, evolves_stock _ _ _ _, nofun⟩
  have hgraph : (exec (retyping.run {} 1) s).2.graph = negation (some (vector 2)) := by decide +kernel
  have hevolves := runs_leave_nodes.2.2.1 retyping {} 1 s hpasses
  rw [hgraph] at hevolves
  exact ⟨hpasses, by decide +kernel, hgraph, runs_leave_nodes.2.2.2.2.2.1 _ _ hevolves⟩

end Retyping

end TensorOpt
