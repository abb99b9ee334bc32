import TensorOpt.Proofs.Graph.Exec
import TensorOpt.Proofs.Graph.Meaning
import TensorOpt.Proofs.Pattern.Match
import TensorOpt.Rule.Engine

namespace TensorOpt

variable {M : Type*} {A : Semantics M} {g₀ g g' : Graph} {pre post e e' : NodeId} {m : M}
  {f : NodeId → NodeId} {s : RuleSet} {p p' : Progress}

/-- `post` is `pre` over what `f` gives for the arguments, and whatever `pre` reaches means the same
as what `f` gives for it. -/
structure Replaces (A : Semantics M) (g : Graph) (pre post : NodeId) (f : NodeId → NodeId) :
    Prop where
  self : f pre = post
  node? : ∀ {n}, g.node? pre = some n → g.node? post = some (n.withArgs (n.args.map f))
  means : ∀ {e m}, g.Reaches pre e → Means A g e m → Means A g (f e) m

namespace Replaces

theorem refl (g : Graph) (e : NodeId) : Replaces A g e e id where
  self := rfl
  node? hn := by rw [List.map_id, Node.withArgs_args, hn]
  means _ he := he

theorem means_post (h : Replaces A g pre post f) (hpre : Means A g pre m) : Means A g post m :=
  h.self ▸ h.means .refl hpre

end Replaces

/-- Whenever the engine applies the rule in a graph grown from `g₀`, what it gives means the same as
the node whose place it takes. -/
def Rule.Preserves (A : Semantics M) (g₀ : Graph) (r : Rule) : Prop :=
  ∀ ⦃g g' pre post e m b f⦄, g₀.Grows g → r.pattern.match? g pre = some b → Means A g pre m →
    Replaces A g pre post f → exec (r.apply pre post (b.map f)) g = (.ok e, g') →
      g.Grows g' ∧ Means A g' e m

section Run

variable {α : Type} {a : α}

@[simp]
theorem exec_graph (p : Progress) : exec Run.graph p = (.ok p.graph, p) := rfl

@[simp]
theorem exec_note (event : Event) (p : Progress) :
    exec (Run.note event) p = (.ok (), ⟨p.graph, p.events.push event⟩) := rfl

theorem exec_build (x : Build RuleError α) (p : Progress) : exec (Run.build x) p =
    ((exec x p.graph).1, ⟨(exec x p.graph).2, p.events⟩) := rfl

theorem exec_fire (r : Rule) (pre post : NodeId) (b : Bindings) (p : Progress) :
    exec (Run.fire r pre post b) p = ((exec (r.apply pre post b) p.graph).1,
      ⟨(exec (r.apply pre post b) p.graph).2,
        p.events.push (.fired r.name pre post (exec (r.apply pre post b) p.graph).1.toOption)⟩) :=
  rfl

theorem exec_runOn_run (s : RuleSet) (root : NodeId) (g : Graph) : exec (s.runOn root) g =
    ((exec (s.run root) ⟨g, #[]⟩).1, (exec (s.run root) ⟨g, #[]⟩).2.graph) := rfl

theorem exec_of_build {x : Build RuleError α} (h : exec (Run.build x) p = (.ok a, p')) :
    exec x p.graph = (.ok a, p'.graph) := by
  have hpair := Prod.mk.inj h
  exact Prod.ext hpair.1 (congrArg Progress.graph hpair.2)

theorem exec_of_fire {r : Rule} {b : Bindings} (h : exec (Run.fire r pre post b) p = (.ok e, p')) :
    exec (r.apply pre post b) p.graph = (.ok e, p'.graph) := by
  have hpair := Prod.mk.inj h
  exact Prod.ext hpair.1 (congrArg Progress.graph hpair.2)

theorem exec_of_runOn {root r : NodeId} (h : exec (s.runOn root) g = (.ok r, g')) :
    ∃ events, exec (s.run root) ⟨g, #[]⟩ = (.ok r, ⟨g', events⟩) := by
  rw [exec_runOn_run, Prod.mk.injEq] at h
  refine ⟨(exec (s.run root) ⟨g, #[]⟩).2.events, Prod.ext h.1 ?_⟩
  show (exec (s.run root) ⟨g, #[]⟩).2 = ⟨g', _⟩
  rw [← h.2]

end Run

theorem exec_checkedType {τ : TensorType} (htype : g.type? e = some τ) :
    exec (Rule.checkedType e) g = (.ok τ, g) := by
  rw [Rule.checkedType, exec_ask, Graph.checkedType, htype]
  rfl

theorem exec_of_checkedType {τ : TensorType} (h : exec (Rule.checkedType e) g = (.ok τ, g')) :
    g.type? e = some τ ∧ g = g' := by
  rw [Rule.checkedType, exec_ask, Prod.mk.injEq, Except.mapError_eq_ok, Graph.checkedType] at h
  obtain ⟨htype, rfl⟩ := h
  split at htype
  next τ' hτ' =>
    cases htype
    exact ⟨hτ', rfl⟩
  next => cases htype

theorem firstMatch?_eq_some {rules : List Rule} {r : Rule} {b : Bindings}
    (h : g.firstMatch? rules e = some (r, b)) : r ∈ rules ∧ r.pattern.match? g e = some b := by
  obtain ⟨r', hr', h⟩ := List.exists_of_findSome?_eq_some h
  obtain ⟨b', hb', h⟩ := Option.map_eq_some_iff.1 h
  cases h
  exact ⟨hr', hb'⟩

namespace RuleSet

theorem attempt_means {o : Option (Rule × NodeId)} (hs : ∀ r ∈ s.rules, r.Preserves A g₀)
    (hg : g₀.Grows p.graph) (hpre : Means A p.graph pre m) (hf : Replaces A p.graph pre post f)
    (h : exec (s.attempt pre post f) p = (.ok o, p')) :
    p.graph.Grows p'.graph ∧ ∀ q ∈ o, Means A p'.graph q.2 m := by
  simp only [attempt, exec_bind_ok, exec_graph] at h
  obtain ⟨_, _, hgraph, h⟩ := h
  cases hgraph
  split at h
  next =>
    cases h
    exact ⟨.refl _, fun q hq ↦ absurd hq (Option.not_mem_none q)⟩
  next r b hfirst =>
    simp only [exec_bind_ok, exec_pure] at h
    obtain ⟨e, _, hfire, h⟩ := h
    cases h
    obtain ⟨hr, hmatch⟩ := firstMatch?_eq_some hfirst
    obtain ⟨hgrows, he⟩ := hs r hr hg hmatch hpre hf (exec_of_fire hfire)
    refine ⟨hgrows, fun q hq ↦ ?_⟩
    cases Option.mem_some.1 hq
    exact he

theorem settle_means (hs : ∀ r ∈ s.rules, r.Preserves A g₀) (rounds : Nat)
    (hg : g₀.Grows p.graph) (he : Means A p.graph e m)
    (h : exec (s.settle rounds e) p = (.ok e', p')) :
    p.graph.Grows p'.graph ∧ Means A p'.graph e' m := by
  induction rounds generalizing e p with
  | zero =>
    cases h
    exact ⟨.refl _, he⟩
  | succ n ih =>
    simp only [settle, exec_bind_ok] at h
    obtain ⟨o, p₁, hattempt, h⟩ := h
    obtain ⟨hgrows, ho⟩ := attempt_means hs hg he (.refl _ e) hattempt
    split at h
    next r e₁ =>
      split at h
      next =>
        cases h
        exact ⟨hgrows, he.grow hgrows⟩
      next =>
        obtain ⟨hgrows', he'⟩ := ih (hg.trans hgrows) (ho _ rfl) h
        exact ⟨hgrows.trans hgrows', he'⟩
    next =>
      cases h
      exact ⟨hgrows, he.grow hgrows⟩

theorem visit_means {done : Replacements} (hs : ∀ r ∈ s.rules, r.Preserves A g₀)
    (hg : g₀.Grows p.graph) (hpre : Means A p.graph pre m)
    (hf : Replaces A p.graph pre post fun e ↦ if e = pre then post else done.apply e)
    (h : exec (s.visit done pre post) p = (.ok e, p')) :
    p.graph.Grows p'.graph ∧ Means A p'.graph e m := by
  simp only [visit, exec_bind_ok, exec_note] at h
  obtain ⟨_, p₁, hnote, o, p₂, hattempt, h⟩ := h
  have hp₁ : p₁.graph = p.graph := congrArg (·.2.graph) hnote.symm
  rw [← hp₁] at hg hpre hf ⊢
  obtain ⟨hgrows, ho⟩ := attempt_means hs hg hpre hf hattempt
  split at h
  next =>
    cases h
    exact ⟨hgrows, (hf.means_post hpre).grow hgrows⟩
  next r e₁ =>
    split at h
    next =>
      obtain ⟨hgrows', he⟩ := settle_means hs s.rounds (hg.trans hgrows) (ho _ rfl) h
      exact ⟨hgrows.trans hgrows', he⟩
    next =>
      cases h
      exact ⟨hgrows, ho _ rfl⟩

theorem rebuild_node? {done : Replacements} {n : Node} (hn : g.node? pre = some n)
    (h : exec (rebuild done pre) g = (.ok post, g')) :
    g.Grows g' ∧ g'.node? post = some (n.withArgs (n.args.map done.apply)) := by
  simp only [rebuild, exec_bind_ok, exec_get] at h
  obtain ⟨_, _, hget, h⟩ := h
  cases hget
  simp only [hn] at h
  split at h
  next hargs =>
    cases h
    rw [hargs, Node.withArgs_args]
    exact ⟨.refl _, hn⟩
  next =>
    cases h
    exact ⟨.push _ _, Graph.node?_push_size _ _⟩

end RuleSet

end TensorOpt
