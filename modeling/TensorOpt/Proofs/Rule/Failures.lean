import TensorOpt.Proofs.Rule.Visits

namespace TensorOpt

variable {M : Type*} {A : Semantics M} {P : RuleError → Prop} {g₀ g : Graph}
  {pre post e root : NodeId} {m : M} {f : NodeId → NodeId} {s : RuleSet} {p : Progress}
  {done : Replacements}

def Rule.FailsWith (A : Semantics M) (g₀ : Graph) (P : RuleError → Prop) (r : Rule) : Prop :=
  ∀ ⦃g pre post m b f⦄, g₀.Grows g → r.pattern.match? g pre = some b → Means A g pre m →
    Replaces A g pre post f → Except.FailsWith P (exec (r.apply pre post (b.map f)) g).1

namespace RuleSet

theorem attempt_failsWith (hs : ∀ r ∈ s.rules, r.FailsWith A g₀ P) (hg : g₀.Grows p.graph)
    (hpre : Means A p.graph pre m) (hf : Replaces A p.graph pre post f) :
    Except.FailsWith P (exec (s.attempt pre post f) p).1 := by
  rw [attempt, exec_bind, exec_graph]
  simp only
  split
  next => exact .ok none
  next r b hfirst =>
    obtain ⟨hr, hmatch⟩ := firstMatch?_eq_some hfirst
    refine .exec_bind ?_ fun e _ _ ↦ .ok (some (r, e))
    rw [exec_fire]
    exact hs r hr hg hmatch hpre hf

theorem settle_failsWith (hs : ∀ r ∈ s.rules, r.Preserves A g₀)
    (hs' : ∀ r ∈ s.rules, r.FailsWith A g₀ P) (rounds : Nat) (hg : g₀.Grows p.graph)
    (he : Means A p.graph e m) : Except.FailsWith P (exec (s.settle rounds e) p).1 := by
  induction rounds generalizing e p with
  | zero => exact .ok e
  | succ n ih =>
    rw [settle]
    refine .exec_bind (attempt_failsWith hs' hg he (.refl _ e)) fun o p₁ hattempt ↦ ?_
    obtain ⟨hgrows, ho⟩ := attempt_means hs hg he (.refl _ e) hattempt
    split
    next r e₁ =>
      split
      next => exact .ok e
      next => exact ih (hg.trans hgrows) (ho _ rfl)
    next => exact .ok e

theorem visit_failsWith (hs : ∀ r ∈ s.rules, r.Preserves A g₀)
    (hs' : ∀ r ∈ s.rules, r.FailsWith A g₀ P) (hg : g₀.Grows p.graph)
    (hpre : Means A p.graph pre m)
    (hf : Replaces A p.graph pre post fun e ↦ if e = pre then post else done.apply e) :
    Except.FailsWith P (exec (s.visit done pre post) p).1 := by
  let p₀ : Progress := ⟨p.graph, p.events.push (.visited pre post)⟩
  rw [visit, exec_bind, exec_note]
  refine .exec_bind (s := p₀) (attempt_failsWith hs' hg hpre hf) fun o p₁ hattempt ↦ ?_
  obtain ⟨hgrows, ho⟩ := attempt_means (p := p₀) hs hg hpre hf hattempt
  split
  next => exact .ok post
  next r e =>
    split
    next => exact settle_failsWith hs hs' s.rounds (hg.trans hgrows) (ho _ rfl)
    next => exact .ok e

theorem leave_failsWith (hs : ∀ r ∈ s.rules, r.Preserves A g₀)
    (hs' : ∀ r ∈ s.rules, r.FailsWith A g₀ P) (hdone : Visited A g₀ p.graph done)
    (he : Means A g₀ e m) (hargs : ∀ a ∈ g₀.args e, a ∈ done) :
    Except.FailsWith P (exec (Run.build (rebuild done e) >>= s.visit done e) p).1 := by
  obtain ⟨n, hn⟩ := (he.grow hdone.grows).exists_node?
  obtain ⟨post, g, hrebuild, -⟩ := exec_rebuild done e p.graph
  obtain ⟨hgrows, hpost⟩ := rebuild_node? hn hrebuild
  have hg : g₀.Grows g := hdone.grows.trans hgrows
  rw [exec_bind, exec_build, hrebuild]
  exact visit_failsWith (p := ⟨g, p.events⟩) hs hs' hg (he.grow hg)
    (hdone.replaces he hargs hn hgrows hpost)

/-- While the search goes on what has been visited means what has taken its place, and the arguments
of a node have been visited when it is left. -/
theorem Searches.failsWith {tasks : List Graph.Task}
    {out : Except RuleError Replacements × Progress}
    (hs : ∀ r ∈ s.rules, r.Preserves A g₀) (hs' : ∀ r ∈ s.rules, r.FailsWith A g₀ P)
    (hdone : Visited A g₀ p.graph done) (htasks : ∀ t ∈ tasks, ∃ m, Means A g₀ t.node m)
    (hordered : Ordered g₀ (· ∈ done) tasks) (h : s.Searches tasks done p out) :
    Except.FailsWith P out.1 := by
  induction h with
  | finish => exact .ok _
  | skip hmem _ ih =>
    exact ih hdone (fun t ht ↦ htasks t (List.mem_cons_of_mem _ ht)) (hordered.skip hmem)
  | @enter e n _ _ p _ _ hn _ ih =>
    obtain ⟨m, he⟩ := htasks _ List.mem_cons_self
    obtain ⟨n₀, hn₀⟩ := he.exists_node?
    cases (hdone.grows.node? hn₀).symm.trans hn
    exact ih hdone (exists_means_open htasks hn₀) (hordered.open hn₀)
  | leave _ hvisit _ ih =>
    obtain ⟨m, he⟩ := htasks _ List.mem_cons_self
    obtain ⟨post, p₁, hbuild, hvisit⟩ := exec_bind_ok.1 hvisit
    refine ih (hdone.leave hs he hordered.1 hbuild hvisit)
      (fun t ht ↦ htasks t (List.mem_cons_of_mem _ ht)) ?_
    exact hordered.2.mono fun a ha ↦ Replacements.mem_insert.2 ha
  | @fail e _ _ _ _ err _ hvisit =>
    obtain ⟨m, he⟩ := htasks _ List.mem_cons_self
    have hleave := leave_failsWith (e := e) hs hs' hdone he hordered.1
    rw [hvisit] at hleave
    exact .error (hleave err rfl)

theorem searches_walk (hs : ∀ r ∈ s.rules, r.OnlyMakes) (hclosed : g.Closed root)
    (hacyclic : g.Acyclic root) : s.Searches [.enter root] {} ⟨g, #[]⟩
      (exec (s.walk g.bound [.enter root] {} {}) ⟨g, #[]⟩) :=
  (walk_visits_postOrder (fun r hr ↦ (hs r hr).keeps) hclosed hacyclic).1

theorem runOn_failsWith (hs : ∀ r ∈ s.rules, r.Preserves A g)
    (hs' : ∀ r ∈ s.rules, r.FailsWith A g P) (hmakes : ∀ r ∈ s.rules, r.OnlyMakes)
    (hclosed : g.Closed root) (hacyclic : g.Acyclic root) (hroot : Means A g root m) :
    Except.FailsWith P (exec (s.runOn root) g).1 := by
  have hsearches := searches_walk hmakes hclosed hacyclic
  have hfails := hsearches.failsWith hs hs' .empty (exists_means_enter hroot) trivial
  rw [exec_runOn]
  intro err herr
  generalize exec (s.walk g.bound [.enter root] {} {}) ⟨g, #[]⟩ = out at hfails herr
  obtain ⟨_ | done, p'⟩ := out
  · cases herr
    exact hfails err rfl
  · cases herr

end RuleSet

end TensorOpt
