import TensorOpt.Proofs.Rule.Failures

namespace TensorOpt.RuleSet

variable {g g' : Graph} {pre post e e' root : NodeId} {f : NodeId → NodeId} {s : RuleSet}
  {p : Progress} {done : Replacements} {r : Rule} {b : Bindings}

section Leave

theorem exec_attempt_none (h : p.graph.firstMatch? s.rules pre = none) :
    exec (s.attempt pre post f) p = (.ok none, p) := by
  rw [attempt, exec_bind, exec_graph]
  simp only [h]
  rfl

theorem exec_attempt_some (h : p.graph.firstMatch? s.rules pre = some (r, b))
    (happly : exec (r.apply pre post (b.map f)) p.graph = (.ok e, g')) :
    exec (s.attempt pre post f) p =
      (.ok (some (r, e)), ⟨g', p.events.push (.fired r.name pre post (some e))⟩) := by
  rw [attempt, exec_bind, exec_graph]
  simp only [h]
  refine exec_bind_ok.2 ⟨e, _, ?_, rfl⟩
  rw [exec_fire, happly]
  rfl

/-- What no rule matches is not looked at again. -/
theorem exec_settle_none (h : p.graph.firstMatch? s.rules e = none) (rounds : Nat) :
    exec (s.settle rounds e) p = (.ok e, p) := by
  cases rounds with
  | zero => rfl
  | succ n => exact exec_bind_ok.2 ⟨none, p, exec_attempt_none h, rfl⟩

/-- A node whose arguments stay is not made anew. -/
theorem exec_rebuild_same (hargs : ∀ a ∈ g.args e, done.apply a = a) :
    exec (rebuild done e) g = (.ok e, g) := by
  rw [rebuild, exec_bind, exec_get]
  cases hn : g.node? e with
  | none =>
    simp only [hn]
    rfl
  | some n =>
    rw [Graph.args_of_node? hn] at hargs
    have hsame : n.args.map done.apply = n.args :=
      (List.map_congr_left hargs).trans (List.map_id' _)
    simp only [hn, if_pos hsame]
    rfl

theorem exec_leave_none (hrebuild : exec (rebuild done e) p.graph = (.ok post, g))
    (h : g.firstMatch? s.rules e = none) :
    exec (Run.build (rebuild done e) >>= s.visit done e) p =
      (.ok post, ⟨g, p.events.push (.visited e post)⟩) := by
  rw [exec_bind, exec_build, hrebuild]
  exact exec_bind_ok.2 ⟨(), _, exec_note _ _, exec_bind_ok.2 ⟨none, _, exec_attempt_none h, rfl⟩⟩

/-- What a rule changes is looked at in the next round. -/
theorem exec_settle_some {rounds : Nat} (h : p.graph.firstMatch? s.rules e = some (r, b))
    (happly : exec (r.apply e e (b.map id)) p.graph = (.ok e', g')) (hne : e' ≠ e) :
    exec (s.settle (rounds + 1) e) p =
      exec (s.settle rounds e') ⟨g', p.events.push (.fired r.name e e (some e'))⟩ := by
  rw [settle, exec_bind, exec_attempt_some h happly]
  exact congrArg (exec · _) (if_neg hne)

theorem exec_leave_some (hrebuild : exec (rebuild done e) p.graph = (.ok post, g))
    (h : g.firstMatch? s.rules e = some (r, b))
    (happly : exec (r.apply e post (b.map fun a ↦ if a = e then post else done.apply a)) g =
      (.ok e', g')) :
    exec (Run.build (rebuild done e) >>= s.visit done e) p =
      exec (if r.recursive ∧ e' ≠ post then s.settle s.rounds e' else pure e')
        ⟨g', (p.events.push (.visited e post)).push (.fired r.name e post (some e'))⟩ := by
  have hattempt := exec_attempt_some (p := ⟨g, p.events.push (.visited e post)⟩) h happly
  rw [exec_bind, exec_build, hrebuild]
  show exec (s.visit done e post) ⟨g, p.events⟩ = _
  rw [visit, exec_bind, exec_note]
  simp only
  rw [exec_bind, hattempt]

/-- What a rule gives stays if no rule matches it. -/
theorem exec_leave_settled (hrebuild : exec (rebuild done e) p.graph = (.ok post, g))
    (h : g.firstMatch? s.rules e = some (r, b))
    (happly : exec (r.apply e post (b.map fun a ↦ if a = e then post else done.apply a)) g =
      (.ok e', g'))
    (hsettled : e' = post ∨ g'.firstMatch? s.rules e' = none) :
    exec (Run.build (rebuild done e) >>= s.visit done e) p =
      (.ok e', ⟨g', (p.events.push (.visited e post)).push (.fired r.name e post (some e'))⟩) := by
  rw [exec_leave_some hrebuild h happly]
  split
  next hagain => exact exec_settle_none (hsettled.resolve_left hagain.2) s.rounds
  next => rfl

end Leave

section Related

variable {Q : Graph → NodeId → NodeId → Prop}

/-- Leaving a node succeeds, with something related to it, if all that it depends on has been
replaced by what is related to that. -/
def Relates (s : RuleSet) (g : Graph) (root : NodeId) (Q : Graph → NodeId → NodeId → Prop) : Prop :=
  ∀ ⦃done e p⦄, g.Reaches root e → g.Grows p.graph →
    (∀ a, Relation.TransGen g.HasArg e a → Q p.graph a (Replacements.apply done a)) →
      ∃ e' p', exec (Run.build (rebuild done e) >>= s.visit done e) p = (.ok e', p') ∧
        p.graph.Grows p'.graph ∧ Q p'.graph e e'

/-- All that has been visited stays related to what has taken its place. -/
theorem Searches.related {tasks : List Graph.Task} {out : Except RuleError Replacements × Progress}
    (hs : s.Relates g root Q)
    (hQ : ∀ {h k : Graph} {e e' : NodeId}, h.Grows k → Q h e e' → Q k e e')
    (hclosed : g.Closed root) (hg : g.Grows p.graph)
    (hdone : ∀ a ∈ done, Q p.graph a (done.apply a)) (hargs : ∀ e ∈ done, ∀ a ∈ g.args e, a ∈ done)
    (htasks : ∀ t ∈ tasks, g.Reaches root t.node) (hordered : Ordered g (· ∈ done) tasks)
    (h : s.Searches tasks done p out) :
    ∃ done' p', out = (.ok done', p') ∧ p.graph.Grows p'.graph ∧
      (∀ a, a ∈ done ∨ (∃ t ∈ tasks, t.node = a) → Q p'.graph a (Replacements.apply done' a)) := by
  induction h with
  | @finish done p =>
    refine ⟨done, p, rfl, .refl _, fun a ha ↦ hdone a (ha.resolve_right ?_)⟩
    rintro ⟨t, ht, -⟩
    cases ht
  | skip hmem _ ih =>
    obtain ⟨done', p', rfl, hgrows, hrelated⟩ := ih hg hdone hargs
      (fun t ht ↦ htasks t (List.mem_cons_of_mem _ ht)) (hordered.skip hmem)
    refine ⟨done', p', rfl, hgrows, fun a ha ↦ hrelated a ?_⟩
    rcases ha with ha | ⟨t, ht, rfl⟩
    · exact .inl ha
    · rcases List.mem_cons.1 ht with rfl | ht
      · exact .inl hmem
      · exact .inr ⟨t, ht, rfl⟩
  | @enter e n _ _ p _ _ hn _ ih =>
    have hreach : g.Reaches root e := htasks _ List.mem_cons_self
    obtain ⟨n₀, hn₀⟩ := Graph.node?_of_lt (hclosed e hreach)
    cases (hg.node? hn₀).symm.trans hn
    have hreach' : ∀ a ∈ n.args, g.Reaches root a := fun a ha ↦
      hreach.tail ((Graph.hasArg_iff hn₀).2 ha)
    obtain ⟨done', p', rfl, hgrows, hrelated⟩ := ih hg hdone hargs
      (Graph.forall_node_open htasks hreach') (hordered.open hn₀)
    refine ⟨done', p', rfl, hgrows, fun a ha ↦ hrelated a (ha.imp_right ?_)⟩
    rintro ⟨t, ht, rfl⟩
    rcases List.mem_cons.1 ht with rfl | ht
    · exact ⟨.leave e, List.mem_append_right _ List.mem_cons_self, rfl⟩
    · exact ⟨t, List.mem_append_right _ (List.mem_cons_of_mem _ ht), rfl⟩
  | @leave e e' _ done _ p₁ _ _ hvisit _ ih =>
    obtain ⟨_, _, hvisit', hgrows, he'⟩ := hs (htasks _ List.mem_cons_self) hg fun a ha ↦
      hdone a (Replacements.mem_of_transGen hargs hordered.1 ha)
    cases hvisit.symm.trans hvisit'
    have hdone' : ∀ a ∈ done.insert e e',
        Q p₁.graph a (Replacements.apply (done.insert e e') a) := by
      intro a ha
      rw [Replacements.apply_insert]
      split
      next heq => exact heq ▸ he'
      next hne =>
        have ha := (Replacements.mem_insert.1 ha).resolve_right fun h ↦ hne h.symm
        exact hQ hgrows (hdone a ha)
    have hargs' : ∀ b ∈ done.insert e e', ∀ a ∈ g.args b, a ∈ done.insert e e' := by
      intro b hb a ha
      refine Replacements.mem_insert.2 (.inl ?_)
      rcases Replacements.mem_insert.1 hb with hb | rfl
      · exact hargs b hb a ha
      · exact hordered.1 a ha
    obtain ⟨done', p', rfl, hgrows', hrelated⟩ := ih (hg.trans hgrows) hdone' hargs'
      (fun t ht ↦ htasks t (List.mem_cons_of_mem _ ht))
      (hordered.2.mono fun a ha ↦ Replacements.mem_insert.2 ha)
    refine ⟨done', p', rfl, hgrows.trans hgrows', fun a ha ↦ hrelated a ?_⟩
    rcases ha with ha | ⟨t, ht, rfl⟩
    · exact .inl (Replacements.mem_insert.2 (.inl ha))
    · rcases List.mem_cons.1 ht with rfl | ht
      · exact .inl (Replacements.mem_insert.2 (.inr rfl))
      · exact .inr ⟨t, ht, rfl⟩
  | fail _ hvisit =>
    obtain ⟨_, _, hvisit', -⟩ := hs (htasks _ List.mem_cons_self) hg fun a ha ↦
      hdone a (Replacements.mem_of_transGen hargs hordered.1 ha)
    cases hvisit.symm.trans hvisit'

theorem runOn_related (hs : s.Relates g root Q)
    (hQ : ∀ {h k : Graph} {e e' : NodeId}, h.Grows k → Q h e e' → Q k e e')
    (hmakes : ∀ r ∈ s.rules, r.OnlyMakes) (hclosed : g.Closed root) (hacyclic : g.Acyclic root) :
    ∃ e' g', exec (s.runOn root) g = (.ok e', g') ∧ g.Grows g' ∧ Q g' root e' := by
  obtain ⟨done, p, hwalk, hgrows, hrelated⟩ := (searches_walk hmakes hclosed hacyclic).related hs hQ
    hclosed (.refl g) (fun a ha ↦ absurd ha Std.TreeMap.not_mem_emptyc)
    (fun a ha ↦ absurd ha Std.TreeMap.not_mem_emptyc) (reaches_enter g root) trivial
  refine ⟨done.apply root, p.graph, ?_, hgrows, hrelated root (.inr ⟨_, List.mem_cons_self, rfl⟩)⟩
  rw [exec_runOn, hwalk]
  rfl

end Related

end TensorOpt.RuleSet
