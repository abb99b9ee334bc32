import TensorOpt.Graph.Operators
import TensorOpt.Proofs.Graph.Traversal
import TensorOpt.Proofs.Rule.Preserves
import TensorOpt.Rule.Template

namespace TensorOpt

variable {M : Type*} {A : Semantics M} {g₀ g g' : Graph} {pre post e e' root r : NodeId} {m : M}
  {s : RuleSet} {p p' : Progress} {done done' : Replacements}

/-- The arguments of every node that is left have been visited by then, given that those for which
`visited` holds have been visited before the pending steps. -/
def Ordered (g : Graph) : (visited : NodeId → Prop) → List Graph.Task → Prop
  | _, [] => True
  | visited, .enter e :: rest => Ordered g (fun a ↦ visited a ∨ a = e) rest
  | visited, .leave e :: rest =>
    (∀ a ∈ g.args e, visited a) ∧ Ordered g (fun a ↦ visited a ∨ a = e) rest

theorem Ordered.mono {v w : NodeId → Prop} {tasks : List Graph.Task} (h : Ordered g v tasks)
    (hvw : ∀ a, v a → w a) : Ordered g w tasks := by
  induction tasks generalizing v w with
  | nil => trivial
  | cons t rest ih =>
    have hvw' (e a : NodeId) : v a ∨ a = e → w a ∨ a = e := Or.imp_left (hvw a)
    cases t with
    | enter e => exact ih (v := fun a ↦ v a ∨ a = e) h (hvw' e)
    | leave e =>
      exact ⟨fun a ha ↦ hvw a (h.1 a ha), ih (v := fun a ↦ v a ∨ a = e) h.2 (hvw' e)⟩

theorem ordered_enter_append {v : NodeId → Prop} {args : List NodeId} {tasks : List Graph.Task}
    (h : Ordered g (fun a ↦ v a ∨ a ∈ args) tasks) : Ordered g v (args.map .enter ++ tasks) := by
  induction args generalizing v with
  | nil => exact h.mono fun a ha ↦ ha.resolve_right List.not_mem_nil
  | cons b rest ih =>
    refine ih (v := fun a ↦ v a ∨ a = b) (h.mono fun a ha ↦ ?_)
    rw [or_assoc, ← List.mem_cons]
    exact ha

theorem Ordered.skip {v : NodeId → Prop} {t : Graph.Task} {rest : List Graph.Task}
    (h : Ordered g v (t :: rest)) (ht : v t.node) : Ordered g v rest := by
  have hmono (e : NodeId) (he : v e) (a : NodeId) : v a ∨ a = e → v a := by
    rintro (ha | rfl)
    · exact ha
    · exact he
  cases t with
  | enter e => exact Ordered.mono h (hmono e ht)
  | leave e => exact h.2.mono (hmono e ht)

theorem Ordered.open {n : Node} {rest : List Graph.Task}
    (h : Ordered g (· ∈ done) (.enter e :: rest)) (hn : g.node? e = some n) :
    Ordered g (· ∈ done) ((n.args.filter (· ∉ done)).map .enter ++ .leave e :: rest) := by
  refine ordered_enter_append ⟨fun a ha ↦ ?_, Ordered.mono h fun a ha ↦ ha.imp_left .inl⟩
  rw [Graph.args_of_node? hn] at ha
  by_cases hdone : a ∈ done
  · exact .inl hdone
  · exact .inr (List.mem_filter.2 ⟨ha, decide_eq_true hdone⟩)

/-- What is known of the nodes visited so far: each of them means the same as what has taken its
place, and their arguments have been visited too. -/
structure Visited (A : Semantics M) (g₀ g : Graph) (done : Replacements) : Prop where
  grows : g₀.Grows g
  means : ∀ {e}, e ∈ done → ∃ m, Means A g₀ e m ∧ Means A g (done.apply e) m
  args : ∀ {e a}, e ∈ done → a ∈ g₀.args e → a ∈ done

theorem Replacements.apply_insert (done : Replacements) (e e' a : NodeId) :
    Replacements.apply (done.insert e e') a = if e = a then e' else done.apply a := by
  simp only [Replacements.apply, Std.TreeMap.getD_insert, Std.compare_eq_iff_eq]

theorem Replacements.mem_insert {a : NodeId} : a ∈ done.insert e e' ↔ a ∈ done ∨ a = e := by
  rw [Std.TreeMap.mem_insert, Std.compare_eq_iff_eq, or_comm, eq_comm]

/-- Where the arguments of all that has been visited have been visited too, a node has nothing left
to wait for once its own arguments have been visited. -/
theorem Replacements.mem_of_transGen {a : NodeId} (hdone : ∀ e ∈ done, ∀ a ∈ g.args e, a ∈ done)
    (hargs : ∀ a ∈ g.args e, a ∈ done) (ha : Relation.TransGen g.HasArg e a) : a ∈ done := by
  induction ha with
  | single ha => exact hargs _ ha
  | tail _ ha ih => exact hdone _ ih _ ha

theorem Visited.empty : Visited A g₀ g₀ {} where
  grows := .refl g₀
  means he := absurd he Std.TreeMap.not_mem_emptyc
  args he := absurd he Std.TreeMap.not_mem_emptyc

theorem Visited.mem_of_reaches (h : Visited A g₀ g done) (hargs : ∀ a ∈ g₀.args e, a ∈ done)
    {a : NodeId} (hea : g₀.Reaches e a) : a = e ∨ a ∈ done :=
  (Relation.reflTransGen_iff_eq_or_transGen.1 hea).imp_right
    (Replacements.mem_of_transGen (fun _ he _ ha ↦ h.args he ha) hargs)

theorem Visited.replaces (h : Visited A g₀ g done) (hpre : Means A g₀ pre m)
    (hargs : ∀ a ∈ g₀.args pre, a ∈ done) {n : Node} (hn : g.node? pre = some n) (hg : g.Grows g')
    (hpost : g'.node? post = some (n.withArgs (n.args.map done.apply))) :
    Replaces A g' pre post fun e ↦ if e = pre then post else done.apply e := by
  have hgrows : g₀.Grows g' := h.grows.trans hg
  have hdone {a : NodeId} {m' : M} (ha : a ∈ done) (hm : Means A g' a m') :
      Means A g' (done.apply a) m' := by
    obtain ⟨m₀, ha₀, ha'⟩ := h.means ha
    cases (ha₀.grow hgrows).unique hm
    exact ha'.grow hg
  have hn' : g'.node? pre = some n := hg.node? hn
  -- no argument is `pre` itself, so the arguments are replaced the same way with `pre` as without
  have hself : pre ∉ n.args := by
    rw [← Graph.args_of_node? hn']
    exact (hpre.grow hgrows).not_mem_args
  have hmap :
      n.args.map done.apply = n.args.map fun e ↦ if e = pre then post else done.apply e := by
    refine List.map_congr_left fun a ha ↦ (if_neg ?_).symm
    rintro rfl
    exact hself ha
  have hargs' : ∀ a ∈ n.args, a ∈ done := by
    obtain ⟨n₀, hn₀⟩ := hpre.exists_node?
    cases (hgrows.node? hn₀).symm.trans hn'
    rwa [Graph.args_of_node? hn₀] at hargs
  refine ⟨if_pos rfl, fun hn'' ↦ ?_, fun {e m'} hreach hm ↦ ?_⟩
  · cases hn'.symm.trans hn''
    rw [hpost, hmap]
  · by_cases he : e = pre
    · subst he
      rw [if_pos rfl]
      exact hm.withArgs hn' hpost fun a ha m' hm' ↦ hdone (hargs' a ha) hm'
    · rw [if_neg he]
      have hreach₀ := hpre.reaches_of_grow hgrows hreach
      exact hdone ((h.mem_of_reaches hargs hreach₀).resolve_left he) hm

theorem Visited.insert (h : Visited A g₀ g done) (hg : g.Grows g')
    (hargs : ∀ a ∈ g₀.args e, a ∈ done) (he : Means A g₀ e m) (he' : Means A g' e' m) :
    Visited A g₀ g' (done.insert e e') := by
  refine ⟨h.grows.trans hg, fun {a} ha ↦ ?_, fun {a b} ha hb ↦ ?_⟩
  · rw [Replacements.apply_insert]
    by_cases hea : e = a
    · subst hea
      exact ⟨m, he, by rwa [if_pos rfl]⟩
    · rw [if_neg hea]
      obtain ⟨m', ha₀, ha'⟩ := h.means (Std.TreeMap.mem_of_mem_insert ha (by simpa using hea))
      exact ⟨m', ha₀, ha'.grow hg⟩
  · refine Replacements.mem_insert.2 (.inl ?_)
    rcases Replacements.mem_insert.1 ha with ha | rfl
    · exact h.args ha hb
    · exact hargs b hb

theorem Visited.leave {p₁ : Progress} (hs : ∀ r ∈ s.rules, r.Preserves A g₀)
    (hdone : Visited A g₀ p.graph done) (he : Means A g₀ e m) (hargs : ∀ a ∈ g₀.args e, a ∈ done)
    (hbuild : exec (Run.build (RuleSet.rebuild done e)) p = (.ok post, p₁))
    (hvisit : exec (s.visit done e post) p₁ = (.ok e', p')) :
    Visited A g₀ p'.graph (done.insert e e') := by
  obtain ⟨n, hn⟩ := (he.grow hdone.grows).exists_node?
  obtain ⟨hgrows, hpost⟩ := RuleSet.rebuild_node? hn (exec_of_build hbuild)
  have hg : g₀.Grows p₁.graph := hdone.grows.trans hgrows
  obtain ⟨hgrows', he'⟩ := RuleSet.visit_means hs hg (he.grow hg)
    (hdone.replaces he hargs hn hgrows hpost) hvisit
  exact hdone.insert (hgrows.trans hgrows') hargs he he'

namespace RuleSet

section Steps

variable {bound : Nat} {rest : List Graph.Task} {opened : Std.TreeSet NodeId}

theorem exec_walk_nil : exec (s.walk bound [] opened done) p = (.ok done, p) := by
  rw [walk, exec_pure]

theorem exec_walk_enter {n : Node} (hdone : e ∉ done) (hopened : e ∉ opened) (hbound : e < bound)
    (hn : p.graph.node? e = some n) :
    exec (s.walk bound (.enter e :: rest) opened done) p =
      exec (s.walk bound ((n.args.filter (· ∉ done)).map .enter ++ .leave e :: rest)
        (opened.insert e) done) p := by
  rw [walk, if_neg hdone, dif_neg hopened, dif_pos hbound, exec_bind, exec_graph]
  simp only [hn]

theorem exec_walk_leave (post e' : NodeId)
    (hbuild : (exec (Run.build (rebuild done e)) p).1 = .ok post)
    (hvisit : (exec (s.visit done e post) (exec (Run.build (rebuild done e)) p).2).1 = .ok e') :
    exec (s.walk bound (.leave e :: rest) opened done) p =
      exec (s.walk bound rest opened (done.insert e e'))
        (exec (s.visit done e post) (exec (Run.build (rebuild done e)) p).2).2 := by
  have hbuild' : exec (Run.build (rebuild done e)) p = (.ok post, _) := Prod.ext hbuild rfl
  have hvisit' : exec (s.visit done e post) _ = (.ok e', _) := Prod.ext hvisit rfl
  rw [walk, exec_bind, hbuild']
  exact (exec_bind _ _ _).trans (by rw [hvisit'])

theorem exec_walk_fail (post : NodeId) (err : RuleError)
    (hbuild : (exec (Run.build (rebuild done e)) p).1 = .ok post)
    (hvisit : (exec (s.visit done e post) (exec (Run.build (rebuild done e)) p).2).1 = .error err) :
    exec (s.walk bound (.leave e :: rest) opened done) p =
      (.error err, (exec (s.visit done e post) (exec (Run.build (rebuild done e)) p).2).2) := by
  have hbuild' : exec (Run.build (rebuild done e)) p = (.ok post, _) := Prod.ext hbuild rfl
  have hvisit' : exec (s.visit done e post) _ = (.error err, _) := Prod.ext hvisit rfl
  rw [walk, exec_bind, hbuild']
  exact (exec_bind _ _ _).trans (by rw [hvisit'])

theorem exec_walk_seen (hdone : e ∈ done) :
    exec (s.walk bound (.enter e :: rest) opened done) p =
      exec (s.walk bound rest opened done) p := by
  rw [walk, if_pos hdone]

theorem exec_run (s : RuleSet) (root : NodeId) (g : Graph) : exec (s.run root) ⟨g, #[]⟩ =
    ((exec (s.walk g.bound [.enter root] {} {}) ⟨g, #[]⟩).1.map (·.apply root),
      (exec (s.walk g.bound [.enter root] {} {}) ⟨g, #[]⟩).2) := by
  rw [run, exec_bind, exec_graph]
  simp only [exec_bind]
  rcases exec (s.walk g.bound [.enter root] {} {}) ⟨g, #[]⟩ with ⟨_ | _, _⟩ <;> rfl

theorem exec_runOn : exec (s.runOn root) g =
    Prod.map (Except.map (Replacements.apply · root)) Progress.graph
      (exec (s.walk g.bound [.enter root] {} {}) ⟨g, #[]⟩) := by
  rw [exec_runOn_run, exec_run]
  rfl

end Steps

end RuleSet

theorem exists_means_enter (hroot : Means A g₀ root m) :
    ∀ t ∈ [Graph.Task.enter root], ∃ m, Means A g₀ t.node m := by
  intro t ht
  cases List.mem_singleton.1 ht
  exact ⟨m, hroot⟩

theorem exists_means_open {n : Node} {rest : List Graph.Task} {p : NodeId → Bool}
    (h : ∀ t ∈ Graph.Task.enter e :: rest, ∃ m, Means A g₀ t.node m) (hn : g₀.node? e = some n) :
    ∀ t ∈ (n.args.filter p).map .enter ++ .leave e :: rest, ∃ m, Means A g₀ t.node m := by
  obtain ⟨m, he⟩ := h _ List.mem_cons_self
  refine Graph.forall_node_open (P := fun a ↦ ∃ m, Means A g₀ a m) h fun a ha ↦ ?_
  exact he.arg (Graph.args_of_node? hn ▸ ha : a ∈ g₀.args e)

theorem walk_visited {bound : Nat} {tasks : List Graph.Task} {opened : Std.TreeSet NodeId}
    (hs : ∀ r ∈ s.rules, r.Preserves A g₀) (hdone : Visited A g₀ p.graph done)
    (htasks : ∀ t ∈ tasks, ∃ m, Means A g₀ t.node m) (hordered : Ordered g₀ (· ∈ done) tasks)
    (h : exec (s.walk bound tasks opened done) p = (.ok done', p')) :
    Visited A g₀ p'.graph done' ∧ (∀ e ∈ done, e ∈ done') ∧ ∀ t ∈ tasks, t.node ∈ done' := by
  fun_induction RuleSet.walk s bound tasks opened done generalizing p with
  | case1 opened done =>
    cases h
    exact ⟨hdone, fun _ he ↦ he, nofun⟩
  | case2 opened done e rest ih =>
    simp only [exec_bind_ok] at h
    obtain ⟨post, p₁, hbuild, e', p₂, hvisit, h⟩ := h
    obtain ⟨m, he⟩ := htasks _ List.mem_cons_self
    have hdone' := hdone.leave hs he hordered.1 hbuild hvisit
    have hmem {a : NodeId} : a ∈ done ∨ a = e → a ∈ done.insert e e' := Replacements.mem_insert.2
    obtain ⟨hvisited, hsub, hrest⟩ := ih e' hdone'
      (fun t ht ↦ htasks t (List.mem_cons_of_mem _ ht)) (hordered.2.mono fun a ha ↦ hmem ha) h
    refine ⟨hvisited, fun a ha ↦ hsub a (hmem (.inl ha)), fun t ht ↦ ?_⟩
    rcases List.mem_cons.1 ht with rfl | ht
    · exact hsub e (hmem (.inr rfl))
    · exact hrest t ht
  | case3 opened done e rest hmem ih =>
    -- `e` is shared and has been visited from elsewhere
    obtain ⟨hvisited, hsub, hrest⟩ :=
      ih hdone (fun t ht ↦ htasks t (List.mem_cons_of_mem _ ht)) (hordered.skip hmem) h
    refine ⟨hvisited, hsub, fun t ht ↦ ?_⟩
    rcases List.mem_cons.1 ht with rfl | ht
    · exact hsub e hmem
    · exact hrest t ht
  | case4 => cases h
  | case5 opened done e rest hmem hopened hbound ih =>
    simp only [exec_bind_ok, exec_graph] at h
    obtain ⟨_, _, hgraph, h⟩ := h
    cases hgraph
    obtain ⟨m, he⟩ := htasks _ List.mem_cons_self
    obtain ⟨n, hn⟩ := he.exists_node?
    -- the search looks `e` up in the graph as it is by now, where it still has the old arguments
    have hn' : p.graph.node? e = some n := hdone.grows.node? hn
    simp only [hn'] at h
    obtain ⟨hvisited, hsub, hrest⟩ :=
      ih n hdone (exists_means_open htasks hn) (hordered.open hn) h
    refine ⟨hvisited, hsub, fun t ht ↦ ?_⟩
    rcases List.mem_cons.1 ht with rfl | ht
    · exact hrest (.leave e) (List.mem_append_right _ List.mem_cons_self)
    · exact hrest t (List.mem_append_right _ (List.mem_cons_of_mem _ ht))
  | case6 => cases h

theorem runOn_means (hs : ∀ r ∈ s.rules, r.Preserves A g₀) (hroot : Means A g₀ root m)
    (h : exec (s.runOn root) g₀ = (.ok r, g')) : g₀.Grows g' ∧ Means A g' r m := by
  obtain ⟨events, h⟩ := exec_of_runOn h
  simp only [RuleSet.run, exec_bind_ok, exec_graph, exec_pure] at h
  obtain ⟨_, _, hgraph, done, p', hwalk, h⟩ := h
  cases hgraph
  cases h
  obtain ⟨hvisited, -, hmem⟩ := walk_visited hs .empty (exists_means_enter hroot) trivial hwalk
  obtain ⟨m', hroot', hr⟩ := hvisited.means (hmem _ (List.mem_singleton_self _))
  cases hroot.unique hroot'
  exact ⟨hvisited.grows, hr⟩

def Bindings.Agree (A : Semantics M) (g : Graph) (b b' : Bindings) : Prop :=
  List.Forall₂ (fun q q' ↦ q.1 = q'.1 ∧ ∀ m, Means A g q.2 m → Means A g q'.2 m) b.log b'.log

/-- In a graph grown from `g₀` the rule only makes nodes, and it gives a node that means the same as
`pre` whenever `post` means the same as `pre` and what is bound the same as what was matched. -/
def Rule.Sound (A : Semantics M) (g₀ : Graph) (r : Rule) : Prop :=
  ∀ ⦃g g' pre post e m matched b⦄, g₀.Grows g → r.pattern.match? g pre = some matched →
    Means A g pre m → Means A g post m → matched.Agree A g b →
      exec (r.apply pre post b) g = (.ok e, g') → g.Grows g' ∧ Means A g' e m

theorem Bindings.agree_map {b : Bindings} {f : NodeId → NodeId}
    (h : ∀ q ∈ b.log, ∀ m, Means A g q.2 m → Means A g (f q.2) m) : b.Agree A g (b.map f) := by
  refine List.forall₂_map_right_iff.2 (List.forall₂_same.2 fun q hq ↦ ?_)
  exact ⟨rfl, h q hq⟩

theorem Rule.Sound.preserves {r : Rule} (h : r.Sound A g₀) : r.Preserves A g₀ := by
  intro g g' pre post e m b f hg hmatch hpre hf hexec
  refine h hg hmatch hpre (hf.means_post hpre) (Bindings.agree_map fun q hq m' hm' ↦ ?_) hexec
  exact hf.means (Pattern.reaches_of_match? hmatch hq) hm'

/-- If sound rules, however many, recursive or not and with any number of rounds, are applied to an
expression without cycles, then what they give means what the expression means. -/
theorem RuleSet.runOn_keeps_meaning (denote : Node → List M → M)
    (hs : ∀ rule ∈ s.rules, rule.Sound (.total denote) g) (hclosed : g.Closed root)
    (hacyclic : g.Acyclic root) (hrun : exec (s.runOn root) g = (.ok r, g')) :
    g.Grows g' ∧ ∃ m, ∀ m', (Means (.total denote) g root m' ↔ m' = m) ∧
      (Means (.total denote) g' r m' ↔ m' = m) := by
  obtain ⟨m, hroot⟩ := exists_means denote hacyclic hclosed
  obtain ⟨hgrows, hr⟩ := runOn_means (fun rule hrule ↦ (hs rule hrule).preserves) hroot hrun
  exact ⟨hgrows, m, fun m' ↦ ⟨hroot.iff_eq, hr.iff_eq⟩⟩

section Negations

def Rule.doubleNegation : Rule :=
  (Template.bound 0 0).toRule "DoubleNegation"
    (.call 4 (.op 3 Op.negative) [.call 2 (.op 1 Op.negative) [.wildcard 0]]) true

def negationValue (n : Node) (args : List Int) : Int :=
  match n.kind, args with
  | .var _, _ => 7
  | .call op _ _, [x] => if op = Op.negative then -x else x
  | _, _ => 0

def fourNegations : Graph where
  nodes := #[.var "x" default, .call Op.negative [0] [] none, .call Op.negative [1] [] none,
    .call Op.negative [2] [] none, .call Op.negative [3] [] none]
  catalog := .empty

theorem sound_doubleNegation (g₀ : Graph) :
    Rule.doubleNegation.Sound (.total negationValue) g₀ := by
  intro g g' pre post e m matched b hg hmatch hpre hpost hagree hexec
  obtain ⟨x, y, op, op', attrs, attrs', type?, type?', hn, hn', hop, hop', rfl⟩ :=
    Pattern.match?_call_call hmatch
  obtain rfl : Op.negative = op := of_decide_eq_true hop
  obtain rfl : Op.negative = op' := of_decide_eq_true hop'
  obtain ⟨w, hy, hm⟩ := (means_unary hn).1 hpre
  obtain ⟨v, hx, hm'⟩ := (means_unary hn').1 hy
  obtain rfl : - - v = m := by
    cases hm'
    exact Option.some.inj hm
  obtain ⟨log⟩ := b
  obtain _ | @⟨_, ⟨l, x'⟩, _, rest, ⟨hl, hx'⟩, -⟩ := hagree
  obtain rfl : 0 = l := hl
  obtain ⟨rfl, rfl⟩ : x' = e ∧ g = g' := by
    have hpair := Prod.mk.inj hexec
    exact ⟨Except.ok.inj hpair.1, hpair.2⟩
  rw [Int.neg_neg]
  exact ⟨.refl g, hx' v hx⟩

theorem RuleSet.runOn_keeps_meaning_negations :
    let s : RuleSet := ⟨[.doubleNegation], 8⟩
    let g := fourNegations
    let g' := (g.push (.call Op.negative [0] [] none)).push (.call Op.negative [1] [] none)
    (∀ rule ∈ s.rules, rule.Sound (.total negationValue) g) ∧ g.Closed 4 ∧ g.Acyclic 4 ∧
      exec (s.runOn 4) g = (.ok 0, g') ∧
        g.Grows g' ∧ ∃ m, ∀ m', (Means (.total negationValue) g 4 m' ↔ m' = m) ∧
          (Means (.total negationValue) g' 0 m' ↔ m' = m) := by
  intro s g g'
  have hs : ∀ rule ∈ s.rules, rule.Sound (.total negationValue) g := by
    intro rule hrule
    cases List.mem_singleton.1 hrule
    exact sound_doubleNegation g
  have hascending : g.Ascending := by decide
  have hclosed : g.Closed 4 := hascending.closed (by decide)
  have hrun : exec (s.runOn 4) g = (.ok 0, g') := by
    rw [RuleSet.exec_runOn]
    iterate 5
      refine (congrArg _ (RuleSet.exec_walk_enter (by decide +kernel) (by decide +kernel)
        (by decide +kernel) rfl)).trans ?_
    refine (congrArg _ (RuleSet.exec_walk_leave 0 0 (by decide +kernel)
      (by decide +kernel))).trans ?_
    refine (congrArg _ (RuleSet.exec_walk_leave 1 1 (by decide +kernel)
      (by decide +kernel))).trans ?_
    refine (congrArg _ (RuleSet.exec_walk_leave 2 0 (by decide +kernel)
      (by decide +kernel))).trans ?_
    refine (congrArg _ (RuleSet.exec_walk_leave 5 1 (by decide +kernel)
      (by decide +kernel))).trans ?_
    refine (congrArg _ (RuleSet.exec_walk_leave 6 0 (by decide +kernel)
      (by decide +kernel))).trans ?_
    exact (congrArg _ RuleSet.exec_walk_nil).trans (by decide +kernel)
  exact ⟨hs, hclosed, hascending.acyclic 4, hrun,
    RuleSet.runOn_keeps_meaning negationValue hs hclosed (hascending.acyclic 4) hrun⟩

end Negations

end TensorOpt
