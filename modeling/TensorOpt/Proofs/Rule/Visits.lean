import TensorOpt.Proofs.Graph.DepthFirst
import TensorOpt.Proofs.Rule.Engine
import TensorOpt.Proofs.Rule.Frame

namespace TensorOpt

variable {α β : Type} {s : RuleSet} {p p' : Progress} {limit limit' : Nat}

def Rule.OnlyMakes (r : Rule) : Prop :=
  ∀ pre post b (g : Graph), g.Grows (exec (r.apply pre post b) g).2

theorem Rule.OnlyMakes.keeps {r : Rule} (hr : r.OnlyMakes) : r.Leaves Graph.Keeps :=
  fun pre post b g ↦ (hr pre post b g).keeps

structure Application where
  rule : String
  pre : NodeId
  post : NodeId
  result : Option NodeId

def Application.event (a : Application) : Event := .fired a.rule a.pre a.post a.result

/-- A part of a run that only makes nodes, notes at most `limit` applications of rules and nothing
else, and fails only if one of them does. -/
structure Applies (limit : Nat) (p : Progress) (out : Except RuleError α × Progress) : Prop where
  grows : p.graph.Grows out.2.graph
  applications : ∃ applications : List Application,
    out.2.events.toList = p.events.toList ++ applications.map Application.event ∧
      applications.length ≤ limit ∧
        ((∀ a ∈ applications, a.result ≠ none) → ∃ a, out.1 = .ok a)

namespace Applies

theorem mono {out : Except RuleError α × Progress} (h : Applies limit p out)
    (hle : limit ≤ limit') : Applies limit' p out := by
  obtain ⟨hgrows, applications, hevents, hlength, hok⟩ := h
  exact ⟨hgrows, applications, hevents, hlength.trans hle, hok⟩

theorem pure (a : α) : Applies 0 p (.ok a, p) :=
  ⟨.refl _, [], by simp, Nat.le_refl _, fun _ ↦ ⟨a, rfl⟩⟩

theorem bind {x : Run α} {f : α → Run β} (hx : Applies limit p (exec x p))
    (hf : ∀ a p', Applies limit' p' (exec (f a) p')) :
    Applies (limit + limit') p (exec (x >>= f) p) := by
  obtain ⟨hgrows, applications, hevents, hlength, hok⟩ := hx
  rw [exec_bind]
  rcases hexec : exec x p with ⟨r, p₁⟩
  rw [hexec] at hgrows hevents hok
  cases r with
  | error e =>
    refine ⟨hgrows, applications, hevents, Nat.le_add_right_of_le hlength, fun hresults ↦ ?_⟩
    obtain ⟨a, ha⟩ := hok hresults
    cases ha
  | ok a =>
    obtain ⟨hgrows', applications', hevents', hlength', hok'⟩ := hf a p₁
    refine ⟨hgrows.trans hgrows', applications ++ applications', ?_, ?_, fun hresults ↦ ?_⟩
    · rw [hevents', hevents, List.map_append, List.append_assoc]
    · rw [List.length_append]
      exact Nat.add_le_add hlength hlength'
    · exact hok' fun c hc ↦ hresults c (List.mem_append_right _ hc)

end Applies

namespace RuleSet

variable {done : Replacements} {pre post e : NodeId} {f : NodeId → NodeId}

theorem applies_fire {r : Rule} (hr : r.OnlyMakes) (b : Bindings) :
    Applies 1 p (exec (Run.fire r pre post b) p) := by
  refine ⟨hr pre post b p.graph, ?_⟩
  let result := (exec (r.apply pre post b) p.graph).1
  refine ⟨[⟨r.name, pre, post, result.toOption⟩], Array.toList_push, Nat.le_refl _, ?_⟩
  intro hresults
  have hsome : result.toOption ≠ none := hresults _ (List.mem_singleton_self _)
  show ∃ a, result = .ok a
  cases hresult : result with
  | error e =>
    rw [hresult] at hsome
    exact absurd rfl hsome
  | ok a => exact ⟨a, rfl⟩

theorem applies_attempt (hs : ∀ r ∈ s.rules, r.OnlyMakes) :
    Applies 1 p (exec (s.attempt pre post f) p) := by
  rw [attempt, exec_bind, exec_graph]
  simp only
  split
  next => exact (Applies.pure _).mono (Nat.zero_le 1)
  next r b hfirst =>
    obtain ⟨hr, -⟩ := firstMatch?_eq_some hfirst
    exact (applies_fire (hs r hr) _).bind fun e p' ↦ .pure (some (r, e))

theorem applies_settle (hs : ∀ r ∈ s.rules, r.OnlyMakes) (rounds : Nat) :
    Applies rounds p (exec (s.settle rounds e) p) := by
  induction rounds generalizing e p with
  | zero => exact .pure e
  | succ n ih =>
    rw [settle, Nat.add_comm]
    refine (applies_attempt hs).bind fun o p' ↦ ?_
    split
    next r e' =>
      split
      next => exact (Applies.pure e).mono (Nat.zero_le n)
      next => exact ih
    next => exact (Applies.pure e).mono (Nat.zero_le n)

theorem applies_visit (hs : ∀ r ∈ s.rules, r.OnlyMakes) :
    Applies (1 + s.rounds) ⟨p.graph, p.events.push (.visited pre post)⟩
      (exec (s.visit done pre post) p) := by
  rw [visit, exec_bind, exec_note]
  refine (applies_attempt hs).bind fun o p' ↦ ?_
  split
  next => exact (Applies.pure post).mono (Nat.zero_le _)
  next r e =>
    split
    next => exact applies_settle hs s.rounds
    next => exact (Applies.pure e).mono (Nat.zero_le _)

end RuleSet

structure Visit where
  pre : NodeId
  post : NodeId
  applications : List Application

def Visit.events (v : Visit) : List Event :=
  .visited v.pre v.post :: v.applications.map Application.event

/-- The rest of a run notes visits to `nodes` in this order, each with a bounded number of
applications. It comes to the end of them unless a rule fails. -/
def Traces (s : RuleSet) (p : Progress) (nodes : List NodeId)
    (out : Except RuleError α × Progress) : Prop :=
  ∃ visits : List Visit, out.2.events.toList = p.events.toList ++ visits.flatMap Visit.events ∧
    (∀ v ∈ visits, v.applications.length ≤ 1 + s.rounds) ∧ visits.map Visit.pre <+: nodes ∧
      ((∀ v ∈ visits, ∀ a ∈ v.applications, a.result ≠ none) →
        (∃ a, out.1 = .ok a) ∧ visits.map Visit.pre = nodes)

namespace Traces

theorem nil (a : α) : Traces s p [] (.ok a, p) :=
  ⟨[], by simp, nofun, List.nil_prefix, fun _ ↦ ⟨⟨a, rfl⟩, rfl⟩⟩

variable {g : Graph} {e post e' : NodeId} {nodes : List NodeId} {err : RuleError}
  {out : Except RuleError α × Progress}

theorem cons (h : Applies (1 + s.rounds) ⟨g, p.events.push (.visited e post)⟩
    ((.ok e', p') : Except RuleError NodeId × Progress)) (hrest : Traces s p' nodes out) :
    Traces s p (e :: nodes) out := by
  obtain ⟨-, applications, hevents, hlength, -⟩ := h
  obtain ⟨visits, hevents', hlengths, hpre, hok⟩ := hrest
  refine ⟨⟨e, post, applications⟩ :: visits, ?_, ?_, ?_, fun hresults ↦ ?_⟩
  · simp only at hevents
    rw [hevents', hevents]
    simp [Visit.events]
  · exact List.forall_mem_cons.2 ⟨hlength, hlengths⟩
  · exact List.cons_prefix_cons.2 ⟨rfl, hpre⟩
  · obtain ⟨hout, hnodes⟩ := hok (List.forall_mem_cons.1 hresults).2
    exact ⟨hout, by rw [List.map_cons, hnodes]⟩

theorem fail (h : Applies (1 + s.rounds) ⟨g, p.events.push (.visited e post)⟩
    ((.error err, p') : Except RuleError NodeId × Progress)) :
    Traces s p (e :: nodes) ((.error err, p') : Except RuleError α × Progress) := by
  obtain ⟨-, applications, hevents, hlength, hok⟩ := h
  refine ⟨[⟨e, post, applications⟩], ?_, ?_, ?_, fun hresults ↦ ?_⟩
  · simp only at hevents
    rw [hevents]
    simp [Visit.events]
  · exact List.forall_mem_singleton.2 hlength
  · exact List.cons_prefix_cons.2 ⟨rfl, List.nil_prefix⟩
  · obtain ⟨a, ha⟩ := hok (List.forall_mem_singleton.1 hresults)
    cases ha

theorem map (h : Traces s p nodes out) (f : α → β) :
    Traces s p nodes (out.1.map f, out.2) := by
  obtain ⟨visits, hevents, hlengths, hpre, hok⟩ := h
  refine ⟨visits, hevents, hlengths, hpre, fun hresults ↦ ?_⟩
  obtain ⟨⟨a, ha⟩, hvisits⟩ := hok hresults
  exact ⟨⟨f a, by rw [ha]; rfl⟩, hvisits⟩

end Traces

/-- The search as a loop over the pending steps that has no guards: whatever has been visited is
passed over, all else is opened or visited. -/
inductive RuleSet.Searches (s : RuleSet) : List Graph.Task → Replacements → Progress →
    Except RuleError Replacements × Progress → Prop
  | finish {done p} : Searches s [] done p (.ok done, p)
  | skip {t rest done p out} (hdone : t.node ∈ done) (hrest : Searches s rest done p out) :
    Searches s (t :: rest) done p out
  | enter {e n rest done p out} (hdone : e ∉ done) (hn : p.graph.node? e = some n)
    (hrest : Searches s ((n.args.filter (· ∉ done)).map .enter ++ .leave e :: rest) done p out) :
    Searches s (.enter e :: rest) done p out
  | leave {e e' rest done p p' out} (hdone : e ∉ done)
    (hvisit : exec (Run.build (rebuild done e) >>= s.visit done e) p = (.ok e', p'))
    (hrest : Searches s rest (done.insert e e') p' out) : Searches s (.leave e :: rest) done p out
  | fail {e rest done p p' err} (hdone : e ∉ done)
    (hvisit : exec (Run.build (rebuild done e) >>= s.visit done e) p = (.error err, p')) :
    Searches s (.leave e :: rest) done p (.error err, p')

namespace RuleSet

variable {g : Graph} {tasks rest : List Graph.Task} {done : Replacements} {e root : NodeId}
  {bound : Nat} {opened : Std.TreeSet NodeId} {order : Array NodeId}
  {out out' : Except RuleError Replacements × Progress}

/-- The loop comes to one end only. -/
theorem Searches.unique (h : s.Searches tasks done p out) (h' : s.Searches tasks done p out') :
    out = out' := by
  induction h with
  | finish =>
    cases h'
    rfl
  | skip hdone _ ih =>
    cases h' with
    | skip _ hrest => exact ih hrest
    | enter hdone' | leave hdone' | fail hdone' => exact absurd hdone hdone'
  | enter hdone hn _ ih =>
    cases h' with
    | skip hdone' => exact absurd hdone' hdone
    | enter _ hn' hrest =>
      cases hn.symm.trans hn'
      exact ih hrest
  | leave hdone hvisit _ ih =>
    cases h' with
    | skip hdone' => exact absurd hdone' hdone
    | leave _ hvisit' hrest =>
      cases hvisit.symm.trans hvisit'
      exact ih hrest
    | fail _ hvisit' => cases hvisit.symm.trans hvisit'
  | fail hdone hvisit =>
    cases h' with
    | skip hdone' => exact absurd hdone' hdone
    | leave _ hvisit' _ => cases hvisit.symm.trans hvisit'
    | fail _ hvisit' =>
      cases hvisit.symm.trans hvisit'
      rfl

theorem exec_rebuild (done : Replacements) (e : NodeId) (g : Graph) :
    ∃ post g', exec (rebuild done e) g = (.ok post, g') ∧ g.Grows g' := by
  rw [rebuild, exec_bind, exec_get]
  simp only
  split
  next => exact ⟨e, g, rfl, .refl g⟩
  next n _ =>
    split
    next => exact ⟨e, g, rfl, .refl g⟩
    next => exact ⟨g.size, _, rfl, .push g _⟩

theorem applies_leave (hs : ∀ r ∈ s.rules, r.OnlyMakes) (done : Replacements) (e : NodeId)
    (p : Progress) : ∃ post g, p.graph.Grows g ∧
      Applies (1 + s.rounds) ⟨g, p.events.push (.visited e post)⟩
        (exec (Run.build (rebuild done e) >>= s.visit done e) p) := by
  obtain ⟨post, g, hrebuild, hgrows⟩ := exec_rebuild done e p.graph
  refine ⟨post, g, hgrows, ?_⟩
  rw [exec_bind, exec_build, hrebuild]
  exact applies_visit (p := ⟨g, p.events⟩) hs

/-- Whatever stands before the leaving of a node is an argument of it, or of an argument, and so
on. -/
def Nested (g : Graph) (tasks : List Graph.Task) : Prop :=
  tasks.Pairwise fun t u ↦ ∀ b, u = .leave b → Relation.TransGen g.HasArg b t.node

theorem Nested.open {n : Node} {p : NodeId → Bool} (h : Nested g (.enter e :: rest))
    (hn : g.node? e = some n) : Nested g ((n.args.filter p).map .enter ++ .leave e :: rest) := by
  obtain ⟨hfirst, hrest⟩ := List.pairwise_cons.1 h
  have harg {a : NodeId} (ha : a ∈ n.args.filter p) : g.HasArg e a :=
    (Graph.hasArg_iff hn).2 (List.mem_of_mem_filter ha)
  refine List.pairwise_append.2 ⟨?_, List.pairwise_cons.2 ⟨hfirst, hrest⟩, ?_⟩
  · refine List.pairwise_map.2 (List.pairwise_of_forall fun a b c hc ↦ ?_)
    cases hc
  · intro t ht u hu b hub
    obtain ⟨a, ha, rfl⟩ := List.mem_map.1 ht
    rcases List.mem_cons.1 hu with heq | hu
    · cases heq.symm.trans hub
      exact .single (harg ha)
    · exact (hfirst u hu b hub).tail (harg ha)

/-- Where nothing depends on itself, what is entered has not been opened unless it has been left. -/
theorem Nested.not_opened (h : Nested g (.enter e :: rest))
    (hself : ¬ Relation.TransGen g.HasArg e e)
    (htracks : Graph.Tracks g (.enter e :: rest) opened order) (he : e ∉ order.toList) :
    e ∉ opened := by
  intro hopened
  rcases List.mem_append.1 ((htracks.mem_iff e).1 hopened) with horder | hleave
  · exact he horder
  · have hmem : .leave e ∈ rest := Graph.mem_unfinished.1 hleave
    exact hself ((List.pairwise_cons.1 h).1 _ hmem e rfl)

def visitEach (s : RuleSet) : List NodeId → Replacements → Run Replacements
  | [], done => return done
  | e :: rest, done => do
    let e' ← Run.build (rebuild done e) >>= s.visit done e
    s.visitEach rest (done.insert e e')

/-- The loop comes to an end, with the outcome of the guarded search, and all it does is to make one
visit after the other in post-order. The two searches open and leave the same nodes at the same
time. -/
theorem walk_visits (hs : ∀ r ∈ s.rules, r.Leaves Graph.Keeps) (hclosed : g.Closed root)
    (hacyclic : g.Acyclic root) (hbound : g.size ≤ bound) (hg : g.Keeps p.graph)
    (htasks : ∀ t ∈ tasks, g.Reaches root t.node) (hnested : Nested g tasks)
    (htracks : Graph.Tracks g tasks opened order) (hdone : ∀ e, e ∈ done ↔ e ∈ order.toList) :
    s.Searches tasks done p (exec (s.walk bound tasks opened done) p) ∧
      ∃ nodes, (g.walk tasks opened order).toList = order.toList ++ nodes ∧
        exec (s.walk bound tasks opened done) p = exec (s.visitEach nodes done) p := by
  fun_induction RuleSet.walk s bound tasks opened done generalizing p order with
  | case1 opened done =>
    rw [Graph.walk, exec_pure]
    exact ⟨.finish, [], (List.append_nil _).symm, rfl⟩
  | case2 opened done e rest ih =>
    have hnew : e ∉ done := by
      rw [hdone]
      exact fun horder ↦ (List.nodup_append'.1 htracks.nodup).2.2 horder List.mem_cons_self
    have hleaves := leaves_leave frame_keeps hs done e p
    rw [← bind_assoc, Graph.walk, exec_bind]
    rcases hvisit : exec (Run.build (rebuild done e) >>= s.visit done e) p with ⟨r, p₁⟩
    rw [hvisit] at hleaves
    cases r with
    | error err =>
      obtain ⟨nodes, hnodes⟩ := g.prefix_walk rest opened (order.push e)
      refine ⟨.fail hnew hvisit, e :: nodes, ?_, ?_⟩
      · rw [← hnodes, Array.toList_push, List.append_assoc, List.singleton_append]
      · rw [visitEach, exec_bind, hvisit]
    | ok e' =>
      have hdone' (a : NodeId) : a ∈ done.insert e e' ↔ a ∈ (order.push e).toList := by
        rw [Replacements.mem_insert, hdone, Array.toList_push, List.mem_append,
          List.mem_singleton]
      obtain ⟨hsearches, nodes, hnodes, hwalk⟩ := ih e' (hg.trans hleaves)
        (fun t ht ↦ htasks t (List.mem_cons_of_mem _ ht)) (List.pairwise_cons.1 hnested).2
        htracks.push hdone'
      refine ⟨.leave hnew hvisit hsearches, e :: nodes, ?_, ?_⟩
      · rw [hnodes, Array.toList_push, List.append_assoc, List.singleton_append]
      · rw [visitEach, exec_bind, hvisit]
        exact hwalk
  | case3 opened done e rest hmem ih =>
    have hopened : e ∈ opened := (htracks.mem_iff e).2 (List.mem_append_left _ ((hdone e).1 hmem))
    rw [Graph.walk, dif_pos hopened]
    obtain ⟨hsearches, hwalk⟩ := ih hg (fun t ht ↦ htasks t (List.mem_cons_of_mem _ ht))
      (List.pairwise_cons.1 hnested).2 ⟨htracks.made, htracks.mem_iff, htracks.nodup⟩ hdone
    exact ⟨.skip hmem hsearches, hwalk⟩
  | case4 opened done e rest hmem hopened =>
    have hself := hacyclic e (htasks _ List.mem_cons_self)
    exact absurd hopened (hnested.not_opened hself htracks (mt (hdone e).2 hmem))
  | case5 opened done e rest hmem hopened hbound' ih =>
    have hreach : g.Reaches root e := htasks _ List.mem_cons_self
    obtain ⟨n, hn⟩ := Graph.node?_of_lt (hclosed e hreach)
    -- the node is looked up in the graph as it is by now, and has the arguments it had at first
    obtain ⟨type?, hn'⟩ := hg hn
    let args := n.args.filter (· ∉ done)
    have htasks' : ∀ t ∈ args.map .enter ++ .leave e :: rest, g.Reaches root t.node :=
      Graph.forall_node_open htasks fun a ha ↦ hreach.tail ((Graph.hasArg_iff hn).2 ha)
    have hnested' : Nested g (args.map .enter ++ .leave e :: rest) := hnested.open hn
    have htracks' := htracks.open hopened (hclosed e hreach) args
    -- what has been visited has been opened, so that the other search need not enter it either
    have hargs (a : NodeId) (ha : a ∉ opened.insert e) : decide (a ∉ done) = true := by
      refine decide_eq_true fun hmem' ↦ ha (Std.TreeSet.mem_insert.2 (.inr ?_))
      exact (htracks.mem_iff a).2 (List.mem_append_left _ ((hdone a).1 hmem'))
    obtain ⟨hsearches, hwalk⟩ :=
      ih { n with type? := type? } hg htasks' hnested' htracks' hdone
    rw [Graph.walk_open hopened hn, ← Graph.walk_filter_args hargs, exec_bind, exec_graph]
    simp only [hn']
    exact ⟨.enter hmem hn' hsearches, hwalk⟩
  | case6 opened done e rest hmem hopened hbound' =>
    have hlt : e < g.size := hclosed e (htasks _ List.mem_cons_self)
    exact absurd (Nat.lt_of_lt_of_le hlt hbound) hbound'

theorem reaches_enter (g : Graph) (root : NodeId) :
    ∀ t ∈ [Graph.Task.enter root], g.Reaches root t.node := by
  intro t ht
  cases List.mem_singleton.1 ht
  exact .refl

/-- A run is one visit after the other, in post-order. -/
theorem walk_visits_postOrder (hs : ∀ r ∈ s.rules, r.Leaves Graph.Keeps) (hclosed : g.Closed root)
    (hacyclic : g.Acyclic root) :
    s.Searches [.enter root] {} ⟨g, #[]⟩ (exec (s.walk g.bound [.enter root] {} {}) ⟨g, #[]⟩) ∧
      exec (s.walk g.bound [.enter root] {} {}) ⟨g, #[]⟩ =
        exec (s.visitEach (g.postOrder root) {}) ⟨g, #[]⟩ := by
  have hnone : ∀ e, e ∈ ({} : Replacements) ↔ e ∈ (#[] : Array NodeId).toList := by simp
  obtain ⟨hsearches, nodes, hnodes, hwalk⟩ := walk_visits (p := ⟨g, #[]⟩) hs hclosed hacyclic
    g.size_le_bound (.refl g) (reaches_enter g root) (List.pairwise_singleton _ _)
    (g.tracks_enter root) hnone
  have hpostOrder : g.postOrder root = nodes := hnodes
  rw [hpostOrder]
  exact ⟨hsearches, hwalk⟩

theorem traces_visitEach (hs : ∀ r ∈ s.rules, r.OnlyMakes) (nodes : List NodeId) :
    Traces s p nodes (exec (s.visitEach nodes done) p) := by
  induction nodes generalizing done p with
  | nil => exact .nil done
  | cons e rest ih =>
    obtain ⟨post, g₁, -, happlies⟩ := applies_leave hs done e p
    rw [visitEach, exec_bind]
    rcases hvisit : exec (Run.build (rebuild done e) >>= s.visit done e) p with ⟨_ | e', p₁⟩
    · rw [hvisit] at happlies
      exact .fail happlies
    · rw [hvisit] at happlies
      exact .cons happlies ih

/-- In an expression without cycles the search comes to an end, and unless a rule fails it visits
exactly what is reachable from the root, each node once and in post-order, whatever the rules make
meanwhile. A visit causes at most one application of a rule, and one in each further round. -/
theorem run_visits_in_postOrder {g : Graph} {root : NodeId} (hclosed : g.Closed root)
    (hacyclic : g.Acyclic root) (hs : ∀ r ∈ s.rules, r.OnlyMakes) :
    (∃ out, (∀ out', s.Searches [.enter root] {} ⟨g, #[]⟩ out' ↔ out' = out) ∧
      exec (s.run root) ⟨g, #[]⟩ = (out.1.map (·.apply root), out.2)) ∧
    Traces s ⟨g, #[]⟩ (g.postOrder root) (exec (s.run root) ⟨g, #[]⟩) ∧
      (g.postOrder root).Nodup ∧ ∀ e, e ∈ g.postOrder root ↔ g.Reaches root e := by
  obtain ⟨hsearches, hwalk⟩ :=
    walk_visits_postOrder (fun r hr ↦ (hs r hr).keeps) hclosed hacyclic
  have htraces : Traces s ⟨g, #[]⟩ (g.postOrder root)
      (exec (s.walk g.bound [.enter root] {} {}) ⟨g, #[]⟩) :=
    hwalk ▸ traces_visitEach hs (g.postOrder root)
  rw [exec_run]
  refine ⟨⟨_, fun out ↦ ⟨fun h ↦ h.unique hsearches, ?_⟩, rfl⟩, htraces.map _,
    g.nodup_postOrder root, fun e ↦ Graph.mem_postOrder.trans ?_⟩
  · rintro rfl
    exact hsearches
  · exact ⟨fun h ↦ h.1, fun h ↦ ⟨h, hclosed e h⟩⟩

theorem run_visits_in_postOrder_negations :
    let s : RuleSet := ⟨[.doubleNegation], 8⟩
    let g := fourNegations
    g.Closed 4 ∧ g.Acyclic 4 ∧ (∀ r ∈ s.rules, r.OnlyMakes) ∧
      (∃ out, (∀ out', s.Searches [.enter 4] {} ⟨g, #[]⟩ out' ↔ out' = out) ∧
        exec (s.run 4) ⟨g, #[]⟩ = (out.1.map (·.apply 4), out.2)) ∧
      Traces s ⟨g, #[]⟩ (g.postOrder 4) (exec (s.run 4) ⟨g, #[]⟩) ∧
        (g.postOrder 4).Nodup ∧ ∀ e, e ∈ g.postOrder 4 ↔ g.Reaches 4 e := by
  intro s g
  have hascending : g.Ascending := by decide
  have hclosed : g.Closed 4 := hascending.closed (by decide)
  have hs : ∀ r ∈ s.rules, r.OnlyMakes := by
    intro r hr
    cases List.mem_singleton.1 hr
    exact fun _ _ _ g ↦ .refl g
  exact ⟨hclosed, hascending.acyclic 4, hs,
    run_visits_in_postOrder hclosed (hascending.acyclic 4) hs⟩

end RuleSet

end TensorOpt
