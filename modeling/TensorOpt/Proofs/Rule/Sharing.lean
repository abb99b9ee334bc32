import TensorOpt.Proofs.Graph.Typed
import TensorOpt.Proofs.Rule.Replacement

namespace TensorOpt.RuleSet

variable {α β : Type} {g : Graph} {a e n pre post root : NodeId} {s : RuleSet} {p p' : Progress}
  {done done' : Replacements} {nodes nodes' : List NodeId}

section Visits

theorem visitEach_append (nodes nodes' : List NodeId) (done : Replacements) :
    s.visitEach (nodes ++ nodes') done = s.visitEach nodes done >>= s.visitEach nodes' := by
  induction nodes generalizing done with
  | nil => rfl
  | cons e rest ih =>
    rw [List.cons_append, visitEach, visitEach]
    exact (bind_congr fun e' ↦ ih (done.insert e e')).trans (bind_assoc _ _ _).symm

/-- The last one of several visits. -/
theorem exec_visitEach_concat : exec (s.visitEach (nodes ++ [e]) done) p = (.ok done', p') ↔
    ∃ done₁ p₁ e', exec (s.visitEach nodes done) p = (.ok done₁, p₁) ∧
      exec (Run.build (rebuild done₁ e) >>= s.visit done₁ e) p₁ = (.ok e', p') ∧
        done₁.insert e e' = done' := by
  rw [visitEach_append, exec_bind_ok]
  refine exists_congr fun done₁ ↦ exists_congr fun p₁ ↦ ?_
  rw [visitEach, exec_bind_ok]
  constructor
  · rintro ⟨hbefore, e', _, hvisit, hlast⟩
    cases hlast
    exact ⟨e', hbefore, hvisit, rfl⟩
  · rintro ⟨e', hbefore, hvisit, rfl⟩
    exact ⟨hbefore, e', p', hvisit, rfl⟩

theorem mem_of_visitEach (h : exec (s.visitEach nodes done) p = (.ok done', p')) :
    a ∈ done' ↔ a ∈ done ∨ a ∈ nodes := by
  induction nodes generalizing done p with
  | nil =>
    cases h
    simp
  | cons e rest ih =>
    obtain ⟨e', p₁, -, hrest⟩ := exec_bind_ok.1 h
    rw [ih hrest, Replacements.mem_insert, List.mem_cons, or_assoc]

theorem leaves_visitEach {R : Graph → Graph → Prop} (hR : Frame R)
    (hs : ∀ r ∈ s.rules, r.Leaves R) (nodes : List NodeId) (done : Replacements) :
    Leaves Progress.graph R (s.visitEach nodes done) := by
  induction nodes generalizing done with
  | nil => exact .pure hR done
  | cons e rest ih => exact (leaves_leave hR hs done e).bind hR fun e' ↦ ih (done.insert e e')

end Visits

section Idle

/-- No rule matches `e`, or the first one that does gives back the node it finds in the place of
`e`, this being `e` itself, and makes nothing. -/
def Idle (s : RuleSet) (g : Graph) (e : NodeId) : Prop :=
  ∀ r b, g.firstMatch? s.rules e = some (r, b) → exec (r.apply e e b) g = (.ok e, g)

def ComesTo (s : RuleSet) (g : Graph) (root e : NodeId) (done : Replacements) (p : Progress) :
    Prop :=
  ∃ before after, g.postOrder root = before ++ e :: after ∧
    exec (s.visitEach before {}) ⟨g, #[]⟩ = (.ok done, p)

theorem ComesTo.keeps (h : s.ComesTo g root e done p)
    (hs : ∀ r ∈ s.rules, r.Leaves Graph.Keeps) : g.Keeps p.graph := by
  obtain ⟨before, after, -, hbefore⟩ := h
  have hkeeps := leaves_visitEach frame_keeps hs before {} ⟨g, #[]⟩
  rwa [hbefore] at hkeeps

/-- What is bound is below `e`, so that neither it nor `e` has been replaced. -/
theorem exec_leave_idle (hclosed : g.Closed e) (hg : g.Keeps p.graph)
    (hdone : ∀ a, g.Reaches e a → done.apply a = a) (hidle : s.Idle p.graph e) :
    ∃ events, exec (Run.build (rebuild done e) >>= s.visit done e) p =
      (.ok e, ⟨p.graph, events⟩) := by
  have hreach {a : NodeId} (ha : p.graph.Reaches e a) : done.apply a = a :=
    hdone a (hclosed.reaches_of_keep hg ha)
  have hrebuild : exec (rebuild done e) p.graph = (.ok e, p.graph) :=
    exec_rebuild_same fun a ha ↦ hreach (.single ha)
  cases hfirst : p.graph.firstMatch? s.rules e with
  | none => exact ⟨_, exec_leave_none hrebuild hfirst⟩
  | some found =>
    obtain ⟨r, b⟩ := found
    obtain ⟨-, hmatch⟩ := firstMatch?_eq_some hfirst
    have hsame : (b.map fun a ↦ if a = e then e else done.apply a) = b := by
      refine congrArg Bindings.mk ((List.map_congr_left fun q hq ↦ ?_).trans (List.map_id' _))
      have hq' : done.apply q.2 = q.2 := hreach (Pattern.reaches_of_match? hmatch hq)
      refine Prod.ext rfl ?_
      show (if q.2 = e then e else done.apply q.2) = q.2
      split
      next heq => exact heq.symm
      next => exact hq'
    refine ⟨_, exec_leave_settled hrebuild hfirst ?_ (.inl rfl)⟩
    rw [hsame]
    exact hidle r b hfirst

variable (hs : ∀ r ∈ s.rules, r.Leaves Graph.Keeps) (hclosed : g.Closed root)

include hs hclosed

theorem ComesTo.exec_leave (hcomes : s.ComesTo g root e done p) (he : g.Reaches root e)
    (hdone : ∀ a, g.Reaches e a → done.apply a = a) (hidle : s.Idle p.graph e) :
    ∃ events, exec (Run.build (rebuild done e) >>= s.visit done e) p = (.ok e, ⟨p.graph, events⟩) :=
  exec_leave_idle (fun a ha ↦ hclosed a (he.trans ha)) (hcomes.keeps hs) hdone hidle

theorem apply_of_idle (hn : g.Reaches root n)
    (hidle : ∀ e done p, g.Reaches n e → s.ComesTo g root e done p → s.Idle p.graph e)
    {before after : List NodeId} (horder : g.postOrder root = before ++ after)
    (h : exec (s.visitEach before {}) ⟨g, #[]⟩ = (.ok done, p)) (ha : g.Reaches n a) :
    done.apply a = a := by
  -- on the visits so far, the latest one last, since it finds what those before it have left
  induction before using List.reverseRecOn generalizing after done p a with
  | nil =>
    cases h
    exact Std.TreeMap.getD_emptyc
  | append_singleton before e ih =>
    obtain ⟨done₁, p₁, e', hbefore, hvisit, rfl⟩ := exec_visitEach_concat.1 h
    have horder' : g.postOrder root = before ++ e :: after := by
      rw [horder, List.append_assoc, List.singleton_append]
    rw [Replacements.apply_insert]
    split
    next heq =>
      subst heq
      have hcomes : s.ComesTo g root e done₁ p₁ := ⟨before, after, horder', hbefore⟩
      obtain ⟨events, hleave⟩ := hcomes.exec_leave hs hclosed (hn.trans ha)
        (fun b hb ↦ ih horder' hbefore (ha.trans hb)) (hidle e done₁ p₁ ha hcomes)
      cases hvisit.symm.trans hleave
      rfl
    next => exact ih horder' hbefore ha

omit hs in
/-- As long as nothing happens, the graph is the one at the start. -/
theorem exec_visitEach_idle (hidle : ∀ e, g.Reaches root e → s.Idle g e)
    (hnodes : ∀ e ∈ nodes, g.Reaches root e) (hdone : ∀ a, g.Reaches root a → done.apply a = a)
    (events : Array Event) : ∃ done' events',
      exec (s.visitEach nodes done) ⟨g, events⟩ = (.ok done', ⟨g, events'⟩) ∧
        ∀ a, g.Reaches root a → Replacements.apply done' a = a := by
  induction nodes generalizing done events with
  | nil => exact ⟨done, events, rfl, hdone⟩
  | cons e rest ih =>
    have he : g.Reaches root e := hnodes e List.mem_cons_self
    obtain ⟨events₁, hleave⟩ := exec_leave_idle (p := ⟨g, events⟩)
      (fun a ha ↦ hclosed a (he.trans ha)) (.refl g) (fun a ha ↦ hdone a (he.trans ha)) (hidle e he)
    have hdone' : ∀ a, g.Reaches root a → Replacements.apply (done.insert e e) a = a := by
      intro a ha
      rw [Replacements.apply_insert]
      split
      next heq => exact heq
      next => exact hdone a ha
    obtain ⟨done', events', hrest, hsame⟩ :=
      ih (fun a ha ↦ hnodes a (List.mem_cons_of_mem e ha)) hdone' events₁
    exact ⟨done', events', exec_bind_ok.2 ⟨e, _, hleave, hrest⟩, hsame⟩

end Idle

section Copies

/-- What a run does, step after step. It copies the nodes in `copied`, in this order: a copy is a
call to the same operator with the same attributes and type, over other arguments. Apart from that
it notes visits and applies rules. -/
inductive Makes (s : RuleSet) (p : Progress) : (copied : List NodeId) → Progress → Prop
  | refl : Makes s p [] p
  | note {copied p'} (h : Makes s p copied p') (pre post : NodeId) :
    Makes s p copied ⟨p'.graph, p'.events.push (.visited pre post)⟩
  | fire {copied p' r} (h : Makes s p copied p') (hr : r ∈ s.rules) (pre post : NodeId)
    (b : Bindings) : Makes s p copied (exec (Run.fire r pre post b) p').2
  | copy {copied p' e op args attrs type?} (h : Makes s p copied p')
    (hn : p'.graph.node? e = some ⟨.call op args attrs, type?⟩) {args' : List NodeId}
    (hargs : args' ≠ args) :
    Makes s p (copied ++ [e]) ⟨p'.graph.push ⟨.call op args' attrs, type?⟩, p'.events⟩

theorem Makes.trans {copied copied' : List NodeId} {p'' : Progress} (h : s.Makes p copied p')
    (h' : s.Makes p' copied' p'') : s.Makes p (copied ++ copied') p'' := by
  induction h' with
  | refl => rwa [List.append_nil]
  | note _ pre post ih => exact ih.note pre post
  | fire _ hr pre post b ih => exact ih.fire hr pre post b
  | copy _ hn hargs ih =>
    rw [← List.append_assoc]
    exact ih.copy hn hargs

/-- Whatever the outcome, no more than these nodes are copied, each as often as it is listed. -/
def Copies (s : RuleSet) (nodes : List NodeId) (x : Run α) : Prop :=
  ∀ p, ∃ copied, copied.Sublist nodes ∧ s.Makes p copied (exec x p).2

namespace Copies

theorem pure (a : α) : s.Copies [] (pure a) := fun _ ↦ ⟨[], .slnil, .refl⟩

theorem bind {x : Run α} {f : α → Run β} (hx : s.Copies nodes x)
    (hf : ∀ a, s.Copies nodes' (f a)) : s.Copies (nodes ++ nodes') (x >>= f) := by
  intro p
  obtain ⟨copied, hcopied, hmakes⟩ := hx p
  rw [exec_bind]
  rcases hexec : exec x p with ⟨_ | a, p₁⟩
  · rw [hexec] at hmakes
    exact ⟨copied, hcopied.trans (List.sublist_append_left nodes nodes'), hmakes⟩
  · rw [hexec] at hmakes
    obtain ⟨copied', hcopied', hmakes'⟩ := hf a p₁
    exact ⟨copied ++ copied', hcopied.append hcopied', hmakes.trans hmakes'⟩

/-- What follows a part that copies nothing. -/
theorem bind_nil {x : Run α} {f : α → Run β} (hx : s.Copies [] x)
    (hf : ∀ a, s.Copies nodes (f a)) : s.Copies nodes (x >>= f) := hx.bind hf

theorem note (pre post : NodeId) : s.Copies [] (Run.note (.visited pre post)) :=
  fun _ ↦ ⟨[], .slnil, .note .refl pre post⟩

theorem fire {r : Rule} (hr : r ∈ s.rules) (pre post : NodeId) (b : Bindings) :
    s.Copies [] (Run.fire r pre post b) :=
  fun _ ↦ ⟨[], .slnil, .fire .refl hr pre post b⟩

end Copies

theorem copies_attempt (f : NodeId → NodeId) : s.Copies [] (s.attempt pre post f) := by
  intro p
  rw [attempt, exec_bind, exec_graph]
  simp only
  split
  next => exact Copies.pure none p
  next r b hfirst =>
    obtain ⟨hr, -⟩ := firstMatch?_eq_some hfirst
    exact (Copies.fire hr pre post _).bind (fun e ↦ .pure (some (r, e))) p

theorem copies_settle (rounds : Nat) : s.Copies [] (s.settle rounds e) := by
  induction rounds generalizing e with
  | zero => exact .pure e
  | succ n ih =>
    refine (copies_attempt id).bind_nil fun o ↦ ?_
    split
    next r e' =>
      split
      next => exact .pure e
      next => exact ih
    next => exact .pure e

theorem copies_visit : s.Copies [] (s.visit done pre post) := by
  refine (Copies.note pre post).bind_nil fun _ ↦ (copies_attempt _).bind_nil fun o ↦ ?_
  split
  next => exact .pure post
  next r e =>
    split
    next => exact copies_settle s.rounds
    next => exact .pure e

theorem copies_rebuild : s.Copies [e] (Run.build (rebuild done e)) := by
  intro p
  rw [exec_build, rebuild, exec_bind, exec_get]
  simp only
  split
  next => exact ⟨[], List.nil_sublist _, .refl⟩
  next n hn =>
    split
    next => exact ⟨[], List.nil_sublist _, .refl⟩
    next hargs =>
      obtain ⟨kind, type?⟩ := n
      cases kind with
      | var name => exact absurd rfl hargs
      | const literal => exact absurd rfl hargs
      | call op args attrs => exact ⟨[e], .refl _, Makes.copy .refl hn hargs⟩

theorem copies_visitEach (nodes : List NodeId) (done : Replacements) :
    s.Copies nodes (s.visitEach nodes done) := by
  induction nodes generalizing done with
  | nil => exact .pure done
  | cons e rest ih =>
    exact (copies_rebuild.bind fun post ↦ copies_visit).bind fun e' ↦ ih (done.insert e e')

end Copies

/-- In an expression without cycles a run is one visit to each node that is reachable from the root.
Let the rules be idle on all that `n` reaches when the run comes to it. Then each visit there gives
the node itself and leaves the graph as it is, whatever happens elsewhere, and so `n` is in its own
place in the end. Where this is so from the root on, the run gives the root and leaves the graph
that it started on. Apart from what rules make, a run makes at most one copy of each node, which
differs from it in the arguments only. -/
theorem run_shares_idle (hclosed : g.Closed root) (hacyclic : g.Acyclic root)
    (hs : ∀ r ∈ s.rules, r.Leaves Graph.Keeps) :
    ((g.postOrder root).Nodup ∧ ∀ e, e ∈ g.postOrder root ↔ g.Reaches root e) ∧
    (∃ out, exec (s.visitEach (g.postOrder root) {}) ⟨g, #[]⟩ = out ∧
      exec (s.run root) ⟨g, #[]⟩ = (out.1.map (·.apply root), out.2)) ∧
    (∀ n, g.Reaches root n →
      (∀ e done p, g.Reaches n e → s.ComesTo g root e done p → s.Idle p.graph e) →
        (∀ e done p, g.Reaches n e → s.ComesTo g root e done p →
          ∃ events, exec (Run.build (rebuild done e) >>= s.visit done e) p =
            (.ok e, ⟨p.graph, events⟩)) ∧
        ∀ done p, exec (s.visitEach (g.postOrder root) {}) ⟨g, #[]⟩ = (.ok done, p) →
          n ∈ done ∧ done.apply n = n) ∧
    ((∀ e, g.Reaches root e → s.Idle g e) → exec (s.runOn root) g = (.ok root, g)) ∧
    ∃ copied, copied.Sublist (g.postOrder root) ∧
      s.Makes ⟨g, #[]⟩ copied (exec (s.run root) ⟨g, #[]⟩).2 := by
  have hmem (e : NodeId) : e ∈ g.postOrder root ↔ g.Reaches root e :=
    Graph.mem_postOrder.trans ⟨fun h ↦ h.1, fun h ↦ ⟨h, hclosed e h⟩⟩
  obtain ⟨-, hwalk⟩ := walk_visits_postOrder hs hclosed hacyclic
  refine ⟨⟨g.nodup_postOrder root, hmem⟩, ⟨_, rfl, ?_⟩, fun n hn hidle ↦ ⟨?_, ?_⟩, ?_, ?_⟩
  · rw [exec_run, hwalk]
  · intro e done p he hcomes
    have hdone (a : NodeId) (ha : g.Reaches n a) : done.apply a = a := by
      obtain ⟨before, after, horder, hbefore⟩ := hcomes
      exact apply_of_idle hs hclosed hn hidle horder hbefore ha
    exact hcomes.exec_leave hs hclosed (hn.trans he) (fun a ha ↦ hdone a (he.trans ha))
      (hidle e done p he hcomes)
  · intro done p hrun
    have horder : g.postOrder root = g.postOrder root ++ [] := (List.append_nil _).symm
    exact ⟨(mem_of_visitEach hrun).2 (.inr ((hmem n).2 hn)),
      apply_of_idle hs hclosed hn hidle horder hrun .refl⟩
  · intro hidle
    have hnone (a : NodeId) (_ : g.Reaches root a) : Replacements.apply {} a = a :=
      Std.TreeMap.getD_emptyc
    obtain ⟨done, events, hrun, hsame⟩ :=
      exec_visitEach_idle hclosed hidle (fun e he ↦ (hmem e).1 he) hnone #[]
    rw [exec_runOn, hwalk, hrun]
    exact congrArg (fun e ↦ (Except.ok e, g)) (hsame root .refl)
  · rw [exec_run, hwalk]
    exact copies_visitEach (g.postOrder root) {} ⟨g, #[]⟩

section Sums

def sumsAndNegations : Graph where
  nodes := #[.var "x" default, .var "y" default, .call Op.add [0, 1] [] none,
    .call Op.negative [2] [] none, .call Op.negative [3] [] none, .call Op.add [4, 2] [] none]
  catalog := .empty

/-- Only a negation is matched. -/
theorem idle_doubleNegation {h : Graph} {rounds : Nat} (hg : g.Keeps h) (he : e < g.size)
    (hcallee : g.callee? e ≠ some Op.negative) : Idle ⟨[.doubleNegation], rounds⟩ h e := by
  intro r b hfirst
  obtain ⟨hr, hmatch⟩ := firstMatch?_eq_some hfirst
  cases List.mem_singleton.1 hr
  obtain ⟨x, y, op, op', attrs, attrs', type?, type?', hn', -, hop, -⟩ :=
    Pattern.match?_call_call hmatch
  obtain rfl : Op.negative = op := of_decide_eq_true hop
  obtain ⟨⟨kind, type?₀⟩, hn⟩ := Graph.node?_of_lt he
  obtain ⟨type?₁, hn₁⟩ := hg hn
  cases hn₁.symm.trans hn'
  exact absurd (by rw [Graph.callee?, hn]) hcallee

theorem run_shares_idle_sum :
    let s : RuleSet := ⟨[.doubleNegation], 8⟩
    let g := sumsAndNegations
    g.Closed 5 ∧ g.Acyclic 5 ∧ (∀ r ∈ s.rules, r.Leaves Graph.Keeps) ∧
      (∃ done p, exec (s.visitEach (g.postOrder 5) {}) ⟨g, #[]⟩ = (.ok done, p) ∧
        p.graph = g.push (.call Op.add [2, 2] [] none) ∧ 2 ∈ done ∧ done.apply 2 = 2) ∧
      (∃ copied, copied.Sublist [0, 1, 2, 3, 4, 5] ∧
        s.Makes ⟨g, #[]⟩ copied (exec (s.run 5) ⟨g, #[]⟩).2) ∧
      exec (s.runOn 2) g = (.ok 2, g) := by
  intro s g
  have hascending : g.Ascending := by decide
  have hclosed : ∀ e < 6, g.Closed e := fun e he ↦ hascending.closed he
  have hs : ∀ r ∈ s.rules, r.Leaves Graph.Keeps := by
    intro r hr
    cases List.mem_singleton.1 hr
    exact fun _ _ _ g ↦ .refl g
  have hle {e : NodeId} (he : g.Reaches 2 e) : e ≤ 2 := by
    induction he with
    | refl => exact Nat.le_refl 2
    | tail _ ha ih => exact (Nat.le_of_lt (hascending.lt ha)).trans ih
  have hcallee : ∀ e ≤ 2, g.callee? e ≠ some Op.negative := by decide
  have hidle {h : Graph} {e : NodeId} (hg : g.Keeps h) (he : g.Reaches 2 e) : s.Idle h e :=
    idle_doubleNegation hg (hclosed 2 (by decide) e he) (hcallee e (hle he))
  have horder : g.postOrder 5 = [0, 1, 2, 3, 4, 5] := by cbv
  have hreach : g.Reaches 5 2 := .single (by decide : 2 ∈ g.args 5)
  obtain ⟨-, -, hshared, -, hcopied⟩ :=
    run_shares_idle (hclosed 5 (by decide)) (hascending.acyclic 5) hs
  obtain ⟨-, -, -, hroot, -⟩ := run_shares_idle (hclosed 2 (by decide)) (hascending.acyclic 2) hs
  refine ⟨hclosed 5 (by decide), hascending.acyclic 5, hs, ?_, horder ▸ hcopied,
    hroot fun e he ↦ hidle (.refl g) he⟩
  obtain ⟨-, hplace⟩ := hshared 2 hreach fun e done p he hcomes ↦ hidle (hcomes.keeps hs) he
  rw [horder] at hplace ⊢
  have hgraph : (exec (s.visitEach [0, 1, 2, 3, 4, 5] {}) ⟨g, #[]⟩).2.graph =
      g.push (.call Op.add [2, 2] [] none) := by decide +kernel
  have hok : (exec (s.visitEach [0, 1, 2, 3, 4, 5] {}) ⟨g, #[]⟩).1.isOk = true := by decide +kernel
  rcases hexec : exec (s.visitEach [0, 1, 2, 3, 4, 5] {}) ⟨g, #[]⟩ with ⟨_ | done, p⟩
  · rw [hexec] at hok
    cases hok
  · rw [hexec] at hgraph
    exact ⟨done, p, rfl, hgraph, hplace done p hexec⟩

end Sums

end TensorOpt.RuleSet
