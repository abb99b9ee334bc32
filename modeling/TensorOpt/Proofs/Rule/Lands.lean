import TensorOpt.Proofs.Graph.Typed
import TensorOpt.Proofs.Rule.Engine

namespace TensorOpt

variable {σ α β : Type} {graph : σ → Graph} {P : Graph → NodeId → Prop} {Q : α → Graph → Prop}
  {g : Graph} {pre post e : NodeId} {b : Bindings} {f : NodeId → NodeId} {s : RuleSet}
  {p : Progress}

def RuleError.IsUntyped : RuleError → Prop
  | .untyped _ | .graph (.untyped _) => True
  | _ => False

def Except.Typed (x : Except RuleError α) : Prop := ∀ e, x = .error e → ¬e.IsUntyped

/-- The outcome of a computation that has made typed nodes only, of nodes with the property, and has
come to something of which `Q` holds. It fails for want of a type only if a node with the property
has not been made. -/
def Lands (graph : σ → Graph) (P : Graph → NodeId → Prop) (Q : α → Graph → Prop) (g : Graph) :
    Except RuleError α × σ → Prop
  | (.ok a, t) => Builds P g (graph t) ∧ Q a (graph t)
  | (.error e, t) => e.IsUntyped → ∃ a, P (graph t) a ∧ (graph t).node? a = none

namespace Lands

theorem pure {a : α} {s : σ} (ha : Q a (graph s)) : Lands graph P Q (graph s) (.ok a, s) :=
  ⟨.refl, ha⟩

theorem bind {x : ExceptT RuleError (StateM σ) α} {f : α → ExceptT RuleError (StateM σ) β} {s : σ}
    {R : β → Graph → Prop} (hx : Lands graph P Q g (exec x s))
    (hf : ∀ a t, Builds P g (graph t) → Q a (graph t) →
      Lands graph P R (graph t) (exec (f a) t)) : Lands graph P R g (exec (x >>= f) s) := by
  rw [exec_bind]
  generalize exec x s = out at hx ⊢
  rcases out with ⟨_ | a, t⟩
  · exact hx
  · obtain ⟨hbuilds, ha⟩ := hx
    have hrest := hf a t hbuilds ha
    simp only
    generalize exec (f a) t = out at hrest ⊢
    rcases out with ⟨_ | b, u⟩
    · exact hrest
    · exact ⟨hbuilds.trans hrest.1, hrest.2⟩

theorem push {n : Node} (hP : Lasting P) (htype : n.type?.isSome) (hargs : ∀ a ∈ n.args, P g a) :
    Lands id P (fun e g ↦ P g e) g (exec (Build.push n) g) :=
  ⟨.push .refl htype hargs, hP.made htype hargs⟩

theorem ask {x : Graph → Except RuleError α} (hx : Except.Typed (x g)) :
    Lands id P (fun _ _ ↦ True) g (exec (Build.ask x) g) := by
  rw [exec_ask]
  cases h : x g with
  | error e => exact fun huntyped ↦ absurd huntyped (hx e h)
  | ok a => exact ⟨.refl, trivial⟩

theorem checkedType (hP : Lasting P) (he : P g e) :
    Lands id P (fun _ _ ↦ True) g (exec (Rule.checkedType e) g) := by
  rw [Rule.checkedType, exec_ask, Graph.checkedType]
  cases htype : g.type? e with
  | some τ => exact ⟨.refl, trivial⟩
  | none =>
    intro _
    refine ⟨e, he, ?_⟩
    cases hn : g.node? e with
    | none => exact hn
    | some n =>
      have htype' := hP.typed he hn
      rw [← Graph.type?_of_node? hn, htype] at htype'
      cases htype'

theorem build {x : Build RuleError α} (h : Lands id P Q g (exec x p.graph)) :
    Lands Progress.graph P Q g (exec (Run.build x) p) := by
  rw [exec_build]
  generalize exec x p.graph = out at h ⊢
  rcases out with ⟨_ | a, g'⟩ <;> exact h

theorem fire {r : Rule} {Q : NodeId → Graph → Prop}
    (h : Lands id P Q g (exec (r.apply pre post b) p.graph)) :
    Lands Progress.graph P Q g (exec (Run.fire r pre post b) p) := by
  rw [exec_fire]
  generalize exec (r.apply pre post b) p.graph = out at h ⊢
  rcases out with ⟨_ | a, g'⟩ <;> exact h

end Lands

def Rule.Keeps (P : Graph → NodeId → Prop) (r : Rule) : Prop :=
  ∀ ⦃g pre post b f⦄, r.pattern.match? g pre = some b → P g pre → P g post →
    (∀ e, g.Reaches pre e → P g (f e)) →
      Lands id P (fun e g ↦ P g e) g (exec (r.apply pre post (b.map f)) g)

namespace RuleSet

variable {done : Replacements}

theorem attempt_lands (hs : ∀ r ∈ s.rules, r.Keeps P) (hpre : P p.graph pre)
    (hpost : P p.graph post) (hf : ∀ e, p.graph.Reaches pre e → P p.graph (f e)) :
    Lands Progress.graph P (fun o g ↦ ∀ q ∈ o, P g q.2) p.graph
      (exec (s.attempt pre post f) p) := by
  rw [attempt, exec_bind, exec_graph]
  simp only
  split
  next => exact .pure fun q hq ↦ absurd hq (Option.not_mem_none q)
  next r b hfirst =>
    obtain ⟨hr, hmatch⟩ := firstMatch?_eq_some hfirst
    refine (Lands.fire (hs r hr hmatch hpre hpost hf)).bind fun e p' _ he ↦ .pure fun q hq ↦ ?_
    cases Option.mem_some.1 hq
    exact he

theorem settle_lands (hP : Lasting P) (hs : ∀ r ∈ s.rules, r.Keeps P) (rounds : Nat)
    (he : P p.graph e) :
    Lands Progress.graph P (fun e g ↦ P g e) p.graph (exec (s.settle rounds e) p) := by
  induction rounds generalizing e p with
  | zero => exact .pure he
  | succ n ih =>
    rw [settle]
    refine (attempt_lands hs he he fun a ha ↦ hP.reaches he ha).bind fun o p' hbuilds ho ↦ ?_
    split
    next r e' =>
      split
      next => exact .pure (hP.builds hbuilds he)
      next => exact ih (ho _ rfl)
    next => exact .pure (hP.builds hbuilds he)

theorem apply_of_done (hdone : ∀ a ∈ done, P g (done.apply a)) (he : P g e) :
    P g (done.apply e) := by
  by_cases hmem : e ∈ done
  · exact hdone e hmem
  · rwa [Replacements.apply, Std.TreeMap.getD_eq_fallback hmem]

theorem visit_lands (hP : Lasting P) (hs : ∀ r ∈ s.rules, r.Keeps P) (hpre : P p.graph pre)
    (hpost : P p.graph post) (hdone : ∀ e ∈ done, P p.graph (done.apply e)) :
    Lands Progress.graph P (fun e g ↦ P g e) p.graph (exec (s.visit done pre post) p) := by
  have hlookup (e : NodeId) (he : p.graph.Reaches pre e) :
      P p.graph (if e = pre then post else done.apply e) := by
    split
    next => exact hpost
    next => exact apply_of_done hdone (hP.reaches hpre he)
  have hattempt := attempt_lands (p := ⟨p.graph, p.events.push (.visited pre post)⟩) hs hpre hpost
    hlookup
  rw [visit, exec_bind, exec_note]
  refine hattempt.bind fun o p' hbuilds ho ↦ ?_
  split
  next => exact .pure (hP.builds hbuilds hpost)
  next r e =>
    split
    next => exact settle_lands hP hs s.rounds (ho _ rfl)
    next => exact .pure (ho _ rfl)

theorem rebuild_lands (hP : Lasting P) (hpre : P g pre) (hdone : ∀ e ∈ done, P g (done.apply e)) :
    Lands id P (fun e g ↦ P g e) g (exec (rebuild done pre) g) := by
  rw [rebuild, exec_bind, exec_get]
  simp only
  split
  next => exact ⟨.refl, hpre⟩
  next n hn =>
    split
    next => exact ⟨.refl, hpre⟩
    next =>
      refine .push hP ?_ fun a ha ↦ ?_
      · rw [← Node.type?_head, Node.head_withArgs, Node.type?_head]
        exact hP.typed hpre hn
      · rw [Node.args_withArgs_map] at ha
        obtain ⟨a', ha', rfl⟩ := List.mem_map.1 ha
        exact apply_of_done hdone (hP.arg hpre (Graph.args_of_node? hn ▸ ha'))

theorem leave_lands (hP : Lasting P) (hs : ∀ r ∈ s.rules, r.Keeps P) (he : P p.graph e)
    (hdone : ∀ a ∈ done, P p.graph (done.apply a)) :
    Lands Progress.graph P (fun e g ↦ P g e) p.graph
      (exec (Run.build (rebuild done e) >>= s.visit done e) p) := by
  refine (Lands.build (rebuild_lands hP he hdone)).bind fun post p' hbuilds hpost ↦ ?_
  exact visit_lands hP hs (hP.builds hbuilds he) hpost fun a ha ↦ hP.builds hbuilds (hdone a ha)

theorem walk_lands {bound : Nat} {tasks : List Graph.Task} {opened : Std.TreeSet NodeId}
    (hP : Lasting P) (hs : ∀ r ∈ s.rules, r.Keeps P) (htasks : ∀ t ∈ tasks, P p.graph t.node)
    (hdone : ∀ e ∈ done, P p.graph (done.apply e)) :
    Lands Progress.graph P (fun done g ↦ ∀ e ∈ done, P g (Replacements.apply done e)) p.graph
      (exec (s.walk bound tasks opened done) p) := by
  fun_induction RuleSet.walk s bound tasks opened done generalizing p with
  | case1 opened done => exact .pure hdone
  | case2 opened done e rest ih =>
    rw [← bind_assoc]
    refine (leave_lands hP hs (htasks _ List.mem_cons_self) hdone).bind fun e' p' hbuilds he' ↦ ?_
    refine ih e' (fun t ht ↦ hP.builds hbuilds (htasks t (List.mem_cons_of_mem _ ht))) ?_
    intro a ha
    rw [Replacements.apply_insert]
    split
    next => exact he'
    next hne =>
      have hmem := (Replacements.mem_insert.1 ha).resolve_right (Ne.symm hne)
      exact hP.builds hbuilds (hdone a hmem)
  | case3 opened done e rest hmem ih =>
    exact ih (fun t ht ↦ htasks t (List.mem_cons_of_mem _ ht)) hdone
  | case4 opened done e rest hmem hopened => exact False.elim
  | case5 opened done e rest hmem hopened hbound ih =>
    rw [exec_bind, exec_graph]
    simp only
    split
    next => exact False.elim
    next n hn =>
      have he : P p.graph e := htasks _ List.mem_cons_self
      refine ih n (Graph.forall_node_open htasks fun a ha ↦ ?_) hdone
      exact hP.arg he (Graph.args_of_node? hn ▸ ha)
  | case6 opened done e rest hmem hopened hbound => exact False.elim

theorem runOn_lands {root : NodeId} (hP : Lasting P) (hs : ∀ r ∈ s.rules, r.Keeps P)
    (hroot : P g root) : Lands id P (fun e g ↦ P g e) g (exec (s.runOn root) g) := by
  have hrun : Lands Progress.graph P (fun e g ↦ P g e) g (exec (s.run root) ⟨g, #[]⟩) := by
    have htasks : ∀ t ∈ [Graph.Task.enter root], P g t.node := by
      intro t ht
      cases List.mem_singleton.1 ht
      exact hroot
    rw [run, exec_bind, exec_graph]
    refine Lands.bind (s := ⟨g, #[]⟩) (walk_lands hP hs htasks ?_) fun done p' hbuilds hdone ↦ ?_
    · exact fun e he ↦ absurd he Std.TreeMap.not_mem_emptyc
    · exact .pure (apply_of_done hdone (hP.builds hbuilds hroot))
  rw [exec_runOn_run]
  generalize exec (s.run root) ⟨g, #[]⟩ = out at hrun ⊢
  rcases out with ⟨_ | e, p'⟩ <;> exact hrun

end RuleSet

end TensorOpt
