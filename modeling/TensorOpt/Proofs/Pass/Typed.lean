import TensorOpt.Pass.Pipeline
import TensorOpt.Proofs.Rule.Typed
import TensorOpt.Proofs.Simplify

namespace TensorOpt

variable {P : Graph → NodeId → Prop} {g g' : Graph} {root r e : NodeId} {rounds : Nat}
  {name : String} {q : Pass} {s s' : PipelineState} {p : Pipeline} {o : PassOptions}

theorem keeps_standard (rounds : Nat) (hP : Lasting P) :
    ∀ r ∈ (RuleSet.standard rounds).rules, r.Keeps P :=
  RuleSet.forall_standard.2 ⟨keeps_reshape hP, keeps_transpose hP, keeps_fill hP⟩

theorem typed_of_simplify (h : exec (simplify rounds root) g = (.ok r, g')) : g'.Typed r := by
  have hroot : g.Typed root := by
    refine Graph.untyped?_eq_none_iff.1 ?_
    rw [simplify, exec_bind, exec_get] at h
    simp only at h
    split at h
    next => cases h
    next huntyped => exact huntyped
  have hlands :=
    RuleSet.runOn_lands lasting_typed (keeps_standard rounds lasting_typed) hroot
  rw [← exec_simplify_of_typed hroot, h] at hlands
  exact hlands.2

/-- The pass was the last to run, and it reports that `e` has no type or has left it without one. -/
def Pass.Blames (q : Pass) (name : String) (e : NodeId) (s : PipelineState) : Prop :=
  ∃ (g : Graph) (root : NodeId) (runs : Array (String × NodeId)),
    s = ⟨(exec (q.run root) g).2, runs.push (q.name, root)⟩ ∧
    ((exec (q.run root) g).1 = .error (.untyped name e) ∨
      q.name = name ∧ ∃ r, (exec (q.run root) g).1 = .ok r ∧ s.graph.untyped? r = some e)

theorem not_blames_simplifyExpr : ¬(Pass.simplifyExpr rounds).Blames name e s := by
  rintro ⟨g, root, runs, rfl, h⟩
  have hrun : exec ((Pass.simplifyExpr rounds).run root) g =
    ((exec (simplify rounds root) g).1.mapError .rule, (exec (simplify rounds root) g).2) := rfl
  rw [hrun] at h
  rcases hsimplify : exec (simplify rounds root) g with ⟨_ | r, g'⟩
  · rw [hsimplify] at h
    rcases h with h | ⟨-, r, h, -⟩ <;> cases h
  · rw [hsimplify] at h
    rcases h with h | ⟨-, r, h, huntyped⟩
    · cases h
    · cases h
      rw [Graph.untyped?_eq_none_iff.2 (typed_of_simplify hsimplify)] at huntyped
      cases huntyped

namespace Pipeline

theorem exec_runPass (q : Pass) (root : NodeId) (s : PipelineState) : exec (runPass q root) s =
    ((exec (q.run root) s.graph).1,
      ⟨(exec (q.run root) s.graph).2, s.runs.push (q.name, root)⟩) := rfl

theorem blames_runPass (h : exec (runPass q root) s = (.error (.untyped name e), s')) :
    q.Blames name e s' := by
  rw [exec_runPass, Prod.mk.injEq] at h
  exact ⟨s.graph, root, s.runs, h.2.symm, .inl h.1⟩

theorem blames_runRequired {requiredBy : String} {names : List String}
    (h : exec (p.runRequired requiredBy names root) s = (.error (.untyped name e), s')) :
    ∃ q ∈ p.provided ++ p.passes, q.Blames name e s' := by
  induction names generalizing root s with
  | nil => cases h
  | cons required rest ih =>
    rw [runRequired] at h
    split at h
    next => cases h
    next q hfind =>
      rcases exec_bind_error.1 h with h | ⟨r, s₁, -, h⟩
      · exact ⟨q, List.mem_of_find?_eq_some hfind, blames_runPass h⟩
      · exact ih h

theorem blames_checkTyped {s₁ : PipelineState} (hrun : exec (runPass q root) s = (.ok r, s₁))
    (h : exec (checkTyped q r) s₁ = (.error (.untyped name e), s')) : q.Blames name e s' := by
  rw [checkTyped] at h
  split at h
  next =>
    rw [exec_bind, exec_get] at h
    simp only at h
    split at h
    next e' huntyped =>
      cases h
      rw [exec_runPass, Prod.mk.injEq] at hrun
      exact ⟨s.graph, root, s.runs, hrun.2.symm, .inr ⟨rfl, r, hrun.1, huntyped⟩⟩
    next => cases h
  next => cases h

theorem blames_runEach {passes : List Pass} (hpasses : ∀ q ∈ passes, q ∈ p.passes)
    (h : exec (p.runEach o passes root) s = (.error (.untyped name e), s')) :
    ∃ q ∈ p.provided ++ p.passes, q.Blames name e s' := by
  induction passes generalizing root s with
  | nil => cases h
  | cons q rest ih =>
    have hrest : ∀ q ∈ rest, q ∈ p.passes := fun q hq ↦ hpasses q (List.mem_cons_of_mem _ hq)
    have hq : q ∈ p.provided ++ p.passes :=
      List.mem_append_right _ (hpasses q List.mem_cons_self)
    rw [runEach] at h
    split at h
    next =>
      rcases exec_bind_error.1 h with h | ⟨r₁, s₁, -, h⟩
      · exact blames_runRequired h
      rcases exec_bind_error.1 h with h | ⟨r₂, s₂, hrun, h⟩
      · exact ⟨q, hq, blames_runPass h⟩
      rcases exec_bind_error.1 h with h | ⟨_, s₃, -, h⟩
      · exact ⟨q, hq, blames_checkTyped hrun h⟩
      · exact ih hrest h
    next => exact ih hrest h

end Pipeline

/-- Simplification of what is typed, has been made and does not depend on itself never fails for
want of a type, and comes to something of this kind. After it no pipeline finds a node without a
type, whatever passes came before it. -/
theorem simplify_stays_typed (hroot : g.Checked root) :
    (∀ e g', exec (simplify rounds root) g ≠ (.error (.untyped e), g') ∧
      exec (simplify rounds root) g ≠ (.error (.graph (.untyped e)), g')) ∧
    (∀ r g', exec (simplify rounds root) g = (.ok r, g') → g'.Checked r) ∧
    ∀ (p : Pipeline) (o : PassOptions) (start : NodeId) (s s' : PipelineState) (name : String)
      (e : NodeId), exec (p.run o start) s = (.error (.untyped name e), s') →
        ∃ q ∈ p.provided ++ p.passes, q.Blames name e s' ∧ ∀ rounds, q ≠ .simplifyExpr rounds := by
  have hlands :=
    RuleSet.runOn_lands lasting_checked (keeps_standard rounds lasting_checked) hroot
  rw [← exec_simplify_of_typed hroot.typed] at hlands
  have hfails {err : RuleError} {g' : Graph} (herr : err.IsUntyped) :
      exec (simplify rounds root) g ≠ (.error err, g') := by
    intro h
    rw [h] at hlands
    obtain ⟨a, ha, hnone⟩ := hlands herr
    obtain ⟨n, hn⟩ := Graph.node?_of_lt (ha.closed a .refl)
    cases hnone.symm.trans hn
  refine ⟨fun e g' ↦ ⟨hfails trivial, hfails trivial⟩, fun r g' h ↦ ?_, ?_⟩
  · rw [h] at hlands
    exact hlands.2
  · intro p o start s s' name e h
    obtain ⟨q, hq, hblames⟩ := Pipeline.blames_runEach (fun q hq ↦ hq) h
    refine ⟨q, hq, hblames, fun rounds hsimplify ↦ ?_⟩
    exact not_blames_simplifyExpr (hsimplify ▸ hblames)

theorem checked_sumOfOnes : sumOfOnes.Checked 5 :=
  ascending_sumOfOnes.checked (by decide) (by decide)

theorem simplify_stays_typed_sumOfOnes :
    sumOfOnes.Checked 5 ∧ exec (simplify 1 5) sumOfOnes = (.ok 11, sumOfOnesSimplified) ∧
      sumOfOnesSimplified.Checked 11 :=
  ⟨checked_sumOfOnes, exec_sumOfOnes,
    (simplify_stays_typed checked_sumOfOnes).2.1 11 sumOfOnesSimplified exec_sumOfOnes⟩

end TensorOpt
