import TensorOpt.Proofs.Graph.Typed
import TensorOpt.Proofs.Rule.Engine
import TensorOpt.Proofs.Rule.Fill
import TensorOpt.Proofs.Rule.Reshape
import TensorOpt.Proofs.Rule.Transpose
import TensorOpt.Simplify

namespace TensorOpt

open AxisOrder (gather)
open Extents (volume broadcast?)

section Standard

variable {V : Type} [Inhabited V] {c : Catalog} {I : Interpretation V c} {g g' : Graph}
  {root r : NodeId} {rounds : Nat}

theorem preserves_standard (hc : g.catalog = c) :
    ∀ rule ∈ (RuleSet.standard rounds).rules, rule.Preserves I.typed g :=
  RuleSet.forall_standard.2 ⟨preserves_reshape, preserves_transpose, preserves_fill hc⟩

/-- Where everything is typed there is nothing to refuse. -/
theorem exec_simplify_of_typed (hroot : g.Typed root) :
    exec (simplify rounds root) g = exec ((RuleSet.standard rounds).runOn root) g := by
  rw [simplify, exec_bind, exec_get]
  simp only [Graph.untyped?_eq_none_iff.2 hroot]

theorem exec_simplify {ρ : String → Nat} (htyped : g.WellTyped ρ root) :
    exec (simplify rounds root) g = exec ((RuleSet.standard rounds).runOn root) g := by
  refine exec_simplify_of_typed fun e n he hn ↦ ?_
  obtain ⟨n', τ, args, hn', -, hconsistent⟩ := htyped e he
  cases hn.symm.trans hn'
  rw [← n.type?_head, hconsistent.type?]
  rfl

/-- What simplification gives has the type of the expression, and it means the same whatever the
operators mean that the rules do not know. -/
theorem simplify_keeps_meaning_and_type (I : Interpretation V g.catalog) (hacyclic : g.Acyclic root)
    (htyped : g.WellTyped I.extent root) (h : exec (simplify rounds root) g = (.ok r, g')) :
    g.Grows g' ∧ g'.type? r = g.type? root ∧ ∃ t, ∀ t', (Means I.semantics g root t' ↔ t' = t) ∧
      (Means I.semantics g' r t' ↔ t' = t) := by
  obtain ⟨⟨τ, t⟩, hroot⟩ := Interpretation.exists_means_typed hacyclic rfl htyped
  rw [exec_simplify htyped] at h
  obtain ⟨hgrows, hr⟩ := runOn_means (preserves_standard rfl) hroot h
  have htype := (Interpretation.type?_of_means hroot).1
  have htype' := (Interpretation.type?_of_means hr).1
  refine ⟨hgrows, htype'.trans htype.symm, t, fun t' ↦ ⟨?_, ?_⟩⟩
  · exact (Interpretation.semantics_of_means hroot).iff_eq
  · exact (Interpretation.semantics_of_means hr).iff_eq

end Standard

section Ones

def intTensor (shape : List Word) : TensorType := .ofStatic shape ⟨.int, 32, 1⟩

def sumOfOnes : Graph where
  nodes := #[.ones [2, 3] ⟨.int, 32, 1⟩, .transpose 0 none (intTensor [3, 2]),
    .transpose 1 (some [1, 0]) (intTensor [2, 3]), .binary Op.add 2 0 (intTensor [2, 3]),
    .reshape 3 [6] (intTensor [6]), .reverseReshape 4 [2, 3] (intTensor [3, 2])]

def sumOfOnesSimplified : Graph where
  nodes := sumOfOnes.nodes ++ #[.binary Op.add 0 0 (intTensor [2, 3]),
    .const (.ofWord ⟨.int, 32, 1⟩ 1), .binary Op.add 7 0 (intTensor [2, 3]),
    .reshape 8 [6] (intTensor [6]), .reverseReshape 9 [2, 3] (intTensor [3, 2]),
    .reshape 8 [3, 2] (intTensor [3, 2])]

theorem ascending_sumOfOnes : sumOfOnes.Ascending := by decide

theorem wellTyped_sumOfOnes (ρ : String → Nat) : sumOfOnes.WellTyped ρ 5 := by
  intro e he
  have hlt : e < 6 := ascending_sumOfOnes.closed (by decide) e he
  match e, hlt with
  | 0, _ =>
    refine ⟨_, _, [], rfl, rfl, rfl, nofun, ?_, ?_, ?_, nofun, ?_⟩
    · exact fun h ↦ absurd h (by decide)
    · exact fun h ↦ absurd h (by decide)
    · exact fun h ↦ absurd h (by decide)
    · rintro - _ _ ⟨⟩
  | 1, _ | 2, _ =>
    refine ⟨_, _, [_], rfl, rfl, rfl, nofun, ?_, ?_, ?_, ?_, ?_⟩
    · exact fun h ↦ absurd h (by decide)
    · exact fun _ ↦ ⟨_, [1, 0], rfl, rfl, rfl, rfl, rfl, by decide⟩
    · exact fun h ↦ absurd h (by decide)
    · exact fun h ↦ absurd (Node.callee?_of_fillOperand? h) (by decide)
    · rintro - _ _ ⟨⟩
  | 3, _ =>
    refine ⟨_, _, [_, _], rfl, rfl, rfl, nofun, ?_, ?_, ?_, ?_, ?_⟩
    · exact fun h ↦ absurd h (by decide)
    · exact fun h ↦ absurd h (by decide)
    · exact fun h ↦ absurd h (by decide)
    · exact fun h ↦ absurd (Node.callee?_of_fillOperand? h) (by decide)
    · rintro - _ _ ⟨⟩
      exact ⟨rfl, rfl⟩
  | 4, _ | 5, _ =>
    refine ⟨_, _, [_], rfl, rfl, rfl, nofun, ?_, ?_, ?_, ?_, ?_⟩
    · rintro - _ ⟨⟩
      exact ⟨rfl, rfl⟩
    · exact fun h ↦ absurd h (by decide)
    · exact fun h ↦ absurd h (by decide)
    · exact fun h ↦ absurd (Node.callee?_of_fillOperand? h) (by decide)
    · rintro - _ _ ⟨⟩

open RuleSet in
theorem exec_sumOfOnes : exec (simplify 1 5) sumOfOnes = (.ok 11, sumOfOnesSimplified) := by
  rw [exec_simplify (wellTyped_sumOfOnes fun _ ↦ 0), exec_runOn]
  iterate 6
    refine (congrArg _
      (exec_walk_enter (by decide +kernel) (by decide +kernel) (by decide +kernel) rfl)).trans ?_
  refine (congrArg _ (exec_walk_leave 0 0 (by decide +kernel) (by decide +kernel))).trans ?_
  refine (congrArg _ (exec_walk_leave 1 1 (by decide +kernel) (by decide +kernel))).trans ?_
  refine (congrArg _ (exec_walk_leave 2 0 (by decide +kernel) (by decide +kernel))).trans ?_
  refine (congrArg _ (exec_walk_seen (by decide +kernel))).trans ?_
  refine (congrArg _ (exec_walk_leave 6 8 (by decide +kernel) (by decide +kernel))).trans ?_
  refine (congrArg _ (exec_walk_leave 9 9 (by decide +kernel) (by decide +kernel))).trans ?_
  refine (congrArg _ (exec_walk_leave 10 11 (by decide +kernel) (by decide +kernel))).trans ?_
  exact (congrArg _ exec_walk_nil).trans (by decide +kernel)

def Interpretation.sums : Interpretation Int sumOfOnes.catalog :=
  .ofOther (fun _ ↦ 0) (fun _ _ a b ↦ a + b) (fun _ _ _ ↦ 1) (by decide +kernel)

theorem simplify_keeps_meaning_and_type_sumOfOnes :
    let I := Interpretation.sums
    let g := sumOfOnes
    let g' := sumOfOnesSimplified
    g.Acyclic 5 ∧ g.WellTyped I.extent 5 ∧ exec (simplify 1 5) g = (.ok 11, g') ∧ g.Grows g' ∧
      g'.type? 11 = g.type? 5 ∧ ∃ t, ∀ t', (Means I.semantics g 5 t' ↔ t' = t) ∧
        (Means I.semantics g' 11 t' ↔ t' = t) := by
  intro I g g'
  have hacyclic : g.Acyclic 5 := ascending_sumOfOnes.acyclic 5
  have htyped : g.WellTyped I.extent 5 := wellTyped_sumOfOnes I.extent
  have hrun : exec (simplify 1 5) g = (.ok 11, g') := exec_sumOfOnes
  exact ⟨hacyclic, htyped, hrun, simplify_keeps_meaning_and_type I hacyclic htyped hrun⟩

end Ones

end TensorOpt
