import TensorOpt.Proofs.Graph.Frame
import TensorOpt.Proofs.Rule.Preserves
import TensorOpt.Simplify

namespace TensorOpt

variable {R : Graph → Graph → Prop} {s : RuleSet} {pre post e : NodeId} {b : Bindings}
  {done : Replacements}

def Rule.Leaves (R : Graph → Graph → Prop) (r : Rule) : Prop :=
  ∀ pre post b, TensorOpt.Leaves id R (r.apply pre post b)

namespace Leaves

theorem build {α : Type} {x : Build RuleError α} (hx : Leaves id R x) :
    Leaves Progress.graph R (Run.build x) := fun p ↦ hx p.graph

theorem fire {r : Rule} (hr : r.Leaves R) (pre post : NodeId) (b : Bindings) :
    Leaves Progress.graph R (Run.fire r pre post b) := fun p ↦ hr pre post b p.graph

theorem graph (hR : Frame R) : Leaves Progress.graph R Run.graph := fun p ↦ hR.refl p.graph

theorem note (hR : Frame R) (event : Event) : Leaves Progress.graph R (Run.note event) :=
  fun p ↦ hR.refl p.graph

theorem checkedType (hR : Frame R) (e : NodeId) : Leaves id R (Rule.checkedType e) := .ask hR _

end Leaves

namespace RuleSet

theorem leaves_attempt (hR : Frame R) (hs : ∀ r ∈ s.rules, r.Leaves R) (f : NodeId → NodeId) :
    Leaves Progress.graph R (s.attempt pre post f) := by
  intro p
  rw [attempt, exec_bind, exec_graph]
  simp only
  split
  next => exact hR.refl _
  next r b hfirst =>
    obtain ⟨hr, -⟩ := firstMatch?_eq_some hfirst
    exact (Leaves.fire (hs r hr) pre post _).bind hR (fun e ↦ .pure hR _) p

theorem leaves_settle (hR : Frame R) (hs : ∀ r ∈ s.rules, r.Leaves R) (rounds : Nat) :
    Leaves Progress.graph R (s.settle rounds e) := by
  induction rounds generalizing e with
  | zero => exact .pure hR e
  | succ n ih =>
    refine (leaves_attempt hR hs id).bind hR fun o ↦ ?_
    split
    next r e' =>
      split
      next => exact .pure hR e
      next => exact ih
    next => exact .pure hR e

theorem leaves_rebuild (hR : Frame R) : Leaves id R (rebuild done pre) := by
  refine (Leaves.get hR).bind hR fun g ↦ ?_
  split
  next => exact .pure hR pre
  next n _ =>
    dsimp only
    split
    next => exact .pure hR pre
    next => exact .push hR _

theorem leaves_visit (hR : Frame R) (hs : ∀ r ∈ s.rules, r.Leaves R) :
    Leaves Progress.graph R (s.visit done pre post) := by
  refine (Leaves.note hR _).bind hR fun _ ↦ (leaves_attempt hR hs _).bind hR fun o ↦ ?_
  split
  next => exact .pure hR post
  next r e =>
    split
    next => exact leaves_settle hR hs s.rounds
    next => exact .pure hR e

theorem leaves_leave (hR : Frame R) (hs : ∀ r ∈ s.rules, r.Leaves R) (done : Replacements)
    (e : NodeId) : Leaves Progress.graph R (Run.build (rebuild done e) >>= s.visit done e) :=
  (Leaves.build (leaves_rebuild hR)).bind hR fun _ ↦ leaves_visit hR hs

theorem leaves_walk {bound : Nat} {tasks : List Graph.Task} {opened : Std.TreeSet NodeId}
    (hR : Frame R) (hs : ∀ r ∈ s.rules, r.Leaves R) :
    Leaves Progress.graph R (s.walk bound tasks opened done) := by
  fun_induction RuleSet.walk s bound tasks opened done with
  | case1 opened done => exact .pure hR done
  | case2 opened done e rest ih =>
    refine (Leaves.build (leaves_rebuild hR)).bind hR fun post ↦ ?_
    exact (leaves_visit hR hs).bind hR fun e' ↦ ih e'
  | case3 opened done e rest hmem ih => exact ih
  | case4 opened done e rest hmem hopened => exact .throw hR _
  | case5 opened done e rest hmem hopened hbound ih =>
    refine (Leaves.graph hR).bind hR fun g ↦ ?_
    split
    next => exact .throw hR _
    next n _ => exact ih n
  | case6 opened done e rest hmem hopened hbound => exact .throw hR _

/-- Whatever its outcome, a run leaves the graph as its rules do. -/
theorem leaves_runOn (hR : Frame R) (hs : ∀ r ∈ s.rules, r.Leaves R) (root : NodeId) :
    Leaves id R (s.runOn root) := by
  have hrun : Leaves Progress.graph R (s.run root) :=
    (Leaves.graph hR).bind hR fun g ↦ (leaves_walk hR hs).bind hR fun done ↦ .pure hR _
  exact fun g ↦ hrun ⟨g, #[]⟩

end RuleSet

theorem leaves_reshape (hR : Frame R) : Rule.reshape.Leaves R := by
  intro pre post b
  show Leaves id R (Rule.Reshape.apply pre post b)
  rw [Rule.Reshape.apply]
  split
  next => exact .pure hR post
  next x _ =>
    refine (Leaves.checkedType hR pre).bind hR fun τ ↦ ?_
    split
    next => exact .pure hR post
    next => exact .push hR _

theorem leaves_place {data : NodeId} {τ : TensorType} (hR : Frame R)
    (fused : Rule.Transpose.Fused) : Leaves id R (Rule.Transpose.place data τ fused) := by
  cases fused with
  | layouts src dst =>
    rw [Rule.Transpose.place]
    split
    next => exact .pure hR data
    next => exact .push hR _
  | axes order =>
    rw [Rule.Transpose.place]
    split
    next => exact .pure hR data
    next => exact .push hR _

theorem leaves_transpose (hR : Frame R) : Rule.transpose.Leaves R := by
  intro pre post b
  show Leaves id R (Rule.Transpose.apply pre post b)
  refine (Leaves.get hR).bind hR fun g ↦ ?_
  split
  next => exact .pure hR post
  next inner _ _ =>
    split
    next =>
      split
      next => exact .pure hR post
      next data _ _ =>
        refine (Leaves.checkedType hR pre).bind hR fun τ ↦ ?_
        exact (Leaves.ask hR _).bind hR fun fused ↦ leaves_place hR fused
    next => exact .pure hR post

theorem leaves_value? {dtype : DType} (hR : Frame R) : Leaves id R (Rule.Fill.value? b dtype) := by
  have hword (w : Word) : Leaves id R (do
      return some (← Build.push (.const (.ofWord dtype w))) : Build RuleError (Option NodeId)) :=
    (Leaves.push hR _).bind hR fun v ↦ .pure hR _
  rw [Rule.Fill.value?]
  split
  next =>
    split
    next => exact .pure hR none
    next v _ =>
      refine (Leaves.get hR).bind hR fun g ↦ ?_
      split
      next => exact .pure hR (some v)
      next => exact .throw hR _
  next =>
    split
    next => exact hword 1
    next =>
      split
      next => exact hword 0
      next => exact .pure hR none

theorem leaves_fill (hR : Frame R) : Rule.fill.Leaves R := by
  intro pre post b
  show Leaves id R (Rule.Fill.apply pre post b)
  rw [Rule.Fill.apply]
  split
  next => exact .pure hR post
  next x _ =>
    refine (Leaves.checkedType hR pre).bind hR fun τ ↦ (Leaves.get hR).bind hR fun g ↦ ?_
    split
    next op lhs rhs attrs _ _ =>
      dsimp only
      refine (Leaves.checkedType hR _).bind hR fun τ' ↦ ?_
      split
      next => exact .pure hR post
      next =>
        refine (leaves_value? hR).bind hR fun o ↦ ?_
        split
        next => exact .pure hR post
        next => exact .push hR _
    next => exact .pure hR post

theorem leaves_standard (hR : Frame R) {rounds : Nat} :
    ∀ r ∈ (RuleSet.standard rounds).rules, r.Leaves R :=
  RuleSet.forall_standard.2 ⟨leaves_reshape hR, leaves_transpose hR, leaves_fill hR⟩

theorem leaves_simplify (hR : Frame R) (rounds : Nat) (root : NodeId) :
    Leaves id R (simplify rounds root) := by
  refine (Leaves.get hR).bind hR fun g ↦ ?_
  split
  next => exact .throw hR _
  next => exact RuleSet.leaves_runOn hR (leaves_standard hR) root

end TensorOpt
