import TensorOpt.Proofs.Rule.Fuse
import TensorOpt.Proofs.Rule.Preserves

namespace TensorOpt

variable {P : RuleError → Prop} {g : Graph} {outer inner call pre post : NodeId} {rank : Nat}
  {b : Bindings}

def RuleError.OfCall : RuleError → Prop
  | .layoutMismatch _ _ | .notAxisPermuting _ | .invalidAxes _ _ | .missingAttr _ _ => True
  | .graph (.invalidLayout _) => True
  | _ => False

theorem Graph.layoutAttr_failsWith (key : String) :
    Except.FailsWith RuleError.OfCall (g.layoutAttr call key) := by
  rw [layoutAttr]
  split
  next => exact .mapError fun _ ↦ trivial
  next => exact .error trivial

theorem Graph.layouts_failsWith : Except.FailsWith RuleError.OfCall (g.layouts call) :=
  (layoutAttr_failsWith _).bind fun src _ ↦ (layoutAttr_failsWith _).bind fun dst _ ↦
    .ok (src, dst)

theorem Graph.axisOrder_failsWith : Except.FailsWith RuleError.OfCall (g.axisOrder call rank) := by
  rw [axisOrder]
  split
  next => exact .mapError fun _ ↦ trivial
  next =>
    split
    next => exact layouts_failsWith.bind fun _ _ ↦ .mapError fun _ ↦ trivial
    next => exact .error trivial

theorem AxisOrder.compose_failsWith {axes order : AxisOrder}
    (h : ∀ i ∈ order, axes.length ≤ i → P (.axisBeyondRank i rank)) :
    Except.FailsWith P (compose rank axes order) := by
  refine .mapM fun i hi ↦ ?_
  split
  next axis _ => exact .ok axis
  next hnone => exact .error (h i hi (List.getElem?_eq_none_iff.1 hnone))

namespace Rule.Transpose

theorem lengthChange?_failsWith : Except.FailsWith RuleError.OfCall (lengthChange? g call) := by
  rw [lengthChange?]
  split
  next => exact Graph.layouts_failsWith.bind fun _ _ ↦ .ok _
  next => exact .ok none

theorem changesLength_failsWith (calls : List NodeId) :
    Except.FailsWith RuleError.OfCall (changesLength g calls) := by
  induction calls with
  | nil => exact .ok false
  | cons call rest ih =>
    refine lengthChange?_failsWith.bind fun o _ ↦ ?_
    split
    next => exact .ok true
    next => exact ih

theorem fuseLayouts?_failsWith :
    Except.FailsWith RuleError.OfCall (fuseLayouts? g outer inner) := by
  refine (Graph.layoutAttr_failsWith _).bind fun expected _ ↦ ?_
  refine (Graph.layoutAttr_failsWith _).bind fun found _ ↦ ?_
  split
  next => exact .error trivial
  next =>
    refine (changesLength_failsWith _).bind fun changes _ ↦ ?_
    split
    next =>
      exact (Graph.layoutAttr_failsWith _).bind fun src _ ↦
        (Graph.layoutAttr_failsWith _).bind fun dst _ ↦ .ok _
    next => exact .ok none

theorem absorb?_failsWith : Except.FailsWith RuleError.OfCall (absorb? g outer inner) := by
  refine lengthChange?_failsWith.bind fun change _ ↦ ?_
  split
  next =>
    exact Graph.axisOrder_failsWith.bind fun order _ ↦
      (Except.FailsWith.mapError fun _ ↦ trivial).bind fun _ _ ↦ .ok _
  next =>
    refine lengthChange?_failsWith.bind fun change _ ↦ ?_
    split
    next =>
      exact Graph.axisOrder_failsWith.bind fun order _ ↦
        (Except.FailsWith.mapError fun _ ↦ trivial).bind fun _ _ ↦ .ok _
    next => exact .ok none

/-- The orders are composed only if neither call changes the length of the layout. -/
theorem fuse_failsWith (hP : ∀ e : RuleError, e.OfCall → P e)
    (hcompose : KeepsLength g outer inner → Except.FailsWith P (composeOrders g outer inner rank)) :
    Except.FailsWith P (fuse g outer inner rank) := by
  rw [fuse]
  split
  next =>
    refine (fuseLayouts?_failsWith.mono hP).bind fun fused hfused ↦ ?_
    cases fused with
    | some fused => exact .ok fused
    | none => exact (hcompose (fuseLayouts?_eq_none hfused)).bind fun order _ ↦ .ok _
  next =>
    refine (absorb?_failsWith.mono hP).bind fun fused hfused ↦ ?_
    cases fused with
    | some fused => exact .ok fused
    | none => exact (hcompose (absorb?_eq_none hfused)).bind fun order _ ↦ .ok _

theorem place_failsWith {data : NodeId} {τ : TensorType} (fused : Fused) :
    Except.FailsWith P (exec (place data τ fused) g).1 := by
  cases fused with
  | layouts src dst =>
    rw [place]
    split
    next => exact .ok data
    next => exact .ok _
  | axes order =>
    rw [place]
    split
    next => exact .ok data
    next => exact .ok _

structure FindsPair (g : Graph) (pre post inner : NodeId) (τ : TensorType) : Prop where
  arg : (g.args post).head? = some inner
  permutes : g.IsAxisPermuting inner
  data : g.args inner ≠ []
  type : g.type? pre = some τ

theorem apply_failsWith (hgraph : ∀ e, P (.graph e))
    (hfuse : ∀ inner τ, FindsPair g pre post inner τ →
      Except.FailsWith P (fuse g post inner τ.rank)) :
    Except.FailsWith P (exec (Rule.transpose.apply pre post b) g).1 := by
  show Except.FailsWith P (exec (Rule.Transpose.apply pre post b) g).1
  rw [apply, exec_bind, exec_get]
  dsimp only
  split
  next => exact .ok post
  next inner _ hpost =>
    split
    next hpermutes =>
      split
      next => exact .ok post
      next data _ hinner =>
        refine .exec_bind ?_ fun τ g' hchecked ↦ ?_
        · rw [Rule.checkedType, exec_ask]
          exact .mapError hgraph
        · obtain ⟨htype, rfl⟩ := exec_of_checkedType hchecked
          refine .exec_bind ?_ fun fused _ _ ↦ place_failsWith fused
          rw [exec_ask]
          refine hfuse inner τ ⟨?_, hpermutes, ?_, htype⟩
          · rw [hpost, List.head?_cons]
          · rw [hinner]
            exact List.cons_ne_nil _ _
    next => exact .ok post

end Rule.Transpose

end TensorOpt
