import TensorOpt.Proofs.Rule.AxisErrors
import TensorOpt.Proofs.Rule.Lands
import TensorOpt.Simplify

namespace TensorOpt

variable {P : Graph → NodeId → Prop} {g : Graph} {pre : NodeId} {b : Bindings} {f : NodeId → NodeId}

theorem first?_map_reaches {p : Pattern} {l : Label} {x : NodeId} (hmatch : p.match? g pre = some b)
    (hx : (b.map f).first? l = some x) : ∃ e, g.Reaches pre e ∧ f e = x := by
  rw [Bindings.first?, Bindings.all_map] at hx
  obtain ⟨e, he, hfe⟩ := List.mem_map.1 (List.mem_of_head? hx)
  obtain ⟨q, hq, hqe⟩ := List.mem_filterMap.1 he
  simp only [Option.ite_none_right_eq_some, Option.some.injEq] at hqe
  obtain ⟨-, rfl⟩ := hqe
  exact ⟨_, Pattern.reaches_of_match? hmatch hq, hfe⟩

theorem RuleError.OfCall.not_isUntyped {e : RuleError} (h : e.OfCall) : ¬e.IsUntyped := by
  intro huntyped
  unfold RuleError.IsUntyped at huntyped
  split at huntyped
  next => exact h
  next => exact h
  next => exact huntyped

theorem Rule.Transpose.typed_fuse {outer inner : NodeId} {rank : Nat} :
    Except.Typed (fuse g outer inner rank) := by
  have htyped {call : NodeId} : Except.FailsWith (¬·.IsUntyped) (g.axisOrder call rank) :=
    Graph.axisOrder_failsWith.mono fun _ ↦ RuleError.OfCall.not_isUntyped
  refine fuse_failsWith (fun _ ↦ RuleError.OfCall.not_isUntyped) fun _ ↦ ?_
  refine htyped.bind fun _ _ ↦ (AxisOrder.compose_failsWith fun _ _ _ ↦ id).bind fun _ _ ↦ ?_
  exact htyped.bind fun _ _ ↦ AxisOrder.compose_failsWith fun _ _ _ ↦ id

theorem keeps_reshape (hP : Lasting P) : Rule.reshape.Keeps P := by
  intro g pre post b f hmatch hpre hpost hf
  show Lands _ _ _ _ (exec (Rule.Reshape.apply pre post (b.map f)) g)
  rw [Rule.Reshape.apply]
  split
  next => exact ⟨.refl, hpost⟩
  next x hx =>
    obtain ⟨e, he, rfl⟩ := first?_map_reaches hmatch hx
    refine (Lands.checkedType hP hpre).bind fun τ g' hbuilds _ ↦ ?_
    split
    next => exact ⟨.refl, hP.builds hbuilds hpost⟩
    next shape _ =>
      refine .push hP rfl fun a ha ↦ ?_
      cases List.mem_singleton.1 ha
      exact hP.builds hbuilds (hf e he)

theorem value?_lands {dtype : DType} (hP : Lasting P)
    (hb : ∀ l x, b.first? l = some x → P g x) :
    Lands id P (fun o g ↦ ∀ v ∈ o, P g v) g (exec (Rule.Fill.value? b dtype) g) := by
  have hword (w : Word) : Lands id P (fun o g ↦ ∀ v ∈ o, P g v) g
      (exec (do return some (← Build.push (.const (.ofWord dtype w)))) g) := by
    refine (Lands.push hP rfl fun a ha ↦ absurd ha List.not_mem_nil).bind fun v g' _ hv ↦ ?_
    refine ⟨.refl, fun v' hv' ↦ ?_⟩
    cases Option.mem_some.1 hv'
    exact hv
  rw [Rule.Fill.value?]
  split
  next =>
    split
    next => exact ⟨.refl, nofun⟩
    next v hv =>
      rw [exec_bind, exec_get]
      simp only
      split
      next =>
        refine ⟨.refl, fun v' hv' ↦ ?_⟩
        cases Option.mem_some.1 hv'
        exact hb _ v hv
      next => exact nofun
  next =>
    split
    next => exact hword 1
    next =>
      split
      next => exact hword 0
      next => exact ⟨.refl, nofun⟩

theorem keeps_fill (hP : Lasting P) : Rule.fill.Keeps P := by
  intro g pre post b f hmatch hpre hpost hf
  have hb (l : Label) (x : NodeId) (hx : (b.map f).first? l = some x) : P g x := by
    obtain ⟨e, he, rfl⟩ := first?_map_reaches hmatch hx
    exact hf e he
  show Lands _ _ _ _ (exec (Rule.Fill.apply pre post (b.map f)) g)
  rw [Rule.Fill.apply]
  split
  next => exact ⟨.refl, hpost⟩
  next x hx =>
    refine (Lands.checkedType hP hpre).bind fun τ g₁ hbuilds _ ↦ ?_
    rw [exec_bind, exec_get]
    simp only
    split
    next op lhs rhs attrs _ hn =>
      have harg (a : NodeId) (ha : a ∈ [lhs, rhs]) : P g₁ a :=
        hP.arg (hP.builds hbuilds hpre) (Graph.args_of_node? hn ▸ ha)
      refine (Lands.checkedType hP ?_).bind fun τ' g₂ hbuilds' _ ↦ ?_
      · apply harg
        split <;> simp
      · have hkeep {a : NodeId} (ha : P g a) : P g₂ a := hP.builds (hbuilds.trans hbuilds') ha
        split
        next => exact ⟨.refl, hkeep hpost⟩
        next =>
          refine Lands.bind (value?_lands hP fun l x hx ↦ hkeep (hb l x hx)) ?_
          intro o g₃ hbuilds₃ ho
          split
          next => exact ⟨.refl, hP.builds hbuilds₃ (hkeep hpost)⟩
          next v =>
            refine .push hP rfl fun a ha ↦ ?_
            have hmem : a = v ∨ a = x := by
              simp only [Node.args] at ha
              split at ha
              next => simpa using ha
              next => simpa [or_comm] using ha
            rcases hmem with rfl | rfl
            · exact ho a rfl
            · exact hP.builds hbuilds₃ (hkeep (hb _ a hx))
    next => exact ⟨.refl, hP.builds hbuilds hpost⟩

theorem place_lands {data : NodeId} {τ : TensorType} (hP : Lasting P) (hdata : P g data)
    (fused : Rule.Transpose.Fused) :
    Lands id P (fun e g ↦ P g e) g (exec (Rule.Transpose.place data τ fused) g) := by
  have hpush {n : Node} (htype : n.type?.isSome) (hargs : n.args = [data]) :
      Lands id P (fun e g ↦ P g e) g (exec (Build.push n) g) := by
    refine .push hP htype fun a ha ↦ ?_
    rw [hargs] at ha
    cases List.mem_singleton.1 ha
    exact hdata
  cases fused with
  | layouts src dst =>
    rw [Rule.Transpose.place]
    split
    next => exact ⟨.refl, hdata⟩
    next => exact hpush rfl rfl
  | axes order =>
    rw [Rule.Transpose.place]
    split
    next => exact ⟨.refl, hdata⟩
    next => exact hpush rfl rfl

theorem keeps_transpose (hP : Lasting P) : Rule.transpose.Keeps P := by
  intro g pre post b f hmatch hpre hpost hf
  show Lands _ _ _ _ (exec (Rule.Transpose.apply pre post (b.map f)) g)
  rw [Rule.Transpose.apply, exec_bind, exec_get]
  simp only
  split
  next => exact ⟨.refl, hpost⟩
  next inner _ hinner =>
    split
    next =>
      split
      next => exact ⟨.refl, hpost⟩
      next data _ hdata =>
        have hinner' : P g inner := hP.arg hpost (hinner ▸ List.mem_cons_self)
        have hdata' : P g data := hP.arg hinner' (hdata ▸ List.mem_cons_self)
        refine (Lands.checkedType hP hpre).bind fun τ g₁ hbuilds _ ↦ ?_
        have hfuse : Lands id P (fun _ _ ↦ True) g₁
            (exec (Build.ask fun g ↦ Rule.Transpose.fuse g post inner τ.rank) g₁) :=
          .ask Rule.Transpose.typed_fuse
        refine hfuse.bind fun fused g₂ hbuilds' _ ↦ ?_
        exact place_lands hP (hP.builds (hbuilds.trans hbuilds') hdata') fused
    next => exact ⟨.refl, hpost⟩

end TensorOpt
