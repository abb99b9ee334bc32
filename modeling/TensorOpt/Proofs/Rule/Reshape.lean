import TensorOpt.Proofs.Rule.Preserves
import TensorOpt.Proofs.Tensor.Interpretation
import TensorOpt.Rule.Reshape

namespace TensorOpt

variable {V : Type} [Inhabited V] {c : Catalog} {I : Interpretation V c} {g₀ g g' : Graph}
  {pre post e x : NodeId} {b : Bindings}

namespace Rule.Reshape

theorem exec_apply {τ : TensorType} (hfirst : b.first? pattern.2 = some x)
    (htype : g.type? pre = some τ) (h : exec (Rule.reshape.apply pre post b) g = (.ok e, g')) :
    e = post ∧ g' = g ∨ ∃ shape, e = g.size ∧ g' = g.push (.reshape x shape τ) := by
  simp only [Rule.reshape, apply, hfirst, exec_bind_ok] at h
  obtain ⟨τ', g₁, hchecked, h⟩ := h
  obtain ⟨htype', rfl⟩ := exec_of_checkedType hchecked
  obtain rfl : τ = τ' := Option.some.inj (htype.symm.trans htype')
  split at h
  next =>
    cases h
    exact .inl ⟨rfl, rfl⟩
  next shape _ =>
    cases h
    exact .inr ⟨shape, rfl, rfl⟩

theorem exec_apply_static {τ : TensorType} {shape : List Word}
    (hfirst : b.first? pattern.2 = some x) (htype : g.type? pre = some τ)
    (hshape : τ.staticShape? = some shape) :
    exec (Rule.reshape.apply pre post b) g = (.ok g.size, g.push (.reshape x shape τ)) := by
  simp only [Rule.reshape, apply, hfirst]
  refine exec_bind_ok.2 ⟨τ, g, exec_checkedType htype, ?_⟩
  rw [hshape]
  rfl

end Rule.Reshape

namespace Interpretation

variable {σ τ : TensorType} {t u : Tensor V}

theorem eq_reinterpret {n : Node} (hn : n.Reshapes) (hu : u.HasType I.extent σ)
    (h : I.typed n [(σ, u)] = some (τ, t)) :
    σ.dtype = τ.dtype ∧ Extents.volume (σ.extents I.extent) = Extents.volume (τ.extents I.extent) ∧
      t = u.reinterpret (τ.extents I.extent) := by
  obtain ⟨hconsistent, rfl⟩ := typed_eq_some.1 h
  obtain ⟨hdtype, hvolume⟩ := hconsistent.reshape hn rfl
  refine ⟨hdtype, hvolume, I.reshape hn hconsistent.type? (hu.1.trans hdtype) ?_⟩
  rw [hu.2, hvolume]

theorem typed_reshape (x : NodeId) (shape : List Word) (hu : u.HasType I.extent σ)
    (hdtype : σ.dtype = τ.dtype)
    (hvolume : Extents.volume (σ.extents I.extent) = Extents.volume (τ.extents I.extent)) :
    I.typed (Node.reshape x shape τ).head [(σ, u)] =
      some (τ, u.reinterpret (τ.extents I.extent)) := by
  have hcallee : (Node.reshape x shape τ).head.callee? = some Op.reshape := rfl
  refine typed_eq_some.2 ⟨⟨rfl, nofun, ?_, ?_, ?_, ?_, ?_⟩, ?_⟩
  · rintro - _ ⟨⟩
    exact ⟨hdtype, hvolume⟩
  · simp [Node.Permutes, hcallee, Op.reshape, Op.transpose, Op.layoutTransform]
  · simp [hcallee, Op.reshape, Op.layoutTransform]
  · simp [Node.fillOperand?, hcallee, Op.reshape, Op.full]
  · rintro - _ _ ⟨⟩
  · exact I.reshape (.inl hcallee) rfl (hu.1.trans hdtype) (by rw [hu.2, hvolume])

end Interpretation

theorem reshapes_of_matchesOp {l l₁ l₂ : Label} {op : String}
    (h : (Pattern.alt l [.op l₁ Op.reshape, .op l₂ Op.reverseReshape]).matchesOp c op)
    (attrs : Attrs) (type? : Option TensorType) : Node.Reshapes ⟨.call op [] attrs, type?⟩ := by
  have hop : Op.reshape = op ∨ Op.reverseReshape = op := by
    simpa [Pattern.matchesOp, Pattern.anyMatchesOp] using h
  exact hop.imp (fun h ↦ congrArg some h.symm) fun h ↦ congrArg some h.symm

theorem preserves_reshape : Rule.reshape.Preserves I.typed g₀ := by
  intro g g' pre post e ⟨τ, t⟩ b f hg hmatch hpre hf hexec
  obtain ⟨x, y, op, op', attrs, attrs', type?, type?', hn, hn', hop, hop', rfl⟩ :=
    Pattern.match?_call_call hmatch
  obtain ⟨⟨σ, u⟩, hy, hm⟩ := (means_unary hn).1 hpre
  obtain ⟨⟨υ, w⟩, hx, hm'⟩ := (means_unary hn').1 hy
  obtain ⟨htype, -⟩ := Interpretation.type?_of_means hpre
  obtain ⟨-, hu⟩ := Interpretation.type?_of_means hy
  obtain ⟨-, hw⟩ := Interpretation.type?_of_means hx
  obtain ⟨hdtype, hvolume, rfl⟩ :=
    Interpretation.eq_reinterpret (reshapes_of_matchesOp hop attrs type?) hu hm
  obtain ⟨hdtype', hvolume', rfl⟩ :=
    Interpretation.eq_reinterpret (reshapes_of_matchesOp hop' attrs' type?') hw hm'
  rw [Tensor.reinterpret_reinterpret hvolume.symm] at hpre ⊢
  rcases Rule.Reshape.exec_apply rfl htype hexec with ⟨rfl, rfl⟩ | ⟨shape, rfl, rfl⟩
  · exact ⟨.refl _, hf.means_post hpre⟩
  · have hreach : g.Reaches pre x := Pattern.reaches_of_match? hmatch List.mem_cons_self
    refine ⟨.push _ _, .push (.cons (hf.means hreach hx) .nil) ?_⟩
    exact Interpretation.typed_reshape (f x) shape hw (hdtype'.trans hdtype)
      (hvolume'.trans hvolume)

end TensorOpt
