import TensorOpt.Proofs.Rule.Fuse
import TensorOpt.Proofs.Rule.Preserves
import TensorOpt.Proofs.Tensor.Interpretation

namespace TensorOpt

open AxisOrder (gather IsOrder)

variable {V : Type} [Inhabited V] {c : Catalog} {I : Interpretation V c} {g₀ g g' h : Graph}
  {pre post e e' data : NodeId} {n : Node} {rank : Nat} {o : AxisOrder} {σ τ : TensorType}
  {t u : Tensor V} {src dst : Layout}

def Attrs.axes (attrs : Attrs) : List Word := ((attrs.get? Key.axes).bind Attribute.ints?).getD []

namespace Graph

theorem callee?_of_node? (hn : g.node? e = some n) : g.callee? e = n.callee? := by
  obtain ⟨kind, type?⟩ := n
  simp only [callee?, hn]
  cases kind <;> rfl

theorem attrs?_of_node? (hn : g.node? e = some n) : g.attrs? e = n.attrs? := by
  obtain ⟨kind, type?⟩ := n
  simp only [attrs?, hn]
  cases kind <;> rfl

theorem isCallTo_iff (hn : g.node? e = some n) {op : String} :
    g.IsCallTo e op ↔ n.head.callee? = some op := by
  rw [IsCallTo, callee?_of_node? hn, Node.callee?_head]

theorem isCallTo_transpose {args : List NodeId} {attrs : Attrs} {type? : Option TensorType}
    (hn : g.node? e = some ⟨.call Op.transpose args attrs, type?⟩) : g.IsCallTo e Op.transpose :=
  callee?_of_node? hn

theorem axisOrder_of_names {args : List NodeId} {attrs : Attrs} {type? : Option TensorType}
    (hn : g.node? e = some ⟨.call Op.transpose args attrs, type?⟩)
    (ho : AxisOrder.Names rank attrs.axes o) : g.axisOrder e rank = .ok o := by
  have hattr : g.attr? e Key.axes = attrs.get? Key.axes := by
    rw [attr?, attrs?_of_node? hn]
    rfl
  rw [axisOrder, if_pos (isCallTo_transpose hn), hattr]
  exact Except.mapError_eq_ok.2 (AxisOrder.ofAxes_of_names ho)

theorem node?_of_callee? {op : String} (h : g.callee? e = some op) :
    ∃ attrs type?, g.node? e = some ⟨.call op (g.args e) attrs, type?⟩ := by
  cases hn : g.node? e with
  | none =>
    rw [callee?, hn] at h
    cases h
  | some n =>
    obtain ⟨kind, type?⟩ := n
    rw [callee?_of_node? hn] at h
    rw [args_of_node? hn]
    cases kind with
    | call op' args attrs =>
      cases h
      exact ⟨attrs, type?, rfl⟩
    | _ => cases h

theorem IsAxisPermuting.node? (h : g.IsAxisPermuting e) : ∃ op ∈ Rule.Transpose.ops,
    ∃ attrs type?, g.node? e = some ⟨.call op (g.args e) attrs, type?⟩ := by
  rcases h with h | h
  · exact ⟨_, List.mem_cons_self, node?_of_callee? h⟩
  · exact ⟨_, List.mem_cons_of_mem _ List.mem_cons_self, node?_of_callee? h⟩

structure SameCall (g : Graph) (e : NodeId) (h : Graph) (e' : NodeId) : Prop where
  callee? : g.callee? e = h.callee? e'
  attrs? : g.attrs? e = h.attrs? e'

theorem sameCall_alone (hn : g.node? e = some n) : g.SameCall e n.head.alone 0 := by
  have hhead : n.head.alone.node? 0 = some n.head := rfl
  refine ⟨?_, ?_⟩
  · rw [callee?_of_node? hn, callee?_of_node? hhead, Node.callee?_head]
  · rw [attrs?_of_node? hn, attrs?_of_node? hhead, Node.attrs?_head]

namespace SameCall

theorem layouts (hs : g.SameCall e h e') : g.layouts e = h.layouts e' := by
  simp only [Graph.layouts, layoutAttr, attr?, hs.callee?, hs.attrs?]

theorem isCallTo (hs : g.SameCall e h e') (op : String) : g.IsCallTo e op ↔ h.IsCallTo e' op := by
  rw [IsCallTo, IsCallTo, hs.callee?]

theorem axisOrder (hs : g.SameCall e h e') :
    g.axisOrder e rank = .ok o ↔ h.axisOrder e' rank = .ok o := by
  have hattr : g.attr? e Key.axes = h.attr? e' Key.axes := by rw [attr?, attr?, hs.attrs?]
  unfold Graph.axisOrder
  by_cases htranspose : h.IsCallTo e' Op.transpose
  · rw [if_pos htranspose, if_pos ((hs.isCallTo _).2 htranspose), hattr]
  · rw [if_neg htranspose, if_neg (mt (hs.isCallTo _).1 htranspose), hs.layouts]
    by_cases hlayout : h.IsCallTo e' Op.layoutTransform
    · rw [if_pos hlayout, if_pos ((hs.isCallTo _).2 hlayout)]
    · rw [if_neg hlayout, if_neg (mt (hs.isCallTo _).1 hlayout)]
      exact ⟨nofun, nofun⟩

end SameCall

theorem named_of_layoutAttr {key : String} {l : Layout} (h : g.layoutAttr e key = .ok l) :
    l.Named := by
  simp only [layoutAttr] at h
  split at h
  next => exact Layout.parse_name (Except.mapError_eq_ok.1 h)
  next => cases h

/-- An axis order comes from a list of axes or from a pair of layouts. -/
theorem axisOrder_cases (h : g.axisOrder e rank = .ok o) :
    (g.IsCallTo e Op.transpose ∧ IsOrder rank o) ∨
      g.IsCallTo e Op.layoutTransform ∧
        ∃ src dst, g.layouts e = .ok (src, dst) ∧ AxisOrder.ofLayouts rank src dst = .ok o := by
  simp only [Graph.axisOrder] at h
  split at h
  next hcall => exact .inl ⟨hcall, AxisOrder.isOrder_ofAxes (Except.mapError_eq_ok.1 h)⟩
  next =>
    split at h
    next hcall =>
      obtain ⟨⟨src, dst⟩, hlayouts, h⟩ := Except.bind_eq_ok.1 h
      exact .inr ⟨hcall, src, dst, hlayouts, Except.mapError_eq_ok.1 h⟩
    next => cases h

theorem reorders_of_axisOrder (horder : g.axisOrder e rank = .ok o)
    (hlayouts : g.IsCallTo e Op.layoutTransform →
      ∃ src dst, g.layouts e = .ok (src, dst) ∧ src.axes.Perm dst.axes ∧ dst.rank = rank) :
    g.Reorders rank o e := by
  rcases axisOrder_cases horder with ⟨hcall, ho⟩ | ⟨hcall, src, dst, hlayouts', ho⟩
  · refine ⟨ho, horder, fun hcall' ↦ ?_⟩
    exact absurd (Option.some.inj (hcall.symm.trans hcall')) (by decide)
  · obtain ⟨src', dst', hlayouts, hperm, hrank⟩ := hlayouts hcall
    cases hlayouts'.symm.trans hlayouts
    obtain ⟨hsrc, hdst⟩ := layouts_eq_ok.1 hlayouts
    have hsrcNamed := named_of_layoutAttr hsrc
    obtain ⟨hisOrder, hgather⟩ :=
      AxisOrder.gather_ofLayouts hsrcNamed.wellFormed.letters hperm hrank ho
    refine ⟨hisOrder, horder, fun _ ↦ ⟨src, dst, hlayouts, ?_⟩⟩
    exact ⟨hsrcNamed, named_of_layoutAttr hdst, hperm.length_eq.trans hrank, hrank, hgather⟩

end Graph

namespace Interpretation

structure Fits (o : AxisOrder) (σ τ : TensorType) : Prop where
  dtype : σ.dtype = τ.dtype
  rank : σ.rank = τ.rank
  shape : gather o σ.shape = τ.shape
  bound : τ.rank ≤ 2 ^ 63

theorem Fits.extents (hfits : Fits o σ τ) (hu : u.HasType I.extent σ) :
    gather o u.shape = τ.extents I.extent := by
  rw [hu.2, TensorType.extents, AxisOrder.gather_map, hfits.shape, TensorType.extents]

theorem length_shape (hu : u.HasType I.extent σ) : u.shape.length = σ.rank := by
  rw [hu.2, TensorType.extents, List.length_map, TensorType.rank]

theorem Fits.trans {υ : TensorType} {o₁ o₂ : AxisOrder} (ho₁ : IsOrder σ.rank o₁)
    (h₁ : Fits o₁ υ σ) (h₂ : Fits o₂ σ τ) : Fits (gather o₂ o₁) υ τ := by
  refine ⟨h₁.dtype.trans h₂.dtype, h₁.rank.trans h₂.rank, ?_, h₂.bound⟩
  have hlt : ∀ k ∈ o₁, k < υ.shape.length := fun k hk ↦ Nat.lt_of_lt_of_eq (ho₁.lt hk) h₁.rank.symm
  rw [← AxisOrder.gather_gather hlt, h₁.shape, h₂.shape]

theorem means_permuting (he : Means I.typed g e (τ, t)) (hpermuting : g.IsAxisPermuting e) :
    ∃ a σ u o, g.args e = [a] ∧ Means I.typed g a (σ, u) ∧ g.Reorders τ.rank o e ∧ Fits o σ τ ∧
      t = u.permute o := by
  obtain ⟨n, ms, hn, hargs, hm⟩ := means_iff.1 he
  obtain ⟨hconsistent, rfl⟩ := typed_eq_some.1 hm
  have hsame := Graph.sameCall_alone hn
  have hpermutes : n.head.Permutes :=
    hpermuting.imp (Graph.isCallTo_iff hn).1 (Graph.isCallTo_iff hn).1
  obtain ⟨σ, o, hσ, hdtype, hrank, horder, hshape, hbound⟩ := hconsistent.permute hpermutes
  obtain ⟨⟨σ, u⟩, rfl, rfl⟩ := List.map_eq_singleton_iff.1 hσ
  obtain ⟨a, rest, ha, hrest, hargs'⟩ := List.forall₂_cons_right_iff.1 hargs
  cases hrest
  have hfits : Fits o σ τ := ⟨hdtype, hrank, hshape, hbound⟩
  obtain ⟨-, hu⟩ := type?_of_means ha
  refine ⟨a, σ, u, o, (Graph.args_of_node? hn).trans hargs', ha, ?_, hfits, ?_⟩
  · refine Graph.reorders_of_axisOrder (hsame.axisOrder.2 horder) fun hcall ↦ ?_
    rw [hsame.layouts]
    exact hconsistent.layouts ((Graph.isCallTo_iff hn).1 hcall)
  · exact I.permute hpermutes hconsistent.type? (hu.1.trans hdtype) horder (hfits.extents hu)

theorem typed_permuting (hpermutes : n.Permutes) (htype : n.type? = some τ)
    (hu : u.HasType I.extent σ) (hfits : Fits o σ τ) (horder : n.alone.axisOrder 0 τ.rank = .ok o)
    (hlayouts : n.callee? = some Op.layoutTransform → ∃ src dst,
      n.alone.layouts 0 = .ok (src, dst) ∧ src.axes.Perm dst.axes ∧ dst.rank = τ.rank) :
    I.typed n [(σ, u)] = some (τ, u.permute o) := by
  have hne {op : String} (h₁ : Op.transpose ≠ op) (h₂ : Op.layoutTransform ≠ op) :
      n.callee? ≠ some op := by
    rcases hpermutes with h | h <;> rw [h] <;> simpa
  refine typed_eq_some.2 ⟨⟨htype, ?_, ?_, ?_, hlayouts, ?_, ?_⟩, ?_⟩
  · intro l hl
    simp [Node.Permutes, Node.callee?, hl] at hpermutes
  · rintro (h | h)
    · exact absurd h (hne (by decide) (by decide))
    · exact absurd h (hne (by decide) (by decide))
  · exact fun _ ↦ ⟨σ, o, rfl, hfits.dtype, hfits.rank, horder, hfits.shape, hfits.bound⟩
  · intro v hv
    have hfull : n.callee? ≠ some Op.full := hne (by decide) (by decide)
    simp [Node.fillOperand?, hfull] at hv
  · rintro - _ _ ⟨⟩
  · exact I.permute hpermutes htype (hu.1.trans hfits.dtype) horder (hfits.extents hu)

theorem eq_permute_identity (hu : u.HasType I.extent σ) (hfits : Fits (.identity τ.rank) σ τ) :
    (σ, u) = (τ, u.permute (.identity τ.rank)) := by
  have hlength : u.shape.length = τ.rank := (length_shape hu).trans hfits.rank
  have hshape : σ.shape = τ.shape := by
    rw [← hfits.shape, AxisOrder.identity_gather hfits.rank]
  have htype : σ = τ := by
    obtain ⟨shape, dtype⟩ := σ
    obtain ⟨shape', dtype'⟩ := τ
    exact congrArg₂ TensorType.mk hshape hfits.dtype
  rw [htype, ← hlength, Tensor.permute_identity]

theorem ints?_ints (values : List Word) : (Attribute.ints values).ints? = some values := by
  simp only [Attribute.ints, Attribute.ints?]
  induction values with
  | nil => rfl
  | cons v rest ih => simp [List.mapM_cons, ih, Attribute.int?]

theorem axisOrder_transpose (ho : IsOrder τ.rank o) (hbound : τ.rank ≤ 2 ^ 63) :
    (Node.transpose data (some (o.map Int64.ofNat)) τ).head.alone.axisOrder 0 τ.rank = .ok o := by
  have hcall : (Node.transpose data (some (o.map Int64.ofNat)) τ).head.alone.IsCallTo 0
    Op.transpose := rfl
  have hattr : (Node.transpose data (some (o.map Int64.ofNat)) τ).head.alone.attr? 0 Key.axes =
    some (.ints (o.map Int64.ofNat)) := rfl
  rw [Graph.axisOrder, if_pos hcall, hattr, Option.bind_some, ints?_ints, Option.getD_some]
  exact Except.mapError_eq_ok.2 (AxisOrder.ofAxes_ofNat ho hbound)

theorem layouts_layoutTransform (data : NodeId) (τ : TensorType) (hsrc : src.Named)
    (hdst : dst.Named) :
    (Node.layoutTransform data src.name dst.name τ).head.alone.layouts 0 = .ok (src, dst) := by
  have hattr₁ : (Node.layoutTransform data src.name dst.name τ).head.alone.attr? 0 Key.srcLayout =
      some (.string src.name) := by
    change (Table.ofList _).get? _ = _
    simp [Table.ofList, Table.get?_insert, Key.srcLayout, Key.dstLayout]
  have hattr₂ : (Node.layoutTransform data src.name dst.name τ).head.alone.attr? 0 Key.dstLayout =
      some (.string dst.name) := by
    change (Table.ofList _).get? _ = _
    simp [Table.ofList, Table.get?_insert, Key.srcLayout, Key.dstLayout]
  refine Graph.layouts_eq_ok.2 ⟨?_, ?_⟩
  · rw [Graph.layoutAttr, hattr₁]
    exact Except.mapError_eq_ok.2 hsrc
  · rw [Graph.layoutAttr, hattr₂]
    exact Except.mapError_eq_ok.2 hdst

theorem axisOrder_layoutTransform (data : NodeId) (ho : IsOrder τ.rank o)
    (hturns : Layout.Turns τ.rank o src dst) :
    (Node.layoutTransform data src.name dst.name τ).head.alone.axisOrder 0 τ.rank = .ok o := by
  let n := Node.layoutTransform data src.name dst.name τ
  have htranspose : ¬ n.head.alone.IsCallTo 0 Op.transpose := fun hcall ↦
    absurd (Option.some.inj hcall) (by decide)
  have hcall : n.head.alone.IsCallTo 0 Op.layoutTransform := rfl
  rw [Graph.axisOrder, if_neg htranspose, if_pos hcall,
    layouts_layoutTransform data τ hturns.srcNamed hturns.dstNamed]
  exact Except.mapError_eq_ok.2 (AxisOrder.ofLayouts_of_gather
    hturns.srcNamed.wellFormed.letters hturns.srcRank ho hturns.axes)

end Interpretation

theorem axes_ofList (axes : List Word) : Attrs.axes (.ofList [(Key.axes, .ints axes)]) = axes := by
  show ((some (Attribute.ints axes)).bind Attribute.ints?).getD [] = axes
  rw [Option.bind_some, Interpretation.ints?_ints, Option.getD_some]

namespace Rule.Transpose

open Interpretation (Fits)

theorem exec_place_layouts (h : exec (place data τ (.layouts src dst)) g = (.ok e, g')) :
    src = dst ∧ e = data ∧ g' = g ∨
      e = g.size ∧ g' = g.push (.layoutTransform data src.name dst.name τ) := by
  rw [place] at h
  split at h
  next hsame =>
    cases h
    exact .inl ⟨hsame, rfl, rfl⟩
  next =>
    cases h
    exact .inr ⟨rfl, rfl⟩

theorem exec_place_axes (h : exec (place data τ (.axes o)) g = (.ok e, g')) :
    o = .identity o.length ∧ e = data ∧ g' = g ∨
      e = g.size ∧ g' = g.push (.transpose data (some (o.map Int64.ofNat)) τ) := by
  rw [place] at h
  split at h
  next hidentity =>
    cases h
    exact .inl ⟨hidentity, rfl, rfl⟩
  next =>
    cases h
    exact .inr ⟨rfl, rfl⟩

theorem place_means {fused : Fused} (hfused : fused.Reorders τ.rank o) (ho : IsOrder τ.rank o)
    (hdata : Means I.typed g data (σ, u)) (hfits : Fits o σ τ)
    (h : exec (place data τ fused) g = (.ok e, g')) :
    g.Grows g' ∧ Means I.typed g' e (τ, u.permute o) := by
  obtain ⟨-, hu⟩ := Interpretation.type?_of_means hdata
  have hsame (hid : o = .identity τ.rank) : Means I.typed g data (τ, u.permute o) := by
    subst hid
    rwa [← Interpretation.eq_permute_identity hu hfits]
  have hargs : List.Forall₂ (Means I.typed g) [data] [(σ, u)] := .cons hdata .nil
  cases fused with
  | layouts src dst =>
    have hturns : Layout.Turns τ.rank o src dst := hfused
    rcases exec_place_layouts h with ⟨rfl, rfl, rfl⟩ | ⟨rfl, rfl⟩
    · refine ⟨.refl _, hsame ?_⟩
      have hnodup : src.axes.Nodup := .of_map _ hturns.srcNamed.wellFormed.letters
      rw [← hturns.srcRank] at ho ⊢
      exact AxisOrder.eq_identity_of_gather hnodup ho hturns.axes
    · refine ⟨.push _ _, .push hargs ?_⟩
      refine Interpretation.typed_permuting (.inr rfl) rfl hu hfits
        (Interpretation.axisOrder_layoutTransform data ho hturns) fun _ ↦ ⟨src, dst, ?_, ?_, ?_⟩
      · exact Interpretation.layouts_layoutTransform data τ hturns.srcNamed hturns.dstNamed
      · rw [← hturns.axes]
        exact (AxisOrder.gather_perm hturns.srcRank ho).symm
      · exact hturns.dstRank
  | axes order =>
    obtain rfl : order = o := hfused
    rcases exec_place_axes h with ⟨hid, rfl, rfl⟩ | ⟨rfl, rfl⟩
    · rw [ho.length] at hid
      exact ⟨.refl _, hsame hid⟩
    · refine ⟨.push _ _, .push hargs ?_⟩
      refine Interpretation.typed_permuting (.inl rfl) rfl hu hfits
        (Interpretation.axisOrder_transpose ho hfits.bound) fun hcall ↦ ?_
      exact absurd (Option.some.inj hcall) (by decide)

theorem matches_pair {inner : NodeId} (hpost : g.IsAxisPermuting post)
    (hargs : g.args post = [inner]) (hinner : g.IsAxisPermuting inner)
    (hargs' : g.args inner = [data]) : Rule.transpose.pattern.Matches g post := by
  obtain ⟨op, hop, attrs, type?, hn⟩ := hpost.node?
  obtain ⟨op', hop', attrs', type?', hn'⟩ := hinner.node?
  rw [hargs] at hn
  rw [hargs'] at hn'
  have hnames {l l₁ l₂ : Label} {op : String} (hop : op ∈ Rule.Transpose.ops) :
      (Pattern.alt l [.op l₁ Op.transpose, .op l₂ Op.layoutTransform]).Names g.catalog op := by
    rcases List.mem_pair.1 hop with rfl | rfl
    · exact .alt List.mem_cons_self (.op _)
    · exact .alt (List.mem_cons_of_mem _ List.mem_cons_self) (.op _)
  refine .call hn rfl (hnames hop) (List.forall_mem_singleton.2 ?_)
  refine .call hn' rfl (hnames hop') (List.forall_mem_singleton.2 ?_)
  exact .wildcard _ _

theorem exec_apply_declines {b : Bindings} {inner : NodeId} (hpost : g.args post = [inner])
    (hinner : ¬g.IsAxisPermuting inner) :
    exec (Rule.transpose.apply pre post b) g = (.ok post, g) := by
  simp only [Rule.transpose, apply, exec_bind, exec_get, hpost, if_neg hinner, exec_pure]

theorem exec_apply_fuse {b : Bindings} {inner : NodeId} (hpost : g.args post = [inner])
    (hinner : g.args inner = [data]) (hpermuting : g.IsAxisPermuting inner)
    (htype : g.type? pre = some τ) : exec (Rule.transpose.apply pre post b) g =
      match fuse g post inner τ.rank with
      | .ok fused => exec (place data τ fused) g
      | .error err => (.error err, g) := by
  simp only [Rule.transpose, apply, exec_bind, exec_get, hpost, if_pos hpermuting, hinner,
    exec_checkedType htype, exec_ask]
  cases fuse g post inner τ.rank <;> rfl

theorem exec_apply {b : Bindings} {inner : NodeId} (hpost : g.args post = [inner])
    (htype : g.type? pre = some τ) (h : exec (Rule.transpose.apply pre post b) g = (.ok e, g')) :
    ¬g.IsAxisPermuting inner ∧ e = post ∧ g' = g ∨
      g.IsAxisPermuting inner ∧ ∀ data, g.args inner = [data] → ∃ fused,
        fuse g post inner τ.rank = .ok fused ∧ exec (place data τ fused) g = (.ok e, g') := by
  simp only [Rule.transpose, apply, exec_bind_ok, exec_get] at h
  obtain ⟨_, _, hget, h⟩ := h
  cases hget
  simp only [hpost] at h
  split at h
  next hpermuting =>
    refine .inr ⟨hpermuting, fun data hdata ↦ ?_⟩
    simp only [hdata, exec_bind_ok, exec_ask] at h
    obtain ⟨τ', g₁, hchecked, fused, g₂, hask, h⟩ := h
    obtain ⟨htype', rfl⟩ := exec_of_checkedType hchecked
    obtain rfl : τ = τ' := Option.some.inj (htype.symm.trans htype')
    obtain ⟨hfuse, rfl⟩ := Prod.mk.inj hask
    exact ⟨fused, hfuse, h⟩
  next hpermuting =>
    cases h
    exact .inl ⟨hpermuting, rfl, rfl⟩

end Rule.Transpose

theorem isAxisPermuting_of_match? {M : Type*} {A : Semantics M} {b : Bindings}
    {f : NodeId → NodeId} (hmatch : Rule.transpose.pattern.match? g pre = some b)
    (hf : Replaces A g pre post f) : g.IsAxisPermuting post := by
  obtain ⟨x, y, op, op', attrs, attrs', type?, type?', hn, -, hop, -, -⟩ :=
    Pattern.match?_call_call hmatch
  have hop : Op.transpose = op ∨ Op.layoutTransform = op := by
    simpa [Pattern.matchesOp, Pattern.anyMatchesOp] using hop
  have hcallee : g.callee? post = some op := Graph.callee?_of_node? (hf.node? hn)
  rw [Graph.IsAxisPermuting, Graph.IsCallTo, Graph.IsCallTo, hcallee]
  exact hop.imp (fun h ↦ congrArg some h.symm) fun h ↦ congrArg some h.symm

theorem preserves_transpose : Rule.transpose.Preserves I.typed g₀ := by
  intro g g' pre post e ⟨τ, t⟩ b f hg hmatch hpre hf hexec
  have hpost := hf.means_post hpre
  obtain ⟨htype, -⟩ := Interpretation.type?_of_means hpre
  -- the argument of `post` is what counts: the one that was matched may have been replaced
  obtain ⟨inner, σ, u, o₂, hargs, hinner, hreorders₂, hfits₂, rfl⟩ :=
    Interpretation.means_permuting hpost (isAxisPermuting_of_match? hmatch hf)
  rcases Rule.Transpose.exec_apply hargs htype hexec with ⟨-, rfl, rfl⟩ | ⟨hpermuting', hexec⟩
  · exact ⟨.refl _, hpost⟩
  · obtain ⟨data, υ, w, o₁, hargs', hdata, hreorders₁, hfits₁, rfl⟩ :=
      Interpretation.means_permuting hinner hpermuting'
    obtain ⟨fused, hfuse, hplace⟩ := hexec data hargs'
    have hrank : σ.rank = τ.rank := hfits₂.rank
    have hfits := hfits₁.trans hreorders₁.isOrder hfits₂
    rw [hrank] at hreorders₁
    have hlength : w.shape.length = τ.rank :=
      (Interpretation.length_shape (Interpretation.type?_of_means hdata).2).trans hfits.rank
    have ho := AxisOrder.isOrder_gather hreorders₁.isOrder hreorders₂.isOrder
    rw [Tensor.permute_permute (hlength ▸ hreorders₁.isOrder) (hlength ▸ hreorders₂.isOrder)]
    have hfused := Rule.Transpose.fuse_reorders hreorders₂ hreorders₁ hfuse
    exact Rule.Transpose.place_means hfused ho hdata hfits hplace

end TensorOpt
