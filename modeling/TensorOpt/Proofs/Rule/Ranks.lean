import TensorOpt.Proofs.Rule.AxisErrors
import TensorOpt.Proofs.Rule.Fill
import TensorOpt.Proofs.Rule.Labels
import TensorOpt.Proofs.Rule.Reshape

namespace TensorOpt

open AxisOrder (IsOrder)

variable {S : Layout → Prop} {g₀ g g' : Graph} {pre post e inner data : NodeId} {n : Node}
  {r r₀ r₁ : Nat} {ranks : List Nat} {o : AxisOrder} {src dst : Layout} {τ : TensorType}

/-- Layouts that are told apart by their length as far as their ranks go, along with all their
reorderings. -/
structure Layout.Legible (S : Layout → Prop) : Prop where
  named : ∀ {l}, S l → l.Named
  rank : ∀ {l l'}, S l → S l' → l.name.length = l'.name.length → l.rank = l'.rank
  permute : ∀ {l l' o}, S l → IsOrder l.rank o → l.permute o = .ok l' → S l'

structure Node.HasRank (S : Layout → Prop) (n : Node) (rank : Nat) (ranks : List Nat) : Prop where
  type? : n.type?.map TensorType.rank = some rank
  transpose : n.callee? = some Op.transpose → ranks = [rank]
  layouts : n.callee? = some Op.layoutTransform → ∃ src dst, n.alone.layouts 0 = .ok (src, dst) ∧
    S src ∧ S dst ∧ ranks = [src.rank] ∧ rank = dst.rank

open Classical in
noncomputable def rankSemantics (S : Layout → Prop) : Semantics Nat := fun n ranks ↦
  (n.type?.map TensorType.rank).filter fun rank ↦ n.HasRank S rank ranks

theorem rankSemantics_eq_some : rankSemantics S n ranks = some r ↔ n.HasRank S r ranks := by
  simp only [rankSemantics, Option.filter_eq_some_iff, decide_eq_true_eq]
  exact ⟨And.right, fun h ↦ ⟨h.type?, h⟩⟩

theorem rank_of_means (he : Means (rankSemantics S) g e r) :
    ∃ τ, g.type? e = some τ ∧ τ.rank = r := by
  obtain ⟨n, ranks, hn, -, hm⟩ := means_iff.1 he
  obtain ⟨τ, hτ, hrank⟩ := Option.map_eq_some_iff.1 (rankSemantics_eq_some.1 hm).type?
  exact ⟨τ, (Graph.type?_of_node? hn).trans (n.type?_head ▸ hτ), hrank⟩

/-- An operator that asks nothing of its arguments. -/
theorem means_push_other (htype : n.type? = some τ) (htranspose : n.callee? ≠ some Op.transpose)
    (hlayouts : n.callee? ≠ some Op.layoutTransform)
    (hargs : ∀ a ∈ n.args, ∃ r, Means (rankSemantics S) g a r) :
    Means (rankSemantics S) (g.push n) g.size τ.rank := by
  obtain ⟨ranks, hranks⟩ := exists_forall₂_means hargs
  refine .push hranks (rankSemantics_eq_some.2 ⟨?_, ?_, ?_⟩)
  · rw [Node.type?_head, htype]
    rfl
  · rw [Node.callee?_head]
    exact fun h ↦ absurd h htranspose
  · rw [Node.callee?_head]
    exact fun h ↦ absurd h hlayouts

inductive Graph.Ranks (S : Layout → Prop) (g : Graph) (call : NodeId) : Nat → Nat → Prop
  | transpose {r : Nat} (hcall : g.IsCallTo call Op.transpose) : Ranks S g call r r
  | layouts {src dst : Layout} (hcall : g.IsCallTo call Op.layoutTransform)
    (hlayouts : g.layouts call = .ok (src, dst)) (hsrc : S src) (hdst : S dst) :
    Ranks S g call src.rank dst.rank

theorem ranks_of_means (he : Means (rankSemantics S) g e r) (hpermuting : g.IsAxisPermuting e) :
    ∃ a r₀, g.args e = [a] ∧ Means (rankSemantics S) g a r₀ ∧ g.Ranks S e r₀ r := by
  obtain ⟨n, ranks, hn, hargs, hm⟩ := means_iff.1 he
  have hrank := rankSemantics_eq_some.1 hm
  obtain ⟨r₀, rfl, hranks⟩ : ∃ r₀, ranks = [r₀] ∧ g.Ranks S e r₀ r := by
    rcases hpermuting with hcall | hcall
    · exact ⟨r, hrank.transpose ((Graph.isCallTo_iff hn).1 hcall), .transpose hcall⟩
    · obtain ⟨src, dst, hlayouts, hsrc, hdst, hranks, rfl⟩ :=
        hrank.layouts ((Graph.isCallTo_iff hn).1 hcall)
      rw [← (Graph.sameCall_alone hn).layouts] at hlayouts
      exact ⟨src.rank, hranks, .layouts hcall hlayouts hsrc hdst⟩
  obtain ⟨a, rest, ha, hrest, hargs'⟩ := List.forall₂_cons_right_iff.1 hargs
  cases hrest
  exact ⟨a, r₀, (Graph.args_of_node? hn).trans hargs', ha, hranks⟩

namespace Graph.Ranks

theorem of_transpose (h : g.Ranks S e r₀ r) (hcall : g.IsCallTo e Op.transpose) : r₀ = r := by
  cases h with
  | transpose => rfl
  | layouts hlayout => exact absurd hlayout hcall.not_layoutTransform

theorem of_layouts (h : g.Ranks S e r₀ r) (hcall : g.IsCallTo e Op.layoutTransform)
    (hlayouts : g.layouts e = .ok (src, dst)) : S src ∧ S dst ∧ src.rank = r₀ ∧ dst.rank = r := by
  cases h with
  | transpose htranspose => exact absurd hcall htranspose.not_layoutTransform
  | layouts _ hlayouts' hsrc hdst =>
    cases hlayouts.symm.trans hlayouts'
    exact ⟨hsrc, hdst, rfl, rfl⟩

theorem isAxisPermuting (h : g.Ranks S e r₀ r) : g.IsAxisPermuting e := by
  cases h with
  | transpose hcall => exact .inl hcall
  | layouts hcall => exact .inr hcall

/-- Layouts of the same length do not change the rank. -/
theorem eq_of_keepsLength (hS : Layout.Legible S) (h : g.Ranks S e r₀ r)
    (hkeeps : Rule.Transpose.lengthChange? g e = .ok none) : r₀ = r := by
  cases h with
  | transpose => rfl
  | @layouts src dst hcall hlayouts hsrc hdst =>
    refine hS.rank hsrc hdst (Decidable.not_not.1 fun hlength ↦ ?_)
    exact Rule.Transpose.not_changesLength hkeeps ⟨hcall, src, dst, hlayouts, hlength⟩

/-- The order of the call has an axis of the argument for each axis of the result. -/
theorem axisOrder (h : g.Ranks S e r₀ r) (ho : g.axisOrder e r = .ok o) :
    o.length = r ∧ ∀ k ∈ o, k < r₀ := by
  rcases axisOrder_cases ho with ⟨hcall, hisOrder⟩ | ⟨hcall, src, dst, hlayouts, hofLayouts⟩
  · obtain rfl := h.of_transpose hcall
    exact ⟨hisOrder.length, fun k hk ↦ hisOrder.lt hk⟩
  · obtain ⟨-, -, rfl, -⟩ := h.of_layouts hcall hlayouts
    obtain ⟨hfollows, hlength⟩ := AxisOrder.follows_ofLayouts hofLayouts
    refine ⟨hlength, fun k hk ↦ ?_⟩
    obtain ⟨i, hi⟩ := List.getElem?_of_mem hk
    obtain ⟨a, -, ha, -⟩ := hfollows i k hi
    exact (List.getElem?_eq_some_iff.1 ha).1

end Graph.Ranks

namespace Rule.Transpose

variable {fused : Fused}

def Fused.Ranks (S : Layout → Prop) (r₀ r : Nat) : Fused → Prop
  | .layouts src dst => S src ∧ S dst ∧ src.rank = r₀ ∧ dst.rank = r
  | .axes _ => r₀ = r

theorem absorb?_ranks (hS : Layout.Legible S) (hi : g.Ranks S inner r₀ r₁)
    (ho : g.Ranks S post r₁ r)
    (hboth : ¬(g.IsCallTo post Op.layoutTransform ∧ g.IsCallTo inner Op.layoutTransform))
    (h : absorb? g post inner = .ok (some fused)) : fused.Ranks S r₀ r := by
  rcases absorb?_eq_some h with ⟨src, dst, order, src', hchange, horder, hpermute, rfl⟩ |
    ⟨src, dst, order, dst', hchange, horder, hpermute, rfl⟩
  · obtain ⟨hcall, hlayouts⟩ := lengthChange?_eq_some hchange
    obtain ⟨hsrc, hdst, hr₁, hr⟩ := ho.of_layouts hcall hlayouts
    have hinner := hi.isAxisPermuting.resolve_right fun hinner ↦ hboth ⟨hcall, hinner⟩
    have hinverse := AxisOrder.isOrder_inverse (hinner.isOrder horder)
    have hturns := Layout.Turns.permute (hS.named hsrc) hinverse hpermute
    have hr₀ := hi.of_transpose hinner
    exact ⟨hS.permute hsrc hinverse hpermute, hdst, hturns.dstRank.trans (hr₁.trans hr₀.symm), hr⟩
  · obtain ⟨hcall, hlayouts⟩ := lengthChange?_eq_some hchange
    obtain ⟨hsrc, hdst, hr₀, hr₁⟩ := hi.of_layouts hcall hlayouts
    have hpost := ho.isAxisPermuting.resolve_right fun hpost ↦ hboth ⟨hpost, hcall⟩
    have horder' := hpost.isOrder horder
    have hturns := Layout.Turns.permute (hS.named hdst) horder' hpermute
    have hr := ho.of_transpose hpost
    exact ⟨hsrc, hS.permute hdst horder' hpermute, hr₀, hturns.dstRank.trans (hr₁.trans hr)⟩

theorem fuse_ranks (hS : Layout.Legible S) (hi : g.Ranks S inner r₀ r₁) (ho : g.Ranks S post r₁ r)
    (h : fuse g post inner r = .ok fused) : fused.Ranks S r₀ r := by
  rcases fuse_cases h with ⟨hboth, h⟩ | ⟨hboth, h⟩ | ⟨hkeeps, order, -, rfl⟩
  · obtain ⟨src, mid, dst, hsrc, hmid, hmid', hdst, rfl⟩ := fuseLayouts?_eq_some h
    obtain ⟨hsrc', -, hr₀, -⟩ := hi.of_layouts hboth.2 (Graph.layouts_eq_ok.2 ⟨hsrc, hmid⟩)
    obtain ⟨-, hdst', -, hr⟩ := ho.of_layouts hboth.1 (Graph.layouts_eq_ok.2 ⟨hmid', hdst⟩)
    exact ⟨hsrc', hdst', hr₀, hr⟩
  · exact absorb?_ranks hS hi ho hboth h
  · exact (hi.eq_of_keepsLength hS hkeeps.2).trans (ho.eq_of_keepsLength hS hkeeps.1)

/-- Orders that are composed fit each other. -/
theorem composeOrders_failsWith (hS : Layout.Legible S) (hi : g.Ranks S inner r₀ r₁)
    (ho : g.Ranks S post r₁ r) (hkeeps : KeepsLength g post inner) :
    Except.FailsWith RuleError.OfCall (composeOrders g post inner r) := by
  obtain rfl := hi.eq_of_keepsLength hS hkeeps.2
  obtain rfl := ho.eq_of_keepsLength hS hkeeps.1
  refine Graph.axisOrder_failsWith.bind fun o₁ ho₁ ↦ ?_
  obtain ⟨hlength, hlt⟩ := hi.axisOrder ho₁
  refine (AxisOrder.compose_failsWith fun k hk hle ↦ ?_).bind fun axes haxes ↦ ?_
  · rw [AxisOrder.identity, List.length_range] at hle
    exact absurd (hlt k hk) (Nat.not_lt.2 hle)
  · refine Graph.axisOrder_failsWith.bind fun o₂ ho₂ ↦ ?_
    obtain ⟨-, hlt'⟩ := ho.axisOrder ho₂
    refine AxisOrder.compose_failsWith fun k hk hle ↦ ?_
    rw [← (AxisOrder.forall₂_of_compose haxes).length_eq, hlength] at hle
    exact absurd (hlt' k hk) (Nat.not_lt.2 hle)

theorem place_ranks (hS : Layout.Legible S) (hfused : fused.Ranks S r₀ τ.rank)
    (hdata : Means (rankSemantics S) g data r₀)
    (h : exec (place data τ fused) g = (.ok e, g')) :
    g.Grows g' ∧ Means (rankSemantics S) g' e τ.rank := by
  have hargs : List.Forall₂ (Means (rankSemantics S) g) [data] [r₀] := .cons hdata .nil
  cases fused with
  | layouts src dst =>
    obtain ⟨hsrc, hdst, rfl, hdstRank⟩ := hfused
    rcases exec_place_layouts h with ⟨rfl, rfl, rfl⟩ | ⟨rfl, rfl⟩
    · exact ⟨.refl _, hdstRank ▸ hdata⟩
    · refine ⟨.push _ _, .push hargs (rankSemantics_eq_some.2 ⟨rfl, ?_, fun _ ↦ ?_⟩)⟩
      · exact fun hcall ↦ absurd (Option.some.inj hcall) (by decide)
      · exact ⟨src, dst, Interpretation.layouts_layoutTransform data τ (hS.named hsrc)
          (hS.named hdst), hsrc, hdst, rfl, hdstRank.symm⟩
  | axes order =>
    obtain rfl : r₀ = τ.rank := hfused
    rcases exec_place_axes h with ⟨-, rfl, rfl⟩ | ⟨rfl, rfl⟩
    · exact ⟨.refl _, hdata⟩
    · refine ⟨.push _ _, .push hargs (rankSemantics_eq_some.2 ⟨rfl, fun _ ↦ rfl, ?_⟩)⟩
      exact fun hcall ↦ absurd (Option.some.inj hcall) (by decide)

end Rule.Transpose

theorem preserves_ranks_reshape : Rule.reshape.Preserves (rankSemantics S) g₀ := by
  intro g g' pre post e r b f hg hmatch hpre hf hexec
  obtain ⟨x, y, op, op', attrs, attrs', type?, type?', hn, hn', hop, hop', rfl⟩ :=
    Pattern.match?_call_call hmatch
  obtain ⟨τ, htype, rfl⟩ := rank_of_means hpre
  rcases Rule.Reshape.exec_apply rfl htype hexec with ⟨rfl, rfl⟩ | ⟨shape, rfl, rfl⟩
  · exact ⟨.refl _, hf.means_post hpre⟩
  · have hreach : g.Reaches pre x := Pattern.reaches_of_match? hmatch List.mem_cons_self
    obtain ⟨r', hx⟩ := hpre.reaches hreach
    refine ⟨.push _ _, means_push_other rfl ?_ ?_ fun a ha ↦ ?_⟩
    · exact fun hcall ↦ absurd (Option.some.inj hcall) (by decide)
    · exact fun hcall ↦ absurd (Option.some.inj hcall) (by decide)
    · cases List.mem_singleton.1 ha
      exact ⟨r', hf.means hreach hx⟩

theorem preserves_ranks_transpose (hS : Layout.Legible S) :
    Rule.transpose.Preserves (rankSemantics S) g₀ := by
  intro g g' pre post e r b f hg hmatch hpre hf hexec
  have hpost := hf.means_post hpre
  obtain ⟨τ, htype, rfl⟩ := rank_of_means hpre
  obtain ⟨inner, r₁, hargs, hinner, houter⟩ :=
    ranks_of_means hpost (isAxisPermuting_of_match? hmatch hf)
  rcases Rule.Transpose.exec_apply hargs htype hexec with ⟨-, rfl, rfl⟩ | ⟨hpermuting, hexec⟩
  · exact ⟨.refl _, hpost⟩
  · obtain ⟨data, r₀, hargs', hdata, hinner'⟩ := ranks_of_means hinner hpermuting
    obtain ⟨fused, hfuse, hplace⟩ := hexec data hargs'
    exact Rule.Transpose.place_ranks hS (Rule.Transpose.fuse_ranks hS hinner' houter hfuse) hdata
      hplace

namespace Rule.Fill

variable {fill x : NodeId} {b : Bindings} {f : NodeId → NodeId}

theorem value?_ranks {dtype : DType} {v? : Option NodeId} (hfound : Found g fill b)
    (hpre : Means (rankSemantics S) g pre r) (hreach : g.Reaches pre fill)
    (hf : Replaces (rankSemantics S) g pre post f)
    (h : exec (value? (b.map f) dtype) g = (.ok v?, g')) :
    ∃ v r, v? = some v ∧ g.Grows g' ∧ Means (rankSemantics S) g' v r := by
  obtain ⟨n, hn, ⟨v, hv, rfl, rfl, -⟩ | ⟨w, -, rfl, rfl⟩⟩ := value?_cases hfound h
  · have hreach' := hreach.tail (hasArg_of_fillOperand? hn hv)
    obtain ⟨r', hv'⟩ := hpre.reaches hreach'
    exact ⟨f v, r', rfl, .refl _, hf.means hreach' hv'⟩
  · exact ⟨g.size, _, rfl, .push _ _, means_push_other rfl nofun nofun nofun⟩

/-- The operator has two arguments, so that it does not reorder axes. -/
theorem apply_ranks {op : String} {lhs rhs : NodeId} {attrs : Attrs}
    (hn : g.node? pre = some ⟨.call op [lhs, rhs] attrs, some τ⟩) (hfill : fill ∈ [lhs, rhs])
    (hx : x ∈ [lhs, rhs]) (hother : b.all pattern.2.other = [x]) (hfound : Found g fill b)
    (hpre : Means (rankSemantics S) g pre τ.rank) (hf : Replaces (rankSemantics S) g pre post f)
    (h : exec (Rule.fill.apply pre post (b.map f)) g = (.ok e, g')) :
    g.Grows g' ∧ Means (rankSemantics S) g' e τ.rank := by
  rcases exec_apply (first?_map hother) hn (Graph.type?_of_node? hn) h with
    ⟨rfl, rfl⟩ | ⟨-, v?, g₁, hvalue, hpush⟩
  · exact ⟨.refl _, hf.means_post hpre⟩
  have hpermutes (hop : g.IsAxisPermuting pre) : False := by
    obtain ⟨a, -, hargs, -⟩ := ranks_of_means hpre hop
    rw [Graph.args_of_node? hn] at hargs
    cases hargs
  have hcallee {op' : String} (hop : some op = some op') : g.IsCallTo pre op' :=
    (Graph.callee?_of_node? hn).trans hop
  obtain ⟨v, r', rfl, hgrows, hv⟩ :=
    value?_ranks hfound hpre (Graph.reaches_args hn hfill) hf hvalue
  obtain ⟨r'', hx'⟩ := hpre.reaches (Graph.reaches_args hn hx)
  have hx'' := (hf.means (Graph.reaches_args hn hx) hx').grow hgrows
  obtain ⟨rfl, rfl⟩ := hpush v rfl
  refine ⟨hgrows.trans (.push _ _), means_push_other rfl ?_ ?_ fun a ha ↦ ?_⟩
  · exact fun hop ↦ hpermutes (.inl (hcallee hop))
  · exact fun hop ↦ hpermutes (.inr (hcallee hop))
  · have hmem : a = v ∨ a = f x := by
      simp only [Node.args] at ha
      split at ha
      next => simpa using ha
      next => simpa [or_comm] using ha
    rcases hmem with rfl | rfl
    · exact ⟨r', hv⟩
    · exact ⟨r'', hx''⟩

end Rule.Fill

theorem preserves_ranks_fill : Rule.fill.Preserves (rankSemantics S) g₀ := by
  intro g g' pre post e r b f hg hmatch hpre hf hexec
  obtain ⟨op, attrs, type?, fill, x, -, hn, hother, hfound⟩ := Rule.Fill.match?_pattern hmatch
  obtain ⟨τ, htype, rfl⟩ := rank_of_means hpre
  rcases hn with hn | hn
  · obtain rfl : type? = some τ := (Graph.type?_of_node? hn).symm.trans htype
    exact Rule.Fill.apply_ranks hn (by simp) (by simp) hother hfound hpre hf hexec
  · obtain rfl : type? = some τ := (Graph.type?_of_node? hn).symm.trans htype
    exact Rule.Fill.apply_ranks hn (by simp) (by simp) hother hfound hpre hf hexec

end TensorOpt
