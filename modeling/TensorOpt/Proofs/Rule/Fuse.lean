import TensorOpt.Proofs.Layout.Order
import TensorOpt.Rule.Transpose

namespace TensorOpt

open AxisOrder (gather IsOrder)

variable {g : Graph} {e outer inner : NodeId} {rank : Nat} {o o₁ o₂ : AxisOrder} {src dst : Layout}

def Layout.Named (l : Layout) : Prop := Layout.parse l.name = .ok l

/-- Turning `src` into `dst`, both of the given rank, reorders the axes by `o`. -/
structure Layout.Turns (rank : Nat) (o : AxisOrder) (src dst : Layout) : Prop where
  srcNamed : src.Named
  dstNamed : dst.Named
  srcRank : src.rank = rank
  dstRank : dst.rank = rank
  axes : gather o src.axes = dst.axes

structure Graph.Reorders (g : Graph) (rank : Nat) (o : AxisOrder) (e : NodeId) : Prop where
  isOrder : IsOrder rank o
  axisOrder : g.axisOrder e rank = .ok o
  layouts : g.IsCallTo e Op.layoutTransform →
    ∃ src dst, g.layouts e = .ok (src, dst) ∧ Layout.Turns rank o src dst

theorem Layout.Named.wellFormed {l : Layout} (hl : l.Named) : l.WellFormed :=
  (Layout.wellFormed_of_parse hl).2

theorem Graph.layouts_eq_ok : g.layouts e = .ok (src, dst) ↔
    g.layoutAttr e Key.srcLayout = .ok src ∧ g.layoutAttr e Key.dstLayout = .ok dst := by
  simp only [Graph.layouts, Except.bind_eq_ok]
  constructor
  · rintro ⟨src', hsrc, dst', hdst, ⟨⟩⟩
    exact ⟨hsrc, hdst⟩
  · rintro ⟨hsrc, hdst⟩
    exact ⟨src, hsrc, dst, hdst, rfl⟩

namespace Layout.Turns

theorem trans {mid : Layout} (h₁ : Layout.Turns rank o₁ src mid) (ho₁ : IsOrder rank o₁)
    (h₂ : Layout.Turns rank o₂ mid dst) : Layout.Turns rank (gather o₂ o₁) src dst := by
  refine ⟨h₁.srcNamed, h₂.dstNamed, h₁.srcRank, h₂.dstRank, ?_⟩
  have hlt : ∀ k ∈ o₁, k < src.axes.length :=
    fun k hk ↦ Nat.lt_of_lt_of_eq (ho₁.lt hk) h₁.srcRank.symm
  rw [← AxisOrder.gather_gather hlt, h₁.axes, h₂.axes]

theorem getElem? (h : Layout.Turns rank o src dst) (ho : IsOrder rank o) {i k : Nat}
    (hk : o[i]? = some k) : dst.axes[i]? = src.axes[k]? := by
  have hlt : ∀ k ∈ o, k < src.axes.length :=
    fun k hk ↦ Nat.lt_of_lt_of_eq (ho.lt hk) h.srcRank.symm
  rw [← h.axes, AxisOrder.getElem?_gather hlt, hk, Option.bind_some]

theorem permute {l l' : Layout} (hl : l.Named) (ho : IsOrder l.rank o) (h : l.permute o = .ok l') :
    Layout.Turns l.rank o l l' := by
  have hnamed : l'.Named := Layout.parse_permute hl.wellFormed ho h
  rw [Layout.axes_of_permute h] at hnamed ⊢
  refine ⟨hl, hnamed, rfl, ?_, rfl⟩
  exact (AxisOrder.gather_perm rfl ho).length_eq

/-- Turning back what has been turned by the inverse of `o`. -/
theorem symm_inverse {l l' : Layout} (ho : IsOrder rank o)
    (h : Layout.Turns rank (AxisOrder.inverse o) l l') : Layout.Turns rank o l' l := by
  refine ⟨h.dstNamed, h.srcNamed, h.dstRank, h.srcRank, ?_⟩
  have hlt : ∀ k ∈ AxisOrder.inverse o, k < l.axes.length := fun k hk ↦
    Nat.lt_of_lt_of_eq ((AxisOrder.isOrder_inverse ho).lt hk) h.srcRank.symm
  rw [← h.axes, AxisOrder.gather_gather hlt, AxisOrder.gather_inverse ho,
    AxisOrder.identity_gather h.srcRank]

end Layout.Turns

namespace Rule.Transpose

def Fused.Reorders (rank : Nat) (o : AxisOrder) : Fused → Prop
  | .axes order => order = o
  | .layouts src dst => Layout.Turns rank o src dst

theorem lengthChange?_eq_some (h : lengthChange? g e = .ok (some (src, dst))) :
    g.IsCallTo e Op.layoutTransform ∧ g.layouts e = .ok (src, dst) := by
  simp only [lengthChange?] at h
  split at h
  next hcall =>
    obtain ⟨⟨src', dst'⟩, hlayouts, h⟩ := Except.bind_eq_ok.1 h
    simp only at h
    split at h
    next => cases h
    next =>
      cases h
      exact ⟨hcall, hlayouts⟩
  next => cases h

theorem fuseLayouts?_eq_some {fused : Fused} (h : fuseLayouts? g outer inner = .ok (some fused)) :
    ∃ src mid dst, g.layoutAttr inner Key.srcLayout = .ok src ∧
      g.layoutAttr inner Key.dstLayout = .ok mid ∧ g.layoutAttr outer Key.srcLayout = .ok mid ∧
        g.layoutAttr outer Key.dstLayout = .ok dst ∧ fused = .layouts src dst := by
  simp only [fuseLayouts?, Except.bind_eq_ok] at h
  obtain ⟨expected, hexpected, found, hfound, h⟩ := h
  split at h
  next =>
    obtain ⟨_, hthrow, -⟩ := Except.bind_eq_ok.1 h
    cases hthrow
  next hsame =>
    obtain rfl : expected = found := Decidable.not_not.1 hsame
    obtain ⟨changes, -, h⟩ := Except.bind_eq_ok.1 h
    split at h
    next =>
      simp only [Except.bind_eq_ok] at h
      obtain ⟨src, hsrc, dst, hdst, h⟩ := h
      cases h
      exact ⟨src, expected, dst, hsrc, hfound, hexpected, hdst, rfl⟩
    next => cases h

theorem absorb?_eq_some {fused : Fused} (h : absorb? g outer inner = .ok (some fused)) :
    (∃ src dst order src', lengthChange? g outer = .ok (some (src, dst)) ∧
      g.axisOrder inner src.rank = .ok order ∧ src.permute order.inverse = .ok src' ∧
        fused = .layouts src' dst) ∨
    ∃ src dst order dst', lengthChange? g inner = .ok (some (src, dst)) ∧
      g.axisOrder outer dst.rank = .ok order ∧ dst.permute order = .ok dst' ∧
        fused = .layouts src dst' := by
  simp only [absorb?, Except.bind_eq_ok] at h
  obtain ⟨change, hchange, h⟩ := h
  split at h
  next src dst =>
    simp only [Except.bind_eq_ok, Except.mapError_eq_ok] at h
    obtain ⟨order, horder, src', hsrc', h⟩ := h
    cases h
    exact .inl ⟨src, dst, order, src', hchange, horder, hsrc', rfl⟩
  next =>
    simp only [Except.bind_eq_ok] at h
    obtain ⟨change', hchange', h⟩ := h
    split at h
    next src dst =>
      simp only [Except.bind_eq_ok, Except.mapError_eq_ok] at h
      obtain ⟨order, horder, dst', hdst', h⟩ := h
      cases h
      exact .inr ⟨src, dst, order, dst', hchange', horder, hdst', rfl⟩
    next => cases h

theorem changesLength_eq_false {calls : List NodeId} (h : changesLength g calls = .ok false) :
    ∀ call ∈ calls, lengthChange? g call = .ok none := by
  induction calls with
  | nil => exact nofun
  | cons call rest ih =>
    simp only [changesLength, Except.bind_eq_ok] at h
    obtain ⟨change, hchange, h⟩ := h
    cases change with
    | some q => cases h
    | none => exact List.forall_mem_cons.2 ⟨hchange, ih h⟩

def KeepsLength (g : Graph) (outer inner : NodeId) : Prop :=
  lengthChange? g outer = .ok none ∧ lengthChange? g inner = .ok none

theorem fuseLayouts?_eq_none (h : fuseLayouts? g outer inner = .ok none) :
    KeepsLength g outer inner := by
  simp only [fuseLayouts?, Except.bind_eq_ok] at h
  obtain ⟨expected, -, found, -, h⟩ := h
  split at h
  next =>
    obtain ⟨_, hthrow, -⟩ := Except.bind_eq_ok.1 h
    cases hthrow
  next =>
    obtain ⟨changes, hchanges, h⟩ := Except.bind_eq_ok.1 h
    cases changes with
    | true =>
      simp only [if_true, Except.bind_eq_ok] at h
      obtain ⟨_, -, _, -, h⟩ := h
      cases h
    | false =>
      have hall := changesLength_eq_false hchanges
      exact ⟨hall outer (by simp), hall inner (by simp)⟩

theorem absorb?_eq_none (h : absorb? g outer inner = .ok none) : KeepsLength g outer inner := by
  simp only [absorb?, Except.bind_eq_ok] at h
  obtain ⟨change, hchange, h⟩ := h
  cases change with
  | some q =>
    simp only [Except.bind_eq_ok] at h
    obtain ⟨_, -, _, -, h⟩ := h
    cases h
  | none =>
    simp only [Except.bind_eq_ok] at h
    obtain ⟨change', hchange', h⟩ := h
    cases change' with
    | some q =>
      simp only [Except.bind_eq_ok] at h
      obtain ⟨_, -, _, -, h⟩ := h
      cases h
    | none => exact ⟨hchange, hchange'⟩

theorem fuse_cases {fused : Fused} (h : fuse g outer inner rank = .ok fused) :
    let both := g.IsCallTo outer Op.layoutTransform ∧ g.IsCallTo inner Op.layoutTransform
    both ∧ fuseLayouts? g outer inner = .ok (some fused) ∨
      ¬both ∧ absorb? g outer inner = .ok (some fused) ∨
        KeepsLength g outer inner ∧ ∃ order, composeOrders g outer inner rank = .ok order ∧
          fused = .axes order := by
  have haxes (hx : (do return .axes (← composeOrders g outer inner rank)) = Except.ok fused) :
      ∃ order, composeOrders g outer inner rank = .ok order ∧ fused = .axes order := by
    obtain ⟨order, horder, hx⟩ := Except.bind_eq_ok.1 hx
    cases hx
    exact ⟨order, horder, rfl⟩
  simp only [fuse] at h
  split at h
  next hboth =>
    obtain ⟨fused?, hfused?, h⟩ := Except.bind_eq_ok.1 h
    cases fused? with
    | some fused' =>
      cases h
      exact .inl ⟨hboth, hfused?⟩
    | none => exact .inr (.inr ⟨fuseLayouts?_eq_none hfused?, haxes h⟩)
  next hboth =>
    obtain ⟨fused?, hfused?, h⟩ := Except.bind_eq_ok.1 h
    cases fused? with
    | some fused' =>
      cases h
      exact .inr (.inl ⟨hboth, hfused?⟩)
    | none => exact .inr (.inr ⟨absorb?_eq_none hfused?, haxes h⟩)

theorem fuseLayouts?_reorders {fused : Fused} (ho : g.Reorders rank o₂ outer)
    (hi : g.Reorders rank o₁ inner) (houter : g.IsCallTo outer Op.layoutTransform)
    (hinner : g.IsCallTo inner Op.layoutTransform)
    (h : fuseLayouts? g outer inner = .ok (some fused)) : fused.Reorders rank (gather o₂ o₁) := by
  obtain ⟨src₂, dst₂, hlayouts₂, hturns₂⟩ := ho.layouts houter
  obtain ⟨src₁, dst₁, hlayouts₁, hturns₁⟩ := hi.layouts hinner
  obtain ⟨hsrc₂, hdst₂⟩ := Graph.layouts_eq_ok.1 hlayouts₂
  obtain ⟨hsrc₁, hdst₁⟩ := Graph.layouts_eq_ok.1 hlayouts₁
  obtain ⟨src, mid, dst, hsrc, hmid, hmid', hdst, rfl⟩ := fuseLayouts?_eq_some h
  cases hsrc.symm.trans hsrc₁
  cases hmid.symm.trans hdst₁
  cases hmid'.symm.trans hsrc₂
  cases hdst.symm.trans hdst₂
  exact hturns₁.trans hi.isOrder hturns₂

theorem absorb?_reorders {fused : Fused} (ho : g.Reorders rank o₂ outer)
    (hi : g.Reorders rank o₁ inner) (h : absorb? g outer inner = .ok (some fused)) :
    fused.Reorders rank (gather o₂ o₁) := by
  rcases absorb?_eq_some h with ⟨src, dst, order, src', hchange, horder, hsrc', rfl⟩ |
    ⟨src, dst, order, dst', hchange, horder, hdst', rfl⟩
  · obtain ⟨hcall, hlayouts⟩ := lengthChange?_eq_some hchange
    obtain ⟨_, _, hlayouts', hturns⟩ := ho.layouts hcall
    cases hlayouts.symm.trans hlayouts'
    rw [hturns.srcRank, hi.axisOrder] at horder
    cases horder
    have hinverse := AxisOrder.isOrder_inverse hi.isOrder
    rw [← hturns.srcRank] at hinverse
    have hback := Layout.Turns.permute hturns.srcNamed hinverse hsrc'
    rw [hturns.srcRank] at hback
    exact (hback.symm_inverse hi.isOrder).trans hi.isOrder hturns
  · obtain ⟨hcall, hlayouts⟩ := lengthChange?_eq_some hchange
    obtain ⟨_, _, hlayouts', hturns⟩ := hi.layouts hcall
    cases hlayouts.symm.trans hlayouts'
    rw [hturns.dstRank, ho.axisOrder] at horder
    cases horder
    have hturns' := Layout.Turns.permute hturns.dstNamed (hturns.dstRank.symm ▸ ho.isOrder) hdst'
    rw [hturns.dstRank] at hturns'
    exact hturns.trans hi.isOrder hturns'

theorem composeOrders_eq {order : AxisOrder} (ho : g.Reorders rank o₂ outer)
    (hi : g.Reorders rank o₁ inner) (h : composeOrders g outer inner rank = .ok order) :
    order = gather o₂ o₁ := by
  simp only [composeOrders, ho.axisOrder, hi.axisOrder, Except.bind_eq_ok] at h
  obtain ⟨_, ⟨⟩, axes, haxes, _, ⟨⟩, h⟩ := h
  rw [AxisOrder.eq_gather_of_compose h, AxisOrder.eq_gather_of_compose haxes,
    AxisOrder.gather_identity fun k hk ↦ hi.isOrder.lt hk]

theorem fuse_reorders {fused : Fused} (ho : g.Reorders rank o₂ outer)
    (hi : g.Reorders rank o₁ inner)
    (h : fuse g outer inner rank = .ok fused) : fused.Reorders rank (gather o₂ o₁) := by
  rcases fuse_cases h with ⟨hboth, h⟩ | ⟨-, h⟩ | ⟨-, order, horder, rfl⟩
  · exact fuseLayouts?_reorders ho hi hboth.1 hboth.2 h
  · exact absorb?_reorders ho hi h
  · exact composeOrders_eq ho hi horder

end Rule.Transpose

end TensorOpt
