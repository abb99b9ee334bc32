import TensorOpt.Proofs.Rule.Transpose

namespace TensorOpt

open AxisOrder (gather IsOrder)

variable {g g' : Graph} {call pre post inner data e : NodeId} {rank : Nat} {o o₁ o₂ : AxisOrder}
  {before mid after labels out : List Axis} {src dst : Layout} {τ : TensorType}

/-- Axes labelled `before` come out of the call labelled `after`. -/
inductive Graph.Carries (g : Graph) (call : NodeId) : List Axis → List Axis → Prop
  | transpose {before : List Axis} {o : AxisOrder} (hcall : g.IsCallTo call Op.transpose)
    (ho : g.axisOrder call before.length = .ok o) : Carries g call before (gather o before)
  | layouts (src dst : Layout) (hcall : g.IsCallTo call Op.layoutTransform)
    (hlayouts : g.layouts call = .ok (src, dst)) : Carries g call src.axes dst.axes

namespace AxisOrder

theorem gather_eq_of_getElem? {α : Type} {l l' : List α} (hlength : o.length = l'.length)
    (h : ∀ i k : Nat, o[i]? = some k → ∃ a, l[k]? = some a ∧ l'[i]? = some a) :
    gather o l = l' := by
  have hlt : ∀ k ∈ o, k < l.length := by
    intro k hk
    obtain ⟨i, hi⟩ := List.getElem?_of_mem hk
    obtain ⟨a, ha, -⟩ := h i k hi
    exact (List.getElem?_eq_some_iff.1 ha).1
  refine List.ext_getElem? fun i ↦ ?_
  rw [getElem?_gather hlt]
  cases hi : o[i]? with
  | none =>
    rw [List.getElem?_eq_none_iff, hlength, ← List.getElem?_eq_none_iff] at hi
    exact hi.symm
  | some k =>
    obtain ⟨a, ha, ha'⟩ := h i k hi
    rw [Option.bind_some, ha, ha']

/-- Every position of `after` that `o` speaks of has the letter of the axis that it comes from. -/
def Follows (o : AxisOrder) (before after : List Axis) : Prop :=
  ∀ i k : Nat, o[i]? = some k →
    ∃ a b : Axis, before[k]? = some a ∧ after[i]? = some b ∧ a.letter = b.letter

namespace Follows

theorem trans (h₁ : Follows o₁ before mid) (h₂ : Follows o₂ mid after)
    (ho : List.Forall₂ (fun j k ↦ o₁[j]? = some k) o₂ o) : Follows o before after := by
  intro i k hk
  obtain ⟨hi, rfl⟩ := List.getElem?_eq_some_iff.1 hk
  have hi' : i < o₂.length := ho.length_eq ▸ hi
  obtain ⟨b, c, hb, hc, hbc⟩ := h₂ i o₂[i] (List.getElem?_eq_getElem hi')
  obtain ⟨a, b', ha, hb', hab⟩ := h₁ o₂[i] o[i] (ho.get hi' hi)
  cases hb.symm.trans hb'
  exact ⟨a, c, ha, hc, hab.trans hbc⟩

theorem gather_letters (h : Follows o before after) (hlength : o.length = after.length) :
    gather o (before.map Axis.letter) = after.map Axis.letter := by
  refine gather_eq_of_getElem? (by rwa [List.length_map]) fun i k hk ↦ ?_
  obtain ⟨a, b, ha, hb, hab⟩ := h i k hk
  exact ⟨a.letter, by rw [List.getElem?_map, ha]; rfl, by rw [List.getElem?_map, hb, hab]; rfl⟩

/-- Letters tell the axes of one layout apart. -/
theorem gather (h : Follows o before after) (hlength : o.length = after.length)
    (hletters : (before.map Axis.letter).Nodup) (hsub : ∀ b ∈ after, b ∈ before) :
    gather o before = after := by
  refine gather_eq_of_getElem? hlength fun i k hk ↦ ?_
  obtain ⟨a, b, ha, hb, hab⟩ := h i k hk
  have heq : a = b := List.inj_on_of_nodup_map hletters (List.mem_of_getElem? ha)
    (hsub b (List.mem_of_getElem? hb)) hab
  exact ⟨a, ha, heq ▸ hb⟩

end Follows

theorem follows_ofLayouts (h : ofLayouts rank src dst = .ok o) :
    Follows o src.axes dst.axes ∧ o.length = rank := by
  have horder := ofLayouts_eq_ok.1 h
  refine ⟨fun i k hk ↦ ?_, horder.length_eq.symm.trans List.length_range⟩
  obtain ⟨hi, rfl⟩ := List.getElem?_eq_some_iff.1 hk
  have hi' : i < (List.range rank).length := horder.length_eq ▸ hi
  have hfound : dst.axes[i]?.bind src.indexOf? = some o[i] := by
    simpa using horder.get hi' hi
  obtain ⟨b, hb, hindex⟩ := Option.bind_eq_some_iff.1 hfound
  rw [Layout.indexOf?, List.findIdx?_eq_some_iff_getElem] at hindex
  obtain ⟨hk', hletter, -⟩ := hindex
  exact ⟨_, b, List.getElem?_eq_getElem hk', hb, by simpa using hletter⟩

theorem forall₂_of_compose (h : compose rank o₁ o₂ = .ok o) :
    List.Forall₂ (fun j k ↦ o₁[j]? = some k) o₂ o := by
  refine (Except.mapM_eq_ok.1 h).imp fun j k hjk ↦ ?_
  split at hjk
  next hj => rwa [← Except.ok.inj hjk]
  next => cases hjk

end AxisOrder

namespace Graph

theorem IsCallTo.not_layoutTransform (h : g.IsCallTo call Op.transpose) :
    ¬g.IsCallTo call Op.layoutTransform := by
  intro h'
  exact absurd (Option.some.inj (h.symm.trans h')) (by decide)

theorem IsCallTo.isOrder (h : g.IsCallTo call Op.transpose)
    (ho : g.axisOrder call rank = .ok o) : IsOrder rank o := by
  rcases axisOrder_cases ho with ⟨-, hisOrder⟩ | ⟨hlayout, -⟩
  · exact hisOrder
  · exact absurd hlayout h.not_layoutTransform

namespace Carries

theorem isAxisPermuting (h : g.Carries call before after) : g.IsAxisPermuting call := by
  cases h with
  | transpose hcall => exact .inl hcall
  | layouts _ _ hcall => exact .inr hcall

theorem of_transpose (h : g.Carries call before after) (hcall : g.IsCallTo call Op.transpose) :
    ∃ o, g.axisOrder call before.length = .ok o ∧ IsOrder before.length o ∧
      gather o before = after := by
  cases h with
  | @transpose _ o _ ho => exact ⟨o, ho, hcall.isOrder ho, rfl⟩
  | layouts _ _ hlayout => exact absurd hlayout hcall.not_layoutTransform

theorem of_layouts (h : g.Carries call before after) (hlayouts : g.layouts call = .ok (src, dst))
    (hcall : g.IsCallTo call Op.layoutTransform) : src.axes = before ∧ dst.axes = after := by
  cases h with
  | transpose htranspose => exact absurd hcall htranspose.not_layoutTransform
  | layouts _ _ _ hlayouts' =>
    cases hlayouts.symm.trans hlayouts'
    exact ⟨rfl, rfl⟩

/-- An order that is looked up at the rank of the argument, if the call is a transpose, goes by the
letters. -/
theorem follows (h : g.Carries call before after) (ho : g.axisOrder call rank = .ok o)
    (hrank : g.IsCallTo call Op.transpose → before.length = rank) :
    AxisOrder.Follows o before after ∧ o.length = rank := by
  rcases axisOrder_cases ho with ⟨hcall, hisOrder⟩ | ⟨hcall, src, dst, hlayouts, ho⟩
  · obtain rfl := hrank hcall
    obtain ⟨o', ho', -, rfl⟩ := h.of_transpose hcall
    cases ho.symm.trans ho'
    refine ⟨fun i k hk ↦ ?_, hisOrder.length⟩
    have hlt : k < before.length := hisOrder.lt (List.mem_of_getElem? hk)
    refine ⟨before[k], before[k], List.getElem?_eq_getElem hlt, ?_, rfl⟩
    rw [AxisOrder.getElem?_gather fun _ ↦ hisOrder.lt, hk, Option.bind_some,
      List.getElem?_eq_getElem hlt]
  · obtain ⟨rfl, rfl⟩ := h.of_layouts hlayouts hcall
    exact AxisOrder.follows_ofLayouts ho

theorem letters (h₁ : g.Carries inner labels mid) (h₂ : g.Carries post mid out)
    (hlayout : g.IsCallTo inner Op.layoutTransform ∨ g.IsCallTo post Op.layoutTransform) :
    (labels.map Axis.letter).Nodup := by
  have hsource {call : NodeId} {before after : List Axis} (h : g.Carries call before after)
      (hcall : g.IsCallTo call Op.layoutTransform) : (before.map Axis.letter).Nodup := by
    cases h with
    | transpose htranspose => exact absurd hcall htranspose.not_layoutTransform
    | layouts _ _ _ hlayouts =>
      exact (named_of_layoutAttr (layouts_eq_ok.1 hlayouts).1).wellFormed.letters
  rcases h₁.isAxisPermuting with hcall | hcall
  · obtain ⟨o, -, ho, rfl⟩ := h₁.of_transpose hcall
    have hpost := hlayout.resolve_left hcall.not_layoutTransform
    exact ((AxisOrder.gather_perm rfl ho).map Axis.letter).nodup_iff.1 (hsource h₂ hpost)
  · exact hsource h₁ hcall

end Carries

end Graph

namespace Rule.Transpose

theorem composeOrders_follows (h₁ : g.Carries inner labels mid) (h₂ : g.Carries post mid out)
    (h : composeOrders g post inner out.length = .ok o) :
    (labels.length = out.length → AxisOrder.Follows o labels out) ∧ o.length = out.length := by
  simp only [composeOrders, Except.bind_eq_ok] at h
  obtain ⟨o₁, ho₁, axes, haxes, o₂, ho₂, h⟩ := h
  obtain rfl : o₁ = axes := by
    rw [← List.forall₂_eq_eq_eq]
    refine (AxisOrder.forall₂_of_compose haxes).imp fun j k hjk ↦ ?_
    rw [AxisOrder.getElem?_identity, Option.ite_none_right_eq_some] at hjk
    exact Option.some.inj hjk.2
  have hmid (hcall : g.IsCallTo post Op.transpose) : mid.length = out.length := by
    obtain ⟨o', -, ho', rfl⟩ := h₂.of_transpose hcall
    exact (AxisOrder.gather_perm rfl ho').length_eq.symm
  obtain ⟨hfollows₂, hlength⟩ := h₂.follows ho₂ hmid
  have hcompose := AxisOrder.forall₂_of_compose h
  refine ⟨fun hrank ↦ ?_, hcompose.length_eq.symm.trans hlength⟩
  obtain ⟨hfollows₁, -⟩ := h₁.follows ho₁ fun _ ↦ hrank
  exact hfollows₁.trans hfollows₂ hcompose

/-- A fused layout transform is one of the labels that the pair is given and gives. -/
theorem fuse_layouts (h₁ : g.Carries inner labels mid) (h₂ : g.Carries post mid out)
    (h : fuse g post inner rank = .ok (.layouts src dst)) : src.axes = labels ∧ dst.axes = out := by
  rcases fuse_cases h with ⟨hboth, h⟩ | ⟨hboth, h⟩ | ⟨-, order, -, h⟩
  · obtain ⟨src', mid', dst', hsrc, hmid, hmid', hdst, h⟩ := fuseLayouts?_eq_some h
    cases h
    exact ⟨(h₁.of_layouts (Graph.layouts_eq_ok.2 ⟨hsrc, hmid⟩) hboth.2).1,
      (h₂.of_layouts (Graph.layouts_eq_ok.2 ⟨hmid', hdst⟩) hboth.1).2⟩
  · rcases absorb?_eq_some h with ⟨src', dst', order, _, hchange, horder, hpermute, h⟩ |
      ⟨src', dst', order, _, hchange, horder, hpermute, h⟩
    · cases h
      obtain ⟨hcall, hlayouts⟩ := lengthChange?_eq_some hchange
      obtain ⟨hsrc, hdst⟩ := h₂.of_layouts hlayouts hcall
      have hinner := h₁.isAxisPermuting.resolve_right fun hinner ↦ hboth ⟨hcall, hinner⟩
      obtain ⟨o, ho, hisOrder, rfl⟩ := h₁.of_transpose hinner
      have hrank : src'.rank = labels.length := by
        rw [Layout.rank, hsrc]
        exact (AxisOrder.gather_perm rfl hisOrder).length_eq
      rw [hrank] at horder
      cases horder.symm.trans ho
      refine ⟨?_, hdst⟩
      rw [Layout.axes_of_permute hpermute, Layout.ofAxes, hsrc,
        AxisOrder.gather_gather fun _ ↦ hisOrder.lt, AxisOrder.inverse_gather hisOrder,
        AxisOrder.identity_gather rfl]
    · cases h
      obtain ⟨hcall, hlayouts⟩ := lengthChange?_eq_some hchange
      obtain ⟨hsrc, hdst⟩ := h₁.of_layouts hlayouts hcall
      have hpost := h₂.isAxisPermuting.resolve_right fun hpost ↦ hboth ⟨hpost, hcall⟩
      obtain ⟨o, ho, -, rfl⟩ := h₂.of_transpose hpost
      rw [Layout.rank, hdst] at horder
      cases horder.symm.trans ho
      refine ⟨hsrc, ?_⟩
      rw [Layout.axes_of_permute hpermute, Layout.ofAxes, hdst]
  · cases h

def ChangesLength (g : Graph) (call : NodeId) : Prop :=
  g.IsCallTo call Op.layoutTransform ∧
    ∃ src dst, g.layouts call = .ok (src, dst) ∧ src.name.length ≠ dst.name.length

theorem not_changesLength (h : lengthChange? g call = .ok none) : ¬ChangesLength g call := by
  rintro ⟨hcall, src, dst, hlayouts, hlength⟩
  rw [lengthChange?, if_pos hcall, hlayouts] at h
  obtain ⟨_, ⟨⟩, h⟩ := Except.bind_eq_ok.1 h
  simp only [if_neg hlength] at h
  cases h

theorem lengthChange?_transpose (he : g.IsCallTo e Op.transpose) :
    lengthChange? g e = .ok none := by
  rw [lengthChange?, if_neg he.not_layoutTransform]
  rfl

theorem transpose_inj {axes axes' : List Word} {σ : TensorType}
    (h : Node.transpose data (some axes) σ = Node.transpose data (some axes') τ) :
    axes = axes' := by
  have hattr := congrArg (fun n ↦ (n.attrs?.bind (·.get? Key.axes)).bind Attribute.ints?) h
  have hints (axes : List Word) (τ : TensorType) : ((Node.transpose data (some axes) τ).attrs?.bind
      (·.get? Key.axes)).bind Attribute.ints? = some axes := Interpretation.ints?_ints axes
  simp only [hints] at hattr
  exact Option.some.inj hattr

/-- A fused transpose carries the letters, and also the sizes of the blocks if they are kept. -/
theorem fuse_axes (h₁ : g.Carries inner labels mid) (h₂ : g.Carries post mid out)
    (hlayout : g.IsCallTo inner Op.layoutTransform ∨ g.IsCallTo post Op.layoutTransform)
    (h : fuse g post inner out.length = .ok (.axes o)) :
    o.length = out.length ∧
    (labels.length = out.length → out.map Axis.letter = gather o (labels.map Axis.letter)) ∧
    (labels.Perm out ∨ ChangesLength g inner ∨ ChangesLength g post →
      labels.Perm out ∧ out = gather o labels) := by
  rcases fuse_cases h with ⟨-, h⟩ | ⟨-, h⟩ | ⟨hkeeps, order, hcompose, horder⟩
  · obtain ⟨_, _, _, _, _, _, _, ⟨⟩⟩ := fuseLayouts?_eq_some h
  · rcases absorb?_eq_some h with ⟨_, _, _, _, _, _, _, ⟨⟩⟩ | ⟨_, _, _, _, _, _, _, ⟨⟩⟩
  cases horder
  obtain ⟨hfollows, horder⟩ := composeOrders_follows h₁ h₂ hcompose
  refine ⟨horder, fun hlength ↦ ((hfollows hlength).gather_letters horder).symm, fun hkept ↦ ?_⟩
  have hperm : labels.Perm out := by
    rcases hkept with hperm | hchanges | hchanges
    · exact hperm
    · exact absurd hchanges (not_changesLength hkeeps.2)
    · exact absurd hchanges (not_changesLength hkeeps.1)
  have hgather := (hfollows hperm.length_eq).gather horder (h₁.letters h₂ hlayout)
    fun b hb ↦ hperm.mem_iff.2 hb
  exact ⟨hperm, hgather.symm⟩

/-- What a pair of operators that reorder axes is replaced by carries the labels of the axes as the
pair does, if the pair has the same labels before and after it or if one of the layout transforms
in it changes the length of the layout. If the pair has as many axes before as after it, at least
the letters are carried so. -/
theorem fused_pair_keeps_labels {b : Bindings} (hpost : g.args post = [inner])
    (hinner : g.args inner = [data]) (hdata : data < g.size) (htype : g.type? pre = some τ)
    (hrank : τ.rank = out.length)
    (hlayout : g.IsCallTo inner Op.layoutTransform ∨ g.IsCallTo post Op.layoutTransform)
    (h₁ : g.Carries inner labels mid) (h₂ : g.Carries post mid out)
    (h : exec (Rule.transpose.apply pre post b) g = (.ok e, g')) :
    let kept := labels.Perm out ∨ ChangesLength g inner ∨ ChangesLength g post
    (e = data → (kept → out = labels) ∧
      (labels.length = out.length → out.map Axis.letter = labels.map Axis.letter)) ∧
    ∀ axes σ, e ≠ data → g'.node? e = some (.transpose data (some axes) σ) →
      ∃ order : AxisOrder, axes = order.map Int64.ofNat ∧ order.length = out.length ∧
        (kept → out = gather order labels) ∧
        (labels.length = out.length →
          out.map Axis.letter = gather order (labels.map Axis.letter)) := by
  intro kept
  rcases exec_apply hpost htype h with ⟨hpermuting, -⟩ | ⟨-, hfuse⟩
  · exact absurd h₁.isAxisPermuting hpermuting
  obtain ⟨fused, hfused, hplace⟩ := hfuse data hinner
  cases fused with
  | layouts src dst =>
    obtain ⟨rfl, rfl⟩ := fuse_layouts h₁ h₂ hfused
    rcases exec_place_layouts hplace with ⟨rfl, rfl, rfl⟩ | ⟨rfl, rfl⟩
    · exact ⟨fun _ ↦ ⟨fun _ ↦ rfl, fun _ ↦ rfl⟩, fun _ _ hne ↦ absurd rfl hne⟩
    · refine ⟨fun hsize ↦ absurd hsize hdata.ne', fun axes σ _ hn ↦ ?_⟩
      rw [Graph.node?_push_size] at hn
      have hcallee := congrArg Node.callee? (Option.some.inj hn)
      exact absurd (Option.some.inj hcallee) (by decide)
  | axes order =>
    rw [hrank] at hfused
    obtain ⟨horder, hletters, hlabels⟩ := fuse_axes h₁ h₂ hlayout hfused
    rcases exec_place_axes hplace with ⟨hidentity, rfl, rfl⟩ | ⟨rfl, rfl⟩
    · refine ⟨fun _ ↦ ⟨fun hkept ↦ ?_, fun hlength ↦ ?_⟩, fun _ _ hne ↦ absurd rfl hne⟩
      · obtain ⟨hperm, hout⟩ := hlabels hkept
        rw [hout, hidentity, horder, AxisOrder.identity_gather hperm.length_eq]
      · rw [hletters hlength, hidentity, horder,
          AxisOrder.identity_gather (by simpa using hlength)]
    · refine ⟨fun hsize ↦ absurd hsize hdata.ne', fun axes σ _ hn ↦ ?_⟩
      rw [Graph.node?_push_size] at hn
      have haxes : axes = order.map Int64.ofNat := (transpose_inj (Option.some.inj hn)).symm
      exact ⟨order, haxes, horder, fun hkept ↦ (hlabels hkept).2, hletters⟩

section Blocks

def blocked (a b c d e : Word) : TensorType := .ofStatic [a, b, c, d, e] ⟨.float, 32, 1⟩

def batch : Axis := ⟨none, 'N'⟩

def channels : Axis := ⟨none, 'C'⟩

def height : Axis := ⟨none, 'H'⟩

def width : Axis := ⟨none, 'W'⟩

def block (size : Nat) : Axis := ⟨some size, 'c'⟩

def movedBlocks : Graph where
  nodes := #[.var "x" (blocked 1 32 56 56 4),
    .layoutTransform 0 "NCHW4c" "4cNCHW" (blocked 4 1 32 56 56),
    .layoutTransform 1 "4cNCHW" "NHW4cC" (blocked 1 56 56 4 32)]

theorem fused_pair_keeps_labels_movedBlocks :
    let g := movedBlocks
    let τ := blocked 1 56 56 4 32
    let labels := [batch, channels, height, width, block 4]
    let mid := [block 4, batch, channels, height, width]
    let out := [batch, height, width, block 4, channels]
    let node := Node.transpose 0 (some [0, 2, 3, 4, 1]) τ
    g.args 2 = [1] ∧ g.args 1 = [0] ∧ 0 < g.size ∧ g.type? 2 = some τ ∧ τ.rank = out.length ∧
      g.IsCallTo 1 Op.layoutTransform ∧ g.Carries 1 labels mid ∧ g.Carries 2 mid out ∧
      exec (Rule.transpose.apply 2 2 {}) g = (.ok 3, g.push node) ∧
      (g.push node).node? 3 = some node ∧ labels.Perm out ∧
      ∃ order : AxisOrder, [0, 2, 3, 4, 1] = order.map Int64.ofNat ∧ order.length = out.length ∧
        out = gather order labels := by
  intro g τ labels mid out node
  have h₁ : g.Carries 1 labels mid :=
    .layouts ⟨"NCHW4c", labels⟩ ⟨"4cNCHW", mid⟩ rfl (by decide +kernel)
  have h₂ : g.Carries 2 mid out :=
    .layouts ⟨"4cNCHW", mid⟩ ⟨"NHW4cC", out⟩ rfl (by decide +kernel)
  have hexec : exec (Rule.transpose.apply 2 2 {}) g = (.ok 3, g.push node) := by decide +kernel
  have hcall : g.IsCallTo 1 Op.layoutTransform := rfl
  have htype : g.type? 2 = some τ := rfl
  have hperm : labels.Perm out := by decide
  have hkeeps := fused_pair_keeps_labels rfl rfl (by decide) htype rfl (.inl hcall) h₁ h₂ hexec
  obtain ⟨order, horder, hlength, hout, -⟩ := hkeeps.2 [0, 2, 3, 4, 1] τ (by decide) rfl
  exact ⟨rfl, rfl, by decide, rfl, rfl, rfl, h₁, h₂, hexec, rfl, hperm, order, horder, hlength,
    hout (.inl hperm)⟩

def resizedBlocks : Graph where
  nodes := #[.var "x" (blocked 1 32 56 56 4),
    .layoutTransform 0 "NCHW4c" "NCHW8c" (blocked 1 16 56 56 8),
    .layoutTransform 1 "NCHW8c" "NCHW2c" (blocked 1 64 56 56 2)]

/-- Layouts of the same length that differ in the size of a block count as the same, so that two
transforms between them disappear although the blocks are of another size after them. -/
theorem fused_pair_drops_resizedBlocks :
    let g := resizedBlocks
    let τ := blocked 1 64 56 56 2
    let labels (size : Nat) := [batch, channels, height, width, block size]
    g.args 2 = [1] ∧ g.args 1 = [0] ∧ g.type? 2 = some τ ∧ τ.rank = (labels 2).length ∧
      g.Carries 1 (labels 4) (labels 8) ∧ g.Carries 2 (labels 8) (labels 2) ∧
      exec (Rule.transpose.apply 2 2 {}) g = (.ok 0, g) ∧ labels 2 ≠ labels 4 := by
  intro g τ labels
  refine ⟨rfl, rfl, rfl, rfl, ?_, ?_, by decide +kernel, by decide⟩
  · exact .layouts ⟨"NCHW4c", labels 4⟩ ⟨"NCHW8c", labels 8⟩ rfl (by decide +kernel)
  · exact .layouts ⟨"NCHW8c", labels 8⟩ ⟨"NCHW2c", labels 2⟩ rfl (by decide +kernel)

end Blocks

end Rule.Transpose

end TensorOpt
