import TensorOpt.Proofs.Rule.Labels
import TensorOpt.Proofs.Tensor.Labelled
import TensorOpt.Proofs.Tensor.Packing

namespace TensorOpt

open AxisOrder (gather IsOrder)

variable {g g' : Graph} {call arg pre post inner data e : NodeId} {rank : Nat} {o : AxisOrder}
  {src mid dst expected found : Layout} {τ : TensorType} {b : Bindings}

namespace Graph

structure TransformsBy (g : Graph) (call : NodeId) (src dst : Layout) : Prop where
  isCallTo : g.IsCallTo call Op.layoutTransform
  layouts : g.layouts call = .ok (src, dst)

def TransposesBy (g : Graph) (call : NodeId) (rank : Nat) (o : AxisOrder) : Prop :=
  ∃ args attrs type?, g.node? call = some ⟨.call Op.transpose args attrs, type?⟩ ∧
    AxisOrder.Names rank attrs.axes o

theorem TransformsBy.named (h : g.TransformsBy call src dst) : src.Named ∧ dst.Named := by
  obtain ⟨hsrc, hdst⟩ := layouts_eq_ok.1 h.layouts
  exact ⟨named_of_layoutAttr hsrc, named_of_layoutAttr hdst⟩

theorem TransposesBy.isCallTo (h : g.TransposesBy call rank o) : g.IsCallTo call Op.transpose := by
  obtain ⟨_, _, _, hn, -⟩ := h
  exact isCallTo_transpose hn

theorem TransposesBy.axisOrder (h : g.TransposesBy call rank o) :
    g.axisOrder call rank = .ok o := by
  obtain ⟨_, _, _, hn, ho⟩ := h
  exact axisOrder_of_names hn ho

theorem TransposesBy.isOrder (h : g.TransposesBy call rank o) : IsOrder rank o :=
  h.isCallTo.isOrder h.axisOrder

end Graph

namespace Relayout.Interprets

variable {V : Type} [Inhabited V] {R : Relayout V} {A : Semantics (Tensor V)}
  {Accepts : Option TensorType → Tensor V → Prop} {m : Tensor V}

theorem means_transpose (hA : R.Interprets A Accepts) (h : Means A g call m)
    (hargs : g.args call = [arg]) (hcall : g.IsCallTo call Op.transpose) :
    Accepts (g.type? call) m ∧ ∃ t o, Means A g arg t ∧
      g.axisOrder call t.shape.length = .ok o ∧ t.permute o = m := by
  obtain ⟨n, ms, hn, hms, hm⟩ := means_iff.1 h
  rw [← Graph.args_of_node? hn, hargs] at hms
  obtain ⟨t, rest, ht, hrest, rfl⟩ := List.forall₂_cons_left_iff.1 hms
  cases hrest
  obtain ⟨haccepts, o, ho, hpermute⟩ := (hA.transpose ((Graph.isCallTo_iff hn).1 hcall)).1 hm
  rw [Node.type?_head, ← Graph.type?_of_node? hn] at haccepts
  exact ⟨haccepts, t, o, ht, (Graph.sameCall_alone hn).axisOrder.2 ho, hpermute⟩

theorem means_transform (hA : R.Interprets A Accepts) (h : Means A g call m)
    (hargs : g.args call = [arg]) (hcall : g.TransformsBy call src dst) :
    Accepts (g.type? call) m ∧ ∃ t, Means A g arg t ∧ R.move src dst t = some m := by
  obtain ⟨n, ms, hn, hms, hm⟩ := means_iff.1 h
  rw [← Graph.args_of_node? hn, hargs] at hms
  obtain ⟨t, rest, ht, hrest, rfl⟩ := List.forall₂_cons_left_iff.1 hms
  cases hrest
  obtain ⟨haccepts, _, _, hlayouts, hmove⟩ :=
    (hA.layouts ((Graph.isCallTo_iff hn).1 hcall.isCallTo)).1 hm
  rw [← (Graph.sameCall_alone hn).layouts, hcall.layouts] at hlayouts
  cases hlayouts
  rw [Node.type?_head, ← Graph.type?_of_node? hn] at haccepts
  exact ⟨haccepts, t, ht, hmove⟩

end Relayout.Interprets

namespace Rule.Transpose

/-- The call `post` is matched, and `e` takes its place: the data itself if the two layouts are the
same, and otherwise a layout transform of it between them that has the given type. Whatever `post`
means, `e` means too. -/
structure Replaced (g : Graph) (post data : NodeId) (τ : TensorType) (src dst : Layout) (g' : Graph)
    (e : NodeId) : Prop where
  matched : Rule.transpose.pattern.Matches g post
  grows : g.Grows g'
  data_iff : e = data ↔ src = dst
  node? : e ≠ data → g'.node? e = some (.layoutTransform data src.name dst.name τ)
  layouts : e ≠ data → g'.layouts e = .ok (src, dst)
  means : ∀ {V : Type} [Inhabited V] (R : Relayout V) (A : Semantics (Tensor V))
    (Accepts : Option TensorType → Tensor V → Prop), R.Interprets A Accepts →
      ∀ m, Means A g post m → Means A g' e m

section Fuse

theorem lengthChange?_of_transformsBy (hcall : g.TransformsBy call src dst) :
    lengthChange? g call =
      .ok (if src.name.length = dst.name.length then none else some (src, dst)) := by
  rw [lengthChange?, if_pos hcall.isCallTo, hcall.layouts]
  rfl

/-- A transpose before the transform. -/
theorem fuse_transpose_transform (hinner : g.TransposesBy inner src.rank o)
    (hpost : g.TransformsBy post src dst) (hne : src.name.length ≠ dst.name.length) :
    fuse g post inner rank =
      .ok (.layouts (.ofAxes (gather (AxisOrder.inverse o) src.axes)) dst) := by
  have hpermute := Layout.permute_eq_ok (AxisOrder.isOrder_inverse hinner.isOrder)
  rw [fuse, if_neg fun h ↦ hinner.isCallTo.not_layoutTransform h.2, absorb?,
    lengthChange?_of_transformsBy hpost, if_neg hne]
  simp only [bind, Except.bind]
  rw [hinner.axisOrder]
  simp only [hpermute]
  rfl

/-- A transpose after the transform. -/
theorem fuse_transform_transpose (hinner : g.TransformsBy inner src dst)
    (hpost : g.TransposesBy post dst.rank o) (hne : src.name.length ≠ dst.name.length) :
    fuse g post inner rank = .ok (.layouts src (.ofAxes (gather o dst.axes))) := by
  have hpermute := Layout.permute_eq_ok hpost.isOrder
  rw [fuse, if_neg fun h ↦ hpost.isCallTo.not_layoutTransform h.1, absorb?,
    lengthChange?_transpose hpost.isCallTo]
  simp only [bind, Except.bind]
  rw [lengthChange?_of_transformsBy hinner, if_neg hne]
  simp only
  rw [hpost.axisOrder]
  simp only [hpermute]
  rfl

/-- Of two transforms the layout in between drops out. -/
theorem fuse_transform_transform (hinner : g.TransformsBy inner src mid)
    (hpost : g.TransformsBy post mid dst)
    (hne : src.name.length ≠ mid.name.length ∨ mid.name.length ≠ dst.name.length) :
    fuse g post inner rank = .ok (.layouts src dst) := by
  obtain ⟨hsrc, hfound⟩ := Graph.layouts_eq_ok.1 hinner.layouts
  obtain ⟨hexpected, hdst⟩ := Graph.layouts_eq_ok.1 hpost.layouts
  have hchanges : changesLength g [post, inner] = .ok true := by
    rw [changesLength, lengthChange?_of_transformsBy hpost]
    by_cases hlength : mid.name.length = dst.name.length
    · have hinner' := hne.resolve_right (not_not_intro hlength)
      simp only [bind, Except.bind, if_pos hlength]
      rw [changesLength, lengthChange?_of_transformsBy hinner, if_neg hinner']
      rfl
    · simp only [bind, Except.bind, if_neg hlength]
      rfl
  rw [fuse, if_pos ⟨hpost.isCallTo, hinner.isCallTo⟩, fuseLayouts?, hexpected, hfound]
  simp only [bind, Except.bind, ne_eq, not_true_eq_false, if_false, hchanges, hsrc, hdst]
  rfl

theorem fuse_mismatch (hinner : g.TransformsBy inner src found)
    (hpost : g.TransformsBy post expected dst) (hne : expected ≠ found) :
    fuse g post inner rank = .error (.layoutMismatch expected.name found.name) := by
  obtain ⟨-, hfound⟩ := Graph.layouts_eq_ok.1 hinner.layouts
  obtain ⟨hexpected, -⟩ := Graph.layouts_eq_ok.1 hpost.layouts
  rw [fuse, if_pos ⟨hpost.isCallTo, hinner.isCallTo⟩, fuseLayouts?, hexpected, hfound]
  simp only [bind, Except.bind, if_pos hne]
  rfl

end Fuse

section Means

variable {V : Type} [Inhabited V] {R : Relayout V} {A : Semantics (Tensor V)}
  {Accepts : Option TensorType → Tensor V → Prop} {m : Tensor V} {src' dst' : Layout}

theorem means_transpose_transform (hA : R.Interprets A Accepts) (hpost : g.args post = [inner])
    (hinner : g.args inner = [data]) (htranspose : g.TransposesBy inner src.rank o)
    (htransform : g.TransformsBy post src dst) (hturns : Layout.Turns src.rank o src' src)
    (hm : Means A g post m) :
    Accepts (g.type? post) m ∧ ∃ t, Means A g data t ∧ R.move src' dst t = some m := by
  obtain ⟨haccepts, u, hu, hmove⟩ := hA.means_transform hm hpost htransform
  obtain ⟨-, t, o', ht, ho', rfl⟩ := hA.means_transpose hu hinner htranspose.isCallTo
  refine ⟨haccepts, t, ht, ?_⟩
  have hrank : t.shape.length = src.rank := by
    have horder := htranspose.isCallTo.isOrder ho'
    exact (AxisOrder.gather_perm rfl horder).length_eq.symm.trans (R.rank hmove).1
  rw [hrank] at ho'
  cases htranspose.axisOrder.symm.trans ho'
  have hnodup : src'.axes.Nodup := .of_map _ hturns.srcNamed.wellFormed.letters
  rw [← hmove]
  exact R.reads (.permute hnodup (hrank.trans hturns.srcRank.symm)
    (hturns.srcRank.symm ▸ htranspose.isOrder) hturns.axes)

theorem means_transform_transpose (hA : R.Interprets A Accepts) (hpost : g.args post = [inner])
    (hinner : g.args inner = [data]) (htransform : g.TransformsBy inner src dst)
    (htranspose : g.TransposesBy post dst.rank o) (hturns : Layout.Turns dst.rank o dst dst')
    (hm : Means A g post m) :
    Accepts (g.type? post) m ∧ ∃ t, Means A g data t ∧ R.move src dst' t = some m := by
  obtain ⟨haccepts, u, o', hu, ho', rfl⟩ := hA.means_transpose hm hpost htranspose.isCallTo
  obtain ⟨-, t, ht, hmove⟩ := hA.means_transform hu hinner htransform
  refine ⟨haccepts, t, ht, ?_⟩
  have hrank : u.shape.length = dst.rank := (R.rank hmove).2
  rw [hrank] at ho'
  cases htranspose.axisOrder.symm.trans ho'
  have hnodup : dst.axes.Nodup := .of_map _ hturns.srcNamed.wellFormed.letters
  have hnodup' : dst'.axes.Nodup := .of_map _ hturns.dstNamed.wellFormed.letters
  have hagree : Agree dst u dst' (u.permute o) :=
    .permute hnodup hrank htranspose.isOrder hturns.axes
  obtain ⟨u', hmove', hagree'⟩ := R.writes hagree.axes hmove
  rw [hmove', hagree'.unique hnodup' hagree]

theorem means_transform_transform (hA : R.Interprets A Accepts) (hpost : g.args post = [inner])
    (hinner : g.args inner = [data]) (htransform : g.TransformsBy inner src mid)
    (htransform' : g.TransformsBy post mid dst) (hm : Means A g post m) :
    Accepts (g.type? post) m ∧ ∃ t, Means A g data t ∧ R.move src dst t = some m := by
  obtain ⟨haccepts, u, hu, hmove'⟩ := hA.means_transform hm hpost htransform'
  obtain ⟨-, t, ht, hmove⟩ := hA.means_transform hu hinner htransform
  exact ⟨haccepts, t, ht, R.trans hmove hmove'⟩

end Means

/-- It is enough to know what the fused transform makes of the data. -/
theorem replaced_of_fuse (hpost : g.args post = [inner]) (hinner : g.args inner = [data])
    (hdata : data < g.size) (hpre : g.type? pre = some τ) (htype : g.type? post = some τ)
    (hpermuting : g.IsAxisPermuting post) (hpermuting' : g.IsAxisPermuting inner)
    (hfuse : fuse g post inner τ.rank = .ok (.layouts src dst))
    (hsrc : src.Named) (hdst : dst.Named)
    (hmove : ∀ {V : Type} [Inhabited V] {R : Relayout V} {A : Semantics (Tensor V)}
      {Accepts : Option TensorType → Tensor V → Prop} {m : Tensor V}, R.Interprets A Accepts →
        Means A g post m → Accepts (g.type? post) m ∧
          ∃ t, Means A g data t ∧ R.move src dst t = some m) :
    ∃ e g', exec (Rule.transpose.apply pre post b) g = (.ok e, g') ∧
      Replaced g post data τ src dst g' e := by
  have hmatched := matches_pair hpermuting hpost hpermuting' hinner
  rw [exec_apply_fuse hpost hinner hpermuting' hpre, hfuse]
  simp only [place]
  by_cases hsame : src = dst
  · subst hsame
    rw [if_pos rfl]
    refine ⟨data, g, rfl, hmatched, .refl g, iff_of_true rfl rfl, absurd rfl, absurd rfl, ?_⟩
    intro V _ R A Accepts hA m hm
    obtain ⟨-, t, ht, hmoved⟩ := hmove hA hm
    rwa [R.same hmoved]
  · let n := Node.layoutTransform data src.name dst.name τ
    have hn : (g.push n).node? g.size = some n := Graph.node?_push_size g n
    have hlayouts : n.head.alone.layouts 0 = .ok (src, dst) :=
      Interpretation.layouts_layoutTransform data τ hsrc hdst
    rw [if_neg hsame]
    refine ⟨g.size, g.push n, rfl, hmatched, .push g n, iff_of_false hdata.ne' hsame, fun _ ↦ hn,
      fun _ ↦ ?_, ?_⟩
    · rw [(Graph.sameCall_alone hn).layouts, hlayouts]
    · intro V _ R A Accepts hA m hm
      obtain ⟨haccepts, t, ht, hmoved⟩ := hmove hA hm
      rw [htype] at haccepts
      exact .push (.cons ht .nil) ((hA.layouts rfl).2 ⟨haccepts, src, dst, hlayouts, hmoved⟩)

/-- A layout transform that changes the length of the layout absorbs a transpose on either side and
any layout transform next to it, with every label in its place. -/
theorem length_change_keeps_labels (hpost : g.args post = [inner]) (hinner : g.args inner = [data])
    (hdata : data < g.size) (hpre : g.type? pre = some τ) (htype : g.type? post = some τ) :
    (∀ src dst o, g.TransposesBy inner src.rank o → g.TransformsBy post src dst →
      src.name.length ≠ dst.name.length → ∃ src', src'.rank = src.rank ∧
        (∀ i k : Nat, o[i]? = some k → src'.axes[k]? = src.axes[i]?) ∧
        ∃ e g', exec (Rule.transpose.apply pre post b) g = (.ok e, g') ∧
          Replaced g post data τ src' dst g' e) ∧
    (∀ src dst o, g.TransformsBy inner src dst → g.TransposesBy post dst.rank o →
      src.name.length ≠ dst.name.length → ∃ dst', dst'.rank = dst.rank ∧
        (∀ i k : Nat, o[i]? = some k → dst'.axes[i]? = dst.axes[k]?) ∧
        ∃ e g', exec (Rule.transpose.apply pre post b) g = (.ok e, g') ∧
          Replaced g post data τ src dst' g' e) ∧
    (∀ src mid dst, g.TransformsBy inner src mid → g.TransformsBy post mid dst →
      src.name.length ≠ mid.name.length ∨ mid.name.length ≠ dst.name.length →
        ∃ e g', exec (Rule.transpose.apply pre post b) g = (.ok e, g') ∧
          Replaced g post data τ src dst g' e) ∧
    ∀ src found expected dst, g.TransformsBy inner src found → g.TransformsBy post expected dst →
      expected ≠ found → exec (Rule.transpose.apply pre post b) g =
        (.error (.layoutMismatch expected.name found.name), g) := by
  refine ⟨?_, ?_, ?_, ?_⟩
  · intro src dst o htranspose htransform hne
    have ho := htranspose.isOrder
    have hpermute := Layout.permute_eq_ok (AxisOrder.isOrder_inverse ho)
    have hturns := (Layout.Turns.permute htransform.named.1 (AxisOrder.isOrder_inverse ho)
      hpermute).symm_inverse ho
    refine ⟨_, hturns.srcRank, fun i k hk ↦ (hturns.getElem? ho hk).symm, ?_⟩
    exact replaced_of_fuse hpost hinner hdata hpre htype (.inr htransform.isCallTo)
      (.inl htranspose.isCallTo) (fuse_transpose_transform htranspose htransform hne)
      hturns.srcNamed htransform.named.2 fun hA hm ↦
        means_transpose_transform hA hpost hinner htranspose htransform hturns hm
  · intro src dst o htransform htranspose hne
    have ho := htranspose.isOrder
    have hturns := Layout.Turns.permute htransform.named.2 ho (Layout.permute_eq_ok ho)
    refine ⟨_, hturns.dstRank, fun i k hk ↦ hturns.getElem? ho hk, ?_⟩
    exact replaced_of_fuse hpost hinner hdata hpre htype (.inl htranspose.isCallTo)
      (.inr htransform.isCallTo) (fuse_transform_transpose htransform htranspose hne)
      htransform.named.1 hturns.dstNamed fun hA hm ↦
        means_transform_transpose hA hpost hinner htransform htranspose hturns hm
  · intro src mid dst htransform htransform' hne
    exact replaced_of_fuse hpost hinner hdata hpre htype (.inr htransform'.isCallTo)
      (.inr htransform.isCallTo) (fuse_transform_transform htransform htransform' hne)
      htransform.named.1 htransform'.named.2 fun hA hm ↦
        means_transform_transform hA hpost hinner htransform htransform' hm
  · intro src found expected dst htransform htransform' hne
    rw [exec_apply_fuse hpost hinner (.inr htransform.isCallTo) hpre,
      fuse_mismatch htransform htransform' hne]

section ChannelsLast

def floats (shape : List Word) : TensorType := .ofStatic shape ⟨.float, 32, 1⟩

def channelsLast : Graph where
  nodes := #[.var "x" (floats [1, 2, 3, 8]),
    .transpose 0 (some [0, -1, 1, 2]) (floats [1, 8, 2, 3]),
    .layoutTransform 1 "NCHW" "NCHW4c" (floats [1, 2, 2, 3, 4])]

def counted : Tensor Nat := .ofFn ⟨.float, 32, 1⟩ [1, 2, 3, 8] (Extents.offset [1, 2, 3, 8])

def countedPacked : Semantics (Tensor Nat) :=
  (Relayout.packing Nat).semantics (fun _ ↦ 0) fun _ _ ↦ some counted

theorem length_change_keeps_labels_channelsLast :
    let g := channelsLast
    let src : Layout := ⟨"NCHW", [batch, channels, height, width]⟩
    let dst : Layout := ⟨"NCHW4c", [batch, channels, height, width, block 4]⟩
    let τ := floats [1, 2, 2, 3, 4]
    let node := Node.layoutTransform 0 "NHWC" "NCHW4c" τ
    let m := (counted.permute [0, 3, 1, 2]).pack src dst
    g.args 2 = [1] ∧ g.args 1 = [0] ∧ 0 < g.size ∧ g.type? 2 = some τ ∧
      g.TransposesBy 1 src.rank [0, 3, 1, 2] ∧ g.TransformsBy 2 src dst ∧
      src.name.length ≠ dst.name.length ∧
      exec (Rule.transpose.apply 2 2 {}) g = (.ok 3, g.push node) ∧
      Means countedPacked g 2 m ∧ Means countedPacked (g.push node) 3 m := by
  intro g src dst τ node m
  have hinterprets := (Relayout.packing Nat).interprets_semantics (fun _ ↦ 0) fun _ _ ↦ some counted
  have hnames : AxisOrder.Names 4 [0, -1, 1, 2] [0, 3, 1, 2] := by
    refine .listed (by decide) (show List.Perm _ _ by decide) ?_
    exact .cons (.inl rfl) (.cons (.inr rfl) (.cons (.inl rfl) (.cons (.inl rfl) .nil)))
  have htranspose : g.TransposesBy 1 src.rank [0, 3, 1, 2] :=
    ⟨_, _, _, rfl, (axes_ofList _).symm ▸ hnames⟩
  have htransform : g.TransformsBy 2 src dst := ⟨rfl, by decide +kernel⟩
  have hexec : exec (Rule.transpose.apply 2 2 {}) g = (.ok 3, g.push node) := by decide +kernel
  have hx : Means countedPacked g 0 counted := (means_of_node? rfl).2 ⟨[], .nil, rfl⟩
  have hmoved : Means countedPacked g 1 (counted.permute [0, 3, 1, 2]) := by
    refine (means_unary rfl).2 ⟨counted, hx, (hinterprets.transpose rfl).2 ⟨by decide, _, ?_, rfl⟩⟩
    decide +kernel
  have hm : Means countedPacked g 2 m := by
    refine (means_unary rfl).2 ⟨_, hmoved, (hinterprets.layouts rfl).2 ⟨?_, src, dst, ?_, ?_⟩⟩
    · decide +kernel
    · decide +kernel
    · exact if_pos (by decide +kernel)
  have htype : g.type? 2 = some τ := rfl
  obtain ⟨_, -, -, e, g', hexec', hreplaced⟩ := (length_change_keeps_labels (b := {}) rfl rfl
    (by decide) htype htype).1 src dst _ htranspose htransform (by decide)
  cases hexec.symm.trans hexec'
  exact ⟨rfl, rfl, by decide, rfl, htranspose, htransform, by decide, hexec, hm,
    hreplaced.means _ _ _ hinterprets m hm⟩

end ChannelsLast

end Rule.Transpose

end TensorOpt
