import TensorOpt.Proofs.Rule.Failures
import TensorOpt.Proofs.Rule.Frame
import TensorOpt.Proofs.Rule.Ranks
import TensorOpt.Proofs.Simplify

namespace TensorOpt

open AxisOrder (IsOrder)

variable {M : Type*} {A : Semantics M} {S : Layout → Prop} {g₀ g : Graph} {e pre root : NodeId}
  {rounds : Nat}

/-- Simplification is cut off: an order is read beyond its end, or the search has come to a node
that does not exist or that depends on itself. -/
def RuleError.IsAbort : RuleError → Prop
  | .axisBeyondRank _ _ | .missing _ | .cyclic _ => True
  | _ => False

theorem RuleError.OfCall.not_isAbort {err : RuleError} (h : err.OfCall) : ¬err.IsAbort := by
  intro habort
  unfold RuleError.IsAbort at habort
  split at habort
  next => exact h
  next => exact h
  next => exact h
  next => exact habort

section Rules

variable {b : Bindings}

theorem checkedType_failsWith : Except.FailsWith (¬·.IsAbort) (exec (Rule.checkedType e) g).1 := by
  rw [Rule.checkedType, exec_ask]
  exact .mapError fun _ ↦ id

theorem failsWith_reshape : Rule.reshape.FailsWith A g₀ (¬·.IsAbort) := by
  intro g pre post m b f _ _ _ _
  show Except.FailsWith _ (exec (Rule.Reshape.apply pre post (b.map f)) g).1
  rw [Rule.Reshape.apply]
  split
  next => exact .ok post
  next x _ =>
    refine .exec_bind checkedType_failsWith fun τ g' _ ↦ ?_
    split
    next => exact .ok post
    next => exact .ok _

theorem value?_failsWith {dtype : DType} :
    Except.FailsWith (¬·.IsAbort) (exec (Rule.Fill.value? b dtype) g).1 := by
  rw [Rule.Fill.value?]
  split
  next =>
    split
    next => exact .ok none
    next v _ =>
      rw [exec_bind, exec_get]
      simp only
      split
      next => exact .ok _
      next => exact .error id
  next =>
    split
    next => exact .exec_bind (.ok _) fun _ _ _ ↦ .ok _
    next =>
      split
      next => exact .exec_bind (.ok _) fun _ _ _ ↦ .ok _
      next => exact .ok none

theorem failsWith_fill : Rule.fill.FailsWith A g₀ (¬·.IsAbort) := by
  intro g pre post m b f _ _ _ _
  show Except.FailsWith _ (exec (Rule.Fill.apply pre post (b.map f)) g).1
  rw [Rule.Fill.apply]
  split
  next => exact .ok post
  next x _ =>
    refine .exec_bind checkedType_failsWith fun τ g₁ _ ↦ ?_
    rw [exec_bind, exec_get]
    simp only
    split
    next =>
      refine .exec_bind checkedType_failsWith fun τ' g₂ _ ↦ ?_
      split
      next => exact .ok post
      next =>
        refine .exec_bind value?_failsWith fun v? g₃ _ ↦ ?_
        split
        next => exact .ok post
        next => exact .ok _
    next => exact .ok post

/-- The orders of two calls that are looked up at the rank of the result fit each other. -/
theorem failsWith_transpose (hS : Layout.Legible S) :
    Rule.transpose.FailsWith (rankSemantics S) g₀ (¬·.IsAbort) := by
  intro g pre post r b f _ hmatch hpre hf
  obtain ⟨τ, htype, rfl⟩ := rank_of_means hpre
  obtain ⟨inner, r₁, hargs, hinner, houter⟩ :=
    ranks_of_means (hf.means_post hpre) (isAxisPermuting_of_match? hmatch hf)
  refine Rule.Transpose.apply_failsWith (fun _ ↦ id) fun inner' τ' hpair ↦ ?_
  obtain rfl : inner = inner' := by simpa [hargs] using hpair.arg
  cases htype.symm.trans hpair.type
  obtain ⟨data, r₀, -, -, hinner'⟩ := ranks_of_means hinner hpair.permutes
  refine Rule.Transpose.fuse_failsWith (fun _ ↦ RuleError.OfCall.not_isAbort) fun hkeeps ↦ ?_
  exact (Rule.Transpose.composeOrders_failsWith hS hinner' houter hkeeps).mono fun _ ↦
    RuleError.OfCall.not_isAbort

end Rules

/-- Simplification keeps the ranks, and is not cut off. -/
theorem simplify_failsWith (hS : Layout.Legible S) {r : Nat} (hchecked : g.Checked root)
    (hroot : Means (rankSemantics S) g root r) :
    Except.FailsWith (¬·.IsAbort) (exec (simplify rounds root) g).1 := by
  have hpreserves : ∀ rule ∈ (RuleSet.standard rounds).rules,
      rule.Preserves (rankSemantics S) g := RuleSet.forall_standard.2
    ⟨preserves_ranks_reshape, preserves_ranks_transpose hS, preserves_ranks_fill⟩
  have hfails : ∀ rule ∈ (RuleSet.standard rounds).rules,
      rule.FailsWith (rankSemantics S) g (¬·.IsAbort) :=
    RuleSet.forall_standard.2 ⟨failsWith_reshape, failsWith_transpose hS, failsWith_fill⟩
  rw [exec_simplify_of_typed hchecked.typed]
  exact RuleSet.runOn_failsWith hpreserves hfails (leaves_standard frame_grows) hchecked.closed
    hchecked.acyclic hroot

def Layout.lengths (l : Layout) : List Nat := [l.name.length, (Layout.ofAxes l.axes).name.length]

theorem Layout.length_ofAxes_perm {axes axes' : List Axis} (h : axes.Perm axes') :
    (Layout.ofAxes axes).name.length = (Layout.ofAxes axes').name.length := by
  simp only [Layout.ofAxes, String.length_join]
  exact ((h.map Axis.render).map String.length).sum_nat

theorem Layout.lengths_permute {l l' : Layout} {o : AxisOrder} (ho : IsOrder l.rank o)
    (h : l.permute o = .ok l') : l'.lengths ⊆ l.lengths := by
  have hlength : l'.name.length = (Layout.ofAxes l.axes).name.length := by
    rw [Layout.axes_of_permute h]
    exact Layout.length_ofAxes_perm (AxisOrder.gather_perm rfl ho)
  have hlength' : (Layout.ofAxes l'.axes).name.length = (Layout.ofAxes l.axes).name.length := by
    rw [Layout.axes_of_permute h]
    exact Layout.length_ofAxes_perm (AxisOrder.gather_perm rfl ho)
  simp [lengths, hlength, hlength']

namespace Graph

def rank? (g : Graph) (e : NodeId) : Option Nat := (g.type? e).map TensorType.rank

structure RankConsistent (g : Graph) (root : NodeId) : Prop where
  transpose : ∀ e, g.Reaches root e → g.IsCallTo e Op.transpose →
    ∃ a, g.args e = [a] ∧ g.rank? a = g.rank? e
  layoutTransform : ∀ e, g.Reaches root e → g.IsCallTo e Op.layoutTransform →
    ∃ a src dst, g.args e = [a] ∧ g.layouts e = .ok (src, dst) ∧ g.rank? a = some src.rank ∧
      g.rank? e = some dst.rank

def Mentions (g : Graph) (root : NodeId) (l : Layout) : Prop :=
  ∃ e src dst, g.Reaches root e ∧ g.IsCallTo e Op.layoutTransform ∧
    g.layouts e = .ok (src, dst) ∧ (l = src ∨ l = dst)

/-- Layouts of the expression that have a length in common have the same number of axes. -/
def LengthsTellRanks (g : Graph) (root : NodeId) : Prop :=
  ∀ l l', g.Mentions root l → g.Mentions root l' → ∀ k ∈ l.lengths, k ∈ l'.lengths →
    l.rank = l'.rank

structure Writes (g : Graph) (root : NodeId) (l : Layout) : Prop where
  named : l.Named
  origin : ∃ l₀, g.Mentions root l₀ ∧ l.rank = l₀.rank ∧ l.lengths ⊆ l₀.lengths

theorem Mentions.writes {l : Layout} (h : g.Mentions root l) : g.Writes root l := by
  refine ⟨?_, l, h, rfl, List.Subset.refl _⟩
  obtain ⟨e, src, dst, -, -, hlayouts, rfl | rfl⟩ := h
  · exact named_of_layoutAttr (layouts_eq_ok.1 hlayouts).1
  · exact named_of_layoutAttr (layouts_eq_ok.1 hlayouts).2

theorem legible_writes (h : g.LengthsTellRanks root) : Layout.Legible (g.Writes root) where
  named hl := hl.named
  rank := by
    rintro l l' ⟨-, l₀, hl₀, hrank, hsub⟩ ⟨-, l₀', hl₀', hrank', hsub'⟩ hlength
    rw [hrank, hrank']
    refine h l₀ l₀' hl₀ hl₀' l.name.length (hsub List.mem_cons_self) ?_
    rw [hlength]
    exact hsub' List.mem_cons_self
  permute := by
    rintro l l' o ⟨hnamed, l₀, hl₀, hrank, hsub⟩ ho hpermute
    have hturns := Layout.Turns.permute hnamed ho hpermute
    exact ⟨hturns.dstNamed, l₀, hl₀, hturns.dstRank.trans hrank,
      List.Subset.trans (Layout.lengths_permute ho hpermute) hsub⟩

end Graph

theorem rank?_of_means {r : Nat} (he : Means (rankSemantics S) g e r) : g.rank? e = some r := by
  obtain ⟨τ, htype, rfl⟩ := rank_of_means he
  rw [Graph.rank?, htype]
  rfl

theorem exists_means_rank (hchecked : g.Checked root) (hranks : g.RankConsistent root)
    (hS : ∀ l, g.Mentions root l → S l) : ∃ r, Means (rankSemantics S) g root r := by
  refine hchecked.acyclic.induction (P := fun e ↦ ∃ r, Means (rankSemantics S) g e r)
    hchecked.closed (fun e he ih ↦ ?_) .refl
  obtain ⟨n, hn⟩ := Graph.node?_of_lt (hchecked.closed e he)
  obtain ⟨τ, hτ⟩ := Option.isSome_iff_exists.1 (hchecked.typed e n he hn)
  rw [Graph.args_of_node? hn] at ih
  obtain ⟨ranks, hargs⟩ := exists_forall₂_means ih
  have hrank : g.rank? e = some τ.rank := by
    rw [Graph.rank?, Graph.type?_of_node? hn, hτ]
    rfl
  have hsingle {a : NodeId} {r : Nat} (ha : g.args e = [a]) (hr : g.rank? a = some r) :
      ranks = [r] := by
    rw [Graph.args_of_node? hn] at ha
    rw [ha] at hargs
    obtain ⟨r', rest, hmeans, hrest, rfl⟩ := List.forall₂_cons_left_iff.1 hargs
    cases hrest
    cases (rank?_of_means hmeans).symm.trans hr
    rfl
  refine ⟨τ.rank, (means_of_node? hn).2 ⟨ranks, hargs, rankSemantics_eq_some.2 ⟨?_, ?_, ?_⟩⟩⟩
  · rw [Node.type?_head, hτ]
    rfl
  · intro hcall
    obtain ⟨a, ha, hrank'⟩ := hranks.transpose e he ((Graph.isCallTo_iff hn).2 hcall)
    exact hsingle ha (hrank'.trans hrank)
  · intro hcall
    have hcall' := (Graph.isCallTo_iff hn).2 hcall
    obtain ⟨a, src, dst, ha, hlayouts, hsrc, hdst⟩ := hranks.layoutTransform e he hcall'
    refine ⟨src, dst, ?_, ?_, ?_, hsingle ha hsrc, Option.some.inj (hrank.symm.trans hdst)⟩
    · rwa [← (Graph.sameCall_alone hn).layouts]
    · exact hS src ⟨e, src, dst, he, hcall', hlayouts, .inl rfl⟩
    · exact hS dst ⟨e, src, dst, he, hcall', hlayouts, .inr rfl⟩

/-- Simplifying a typed expression without cycles gives a node or refuses the expression, but is not
cut off, if the ranks are consistent and the lengths of the layouts tell their ranks. The order of a
transpose, which is inverted when the transpose is absorbed, is a permutation. -/
theorem simplify_never_aborts (hchecked : g.Checked root) (hranks : g.RankConsistent root)
    (hlengths : g.LengthsTellRanks root) :
    (∀ rounds err g', exec (simplify rounds root) g = (.error err, g') → ¬err.IsAbort) ∧
      ∀ (h : Graph) (call : NodeId) (rank : Nat) (o : AxisOrder), h.IsCallTo call Op.transpose →
        h.axisOrder call rank = .ok o → IsOrder rank o := by
  refine ⟨fun rounds err g' hrun ↦ ?_, fun h call rank o hcall ho ↦ hcall.isOrder ho⟩
  obtain ⟨r, hroot⟩ := exists_means_rank hchecked hranks fun l hl ↦ hl.writes
  exact simplify_failsWith (Graph.legible_writes hlengths) hchecked hroot err
    (congrArg Prod.fst hrun)

section Blocks

open Rule.Transpose (batch channels height width block)

def channelsFirst : Layout := ⟨"NCHW", [batch, channels, height, width]⟩

def channelsLast : Layout := ⟨"NHWC", [batch, height, width, channels]⟩

def channelBlocks : Layout := ⟨"NCHW4c", [batch, channels, height, width, block 4]⟩

def blockedChannels : Graph where
  nodes := #[.var "x" (intTensor [4, 8, 2, 3]),
    .layoutTransform 0 "NCHW" "NHWC" (intTensor [4, 2, 3, 8]),
    .transpose 1 (some [0, 3, 1, 2]) (intTensor [4, 8, 2, 3]),
    .layoutTransform 2 "NCHW" "NCHW4c" (intTensor [4, 2, 2, 3, 4])]

theorem simplify_never_aborts_blockedChannels :
    let g := blockedChannels
    g.Checked 3 ∧ g.RankConsistent 3 ∧ g.LengthsTellRanks 3 ∧
      ∀ rounds err g', exec (simplify rounds 3) g = (.error err, g') → ¬err.IsAbort := by
  intro g
  have hascending : g.Ascending := by decide
  have hchecked : g.Checked 3 := hascending.checked (by decide) (by decide)
  have hlt (e : NodeId) (he : g.Reaches 3 e) : e < 4 := hchecked.closed e he
  have hlayouts₁ : g.layouts 1 = .ok (channelsFirst, channelsLast) := by decide +kernel
  have hlayouts₃ : g.layouts 3 = .ok (channelsFirst, channelBlocks) := by decide +kernel
  have hranks : g.RankConsistent 3 := by
    refine ⟨fun e he hcall ↦ ?_, fun e he hcall ↦ ?_⟩
    · match e, hlt e he with
      | 0, _ | 1, _ | 3, _ => exact absurd hcall (by decide)
      | 2, _ => exact ⟨1, rfl, rfl⟩
    · match e, hlt e he with
      | 0, _ | 2, _ => exact absurd hcall (by decide)
      | 1, _ => exact ⟨0, _, _, rfl, hlayouts₁, rfl, rfl⟩
      | 3, _ => exact ⟨2, _, _, rfl, hlayouts₃, rfl, rfl⟩
  have hmentions (l : Layout) (hl : g.Mentions 3 l) :
      l ∈ [channelsFirst, channelsLast, channelBlocks] := by
    obtain ⟨e, src, dst, he, hcall, hlayouts, hl⟩ := hl
    match e, hlt e he with
    | 0, _ | 2, _ => exact absurd hcall (by decide)
    | 1, _ =>
      cases hlayouts₁.symm.trans hlayouts
      rcases hl with rfl | rfl <;> simp
    | 3, _ =>
      cases hlayouts₃.symm.trans hlayouts
      rcases hl with rfl | rfl <;> simp
  have htells : ∀ l ∈ [channelsFirst, channelsLast, channelBlocks],
      ∀ l' ∈ [channelsFirst, channelsLast, channelBlocks],
        ∀ k ∈ l.lengths, k ∈ l'.lengths → l.rank = l'.rank := by decide +kernel
  have hlengths : g.LengthsTellRanks 3 := fun l l' hl hl' ↦
    htells l (hmentions l hl) l' (hmentions l' hl')
  exact ⟨hchecked, hranks, hlengths, (simplify_never_aborts hchecked hranks hlengths).1⟩

def droppedAxes : Graph where
  nodes := #[.var "x" (intTensor [2, 32, 1, 1, 4]),
    .layoutTransform 0 "NCHW4c" "NC128c" (intTensor [2, 1, 128]),
    .transpose 1 (some [1, 0, 2]) (intTensor [1, 2, 128])]

open RuleSet in
/-- Layouts of the same length that differ in the number of their axes count as if they did not, so
that the order between them is composed with one of another rank. -/
theorem simplify_aborts_droppedAxes :
    let g := droppedAxes
    g.Checked 2 ∧ g.RankConsistent 2 ∧
      exec (simplify 32 2) g = (.error (.axisBeyondRank 4 3), g) := by
  intro g
  have hascending : g.Ascending := by decide
  have hchecked : g.Checked 2 := hascending.checked (by decide) (by decide)
  have hlt (e : NodeId) (he : g.Reaches 2 e) : e < 3 := hchecked.closed e he
  refine ⟨hchecked, ⟨fun e he hcall ↦ ?_, fun e he hcall ↦ ?_⟩, ?_⟩
  · match e, hlt e he with
    | 0, _ | 1, _ => exact absurd hcall (by decide)
    | 2, _ => exact ⟨1, rfl, rfl⟩
  · match e, hlt e he with
    | 0, _ | 2, _ => exact absurd hcall (by decide)
    | 1, _ =>
      have hlayouts : g.layouts 1 =
          .ok (channelBlocks, ⟨"NC128c", [batch, channels, block 128]⟩) := by decide +kernel
      exact ⟨0, _, _, rfl, hlayouts, rfl, rfl⟩
  · rw [exec_simplify_of_typed hchecked.typed, exec_runOn]
    iterate 3
      refine (congrArg _
        (exec_walk_enter (by decide +kernel) (by decide +kernel) (by decide +kernel) rfl)).trans ?_
    refine (congrArg _ (exec_walk_leave 0 0 (by decide +kernel) (by decide +kernel))).trans ?_
    refine (congrArg _ (exec_walk_leave 1 1 (by decide +kernel) (by decide +kernel))).trans ?_
    refine (congrArg _ (exec_walk_fail 2 (.axisBeyondRank 4 3) (by decide +kernel)
      (by decide +kernel))).trans ?_
    decide +kernel

end Blocks

end TensorOpt
