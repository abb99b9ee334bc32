import TensorOpt.Proofs.Rule.Frame
import TensorOpt.Proofs.Rule.Labels
import TensorOpt.Proofs.Simplify.Untouched

namespace TensorOpt

open AxisOrder (gather IsOrder)

variable {g g' : Graph} {a b e e' x : NodeId} {rank rounds : Nat} {o : AxisOrder}
  {orders : List AxisOrder} {attrs : Attrs} {type? : Option TensorType} {name : String}
  {σ τ : TensorType}

namespace AxisOrder

/-- The axis of the innermost argument that axis `i` of the result is, the outermost order being the
first. -/
def through (orders : List AxisOrder) (i : Nat) : Nat := orders.foldl (fun i o ↦ o.getD i 0) i

def composite (rank : Nat) (orders : List AxisOrder) : AxisOrder :=
  (List.range rank).map (through orders)

theorem composite_nil (rank : Nat) : composite rank [] = identity rank := List.map_id _

theorem composite_cons (ho : IsOrder rank o) (orders : List AxisOrder) :
    composite rank (o :: orders) = gather o (composite rank orders) := by
  have hlength : (composite rank orders).length = rank := by simp [composite]
  refine List.ext_getElem? fun i ↦ ?_
  rw [getElem?_gather fun k hk ↦ Nat.lt_of_lt_of_eq (ho.lt hk) hlength.symm]
  by_cases hi : i < rank
  · have hi' : i < o.length := ho.length.symm ▸ hi
    have hlt : o[i] < rank := ho.lt (List.getElem_mem hi')
    simp [composite, through, hi, hi', hlt, List.getD_eq_getElem?_getD]
  · simp [composite, hi, ho.length]

end AxisOrder

open AxisOrder (composite)

namespace Graph

inductive Transposes (g : Graph) (rank : Nat) (x : NodeId) : List AxisOrder → NodeId → Prop
  | var {name : String} {σ : TensorType} (hx : g.node? x = some (.var name σ)) :
    Transposes g rank x [] x
  | call {orders : List AxisOrder} {o : AxisOrder} {a e : NodeId} {attrs : Attrs} {τ : TensorType}
    (ha : Transposes g rank x orders a)
    (hn : g.node? e = some ⟨.call Op.transpose [a] attrs, some τ⟩) (hrank : τ.rank = rank)
    (ho : AxisOrder.Names rank attrs.axes o) : Transposes g rank x (o :: orders) e

namespace Transposes

theorem var_node? (h : g.Transposes rank x orders e) :
    ∃ name σ, g.node? x = some (.var name σ) := by
  induction h with
  | @var name σ hx => exact ⟨name, σ, hx⟩
  | call _ _ _ _ ih => exact ih

theorem node? (h : g.Transposes rank x orders e) :
    ∃ n, g.node? e = some n ∧ n.type?.isSome := by
  cases h with
  | var hx => exact ⟨_, hx, rfl⟩
  | call _ hn _ _ => exact ⟨_, hn, rfl⟩

theorem rank_type? (h : g.Transposes rank x orders e) (hne : orders ≠ []) :
    ∃ τ, g.type? e = some τ ∧ τ.rank = rank := by
  cases h with
  | var => exact absurd rfl hne
  | call _ hn hrank _ => exact ⟨_, type?_of_node? hn, hrank⟩

theorem unique {orders' : List AxisOrder} (h : g.Transposes rank x orders e)
    (h' : g.Transposes rank x orders' e) : orders = orders' := by
  induction h generalizing orders' with
  | var hx =>
    cases h' with
    | var => rfl
    | call _ hn _ _ => cases hx.symm.trans hn
  | call _ hn _ ho ih =>
    cases h' with
    | var hx => cases hx.symm.trans hn
    | call ha' hn' _ ho' =>
      cases hn.symm.trans hn'
      cases (AxisOrder.ofAxes_of_names ho).symm.trans (AxisOrder.ofAxes_of_names ho')
      rw [ih ha']

/-- An argument is a shorter row. -/
theorem arg {n : Nat} (h : ∃ orders, orders.length = n ∧ g.Transposes rank x orders e)
    (ha : g.HasArg e a) : ∃ m < n, ∃ orders, orders.length = m ∧ g.Transposes rank x orders a := by
  obtain ⟨_, rfl, h⟩ := h
  cases h with
  | var hx => cases (hasArg_iff hx).1 ha
  | call ha' hn _ _ =>
    cases List.mem_singleton.1 ((hasArg_iff hn).1 ha)
    exact ⟨_, Nat.lt_succ_self _, _, rfl, ha'⟩

theorem reaches (h : g.Transposes rank x orders e) (ha : g.Reaches e a) :
    ∃ orders', g.Transposes rank x orders' a := by
  obtain ⟨_, orders', -, h'⟩ := exists_of_reaches arg ⟨orders, rfl, h⟩ ha
  exact ⟨orders', h'⟩

theorem checked (h : g.Transposes rank x orders e) : g.Checked e :=
  .of_descent (fun ⟨_, _, h⟩ ↦ h.node?) arg ⟨orders, rfl, h⟩

end Transposes

end Graph

section Match

theorem match?_reshape_eq_none (he : g.IsCallTo e Op.transpose) :
    Rule.reshape.pattern.match? g e = none := by
  refine Option.eq_none_iff_forall_ne_some.2 fun b hmatch ↦ ?_
  obtain ⟨_, _, op, _, _, _, _, _, hn, -, hop, -⟩ := Pattern.match?_call_call hmatch
  have hop : Op.reshape = op ∨ Op.reverseReshape = op := by
    simpa [Pattern.matchesOp, Pattern.anyMatchesOp] using hop
  have hcallee : g.callee? e = some op := Graph.callee?_of_node? hn
  cases Option.some.inj (he.symm.trans hcallee)
  exact absurd hop (by decide)

theorem firstMatch?_transpose_transpose {attrs' : Attrs} {type?' : Option TensorType}
    (hn : g.node? e = some ⟨.call Op.transpose [a] attrs, type?⟩)
    (ha : g.node? a = some ⟨.call Op.transpose [b] attrs', type?'⟩) :
    ∃ bound, g.firstMatch? (RuleSet.standard rounds).rules e = some (.transpose, bound) := by
  have hmatches : Rule.transpose.pattern.Matches g e :=
    Rule.Transpose.matches_pair (.inl (Graph.isCallTo_transpose hn)) (Graph.args_of_node? hn)
      (.inl (Graph.isCallTo_transpose ha)) (Graph.args_of_node? ha)
  obtain ⟨log, hlog⟩ := Option.isSome_iff_exists.1 (Pattern.isSome_trace?_iff.2 hmatches)
  have hreshape := match?_reshape_eq_none (Graph.isCallTo_transpose hn)
  refine ⟨⟨log⟩, ?_⟩
  rw [Graph.firstMatch?, RuleSet.standard, List.findSome?_cons, hreshape, Option.map_none,
    List.findSome?_cons, Pattern.match?_eq, hlog]
  rfl

end Match

namespace Rule.Transpose

theorem fuse_transposes {o₁ o₂ : AxisOrder} (houter : g.IsCallTo e Op.transpose)
    (hinner : g.IsCallTo a Op.transpose) (ho₂ : g.axisOrder e rank = .ok o₂)
    (ho₁ : g.axisOrder a rank = .ok o₁) : fuse g e a rank = .ok (.axes (gather o₂ o₁)) := by
  have horder₁ : IsOrder rank o₁ := hinner.isOrder ho₁
  have horder₂ : IsOrder rank o₂ := houter.isOrder ho₂
  have hlength (k : Nat) (hk : k < rank) : k < (AxisOrder.identity rank).length := by
    rwa [(AxisOrder.isOrder_identity rank).length]
  have hcompose : composeOrders g e a rank = .ok (gather o₂ o₁) := by
    rw [composeOrders, ho₁, ho₂]
    simp only [bind, Except.bind]
    rw [AxisOrder.compose_eq_ok fun k hk ↦ hlength k (horder₁.lt hk),
      AxisOrder.gather_identity fun k hk ↦ horder₁.lt hk]
    exact AxisOrder.compose_eq_ok fun k hk ↦ horder₁.length.symm ▸ horder₂.lt hk
  have habsorb : absorb? g e a = .ok none := by
    rw [absorb?, lengthChange?_transpose houter]
    simp only [bind, Except.bind]
    rw [lengthChange?_transpose hinner]
    rfl
  rw [fuse, if_neg fun h ↦ houter.not_layoutTransform h.1, habsorb]
  simp only [bind, Except.bind]
  rw [hcompose]
  rfl

end Rule.Transpose

inductive Graph.Collapsed (g : Graph) (rank : Nat) (x : NodeId) (orders : List AxisOrder)
    (type? : Option TensorType) : NodeId → Prop
  | gone {e : NodeId} (he : e = x) (h : composite rank orders = .identity rank) :
    Collapsed g rank x orders type? e
  | one {e : NodeId} {attrs : Attrs} (hne : orders ≠ [])
    (hn : g.node? e = some ⟨.call Op.transpose [x] attrs, type?⟩)
    (ho : AxisOrder.Names rank attrs.axes (composite rank orders)) :
    Collapsed g rank x orders type? e

namespace Graph.Collapsed

theorem grow (h : g.Collapsed rank x orders type? e) (hg : g.Grows g') :
    g'.Collapsed rank x orders type? e := by
  cases h with
  | gone he h => exact .gone he h
  | one hne hn ho => exact .one hne (hg.node? hn) ho

/-- One more transpose of the variable itself stays. -/
theorem cons_gone (h : composite rank orders = .identity rank)
    (hn : g.node? e = some ⟨.call Op.transpose [x] attrs, type?⟩)
    (ho : AxisOrder.Names rank attrs.axes o) : g.Collapsed rank x (o :: orders) type? e := by
  refine .one (List.cons_ne_nil _ _) hn ?_
  rwa [AxisOrder.composite_cons ho.isOrder, h,
    AxisOrder.gather_identity fun k hk ↦ ho.isOrder.lt hk]

end Graph.Collapsed

/-- Placing the composite order on the variable leaves a row of at most one transpose, and nothing
to do. -/
theorem exec_place_composite (hx : g.node? x = some (.var name σ)) (hne : orders ≠ [])
    (hbound : rank ≤ 2 ^ 63) (ho : IsOrder rank (composite rank orders)) :
    ∃ e g', exec (Rule.Transpose.place x τ (.axes (composite rank orders))) g = (.ok e, g') ∧
      g.Grows g' ∧ g'.Collapsed rank x orders (some τ) e ∧
        g'.firstMatch? (RuleSet.standard rounds).rules e = none := by
  rw [Rule.Transpose.place, ho.length]
  split
  next hidentity => exact ⟨x, g, rfl, .refl g, .gone rfl hidentity, firstMatch?_var hx⟩
  next =>
    let n := Node.transpose x (some ((composite rank orders).map Int64.ofNat)) τ
    have hgrows : g.Grows (g.push n) := .push g n
    have hn : (g.push n).node? g.size = some n := Graph.node?_push_size g n
    refine ⟨g.size, g.push n, rfl, hgrows, .one hne hn ?_, ?_⟩
    · rw [axes_ofList]
      exact AxisOrder.names_ofNat ho hbound
    · exact firstMatch?_call_var (hgrows.node? hx) hn

/-- The rule makes one transpose of two, and leaves a transpose of the variable as it is. -/
theorem exec_apply_collapsed {post : NodeId} (hx : g.node? x = some (.var name σ))
    (htype : g.type? e = some τ) (hrank : τ.rank = rank) (hbound : rank ≤ 2 ^ 63)
    (hpost : g.node? post = some ⟨.call Op.transpose [a] attrs, some τ⟩)
    (ho : AxisOrder.Names rank attrs.axes o) (ha : g.Collapsed rank x orders type? a)
    (bound : Bindings) :
    ∃ e' g', exec (Rule.transpose.apply e post bound) g = (.ok e', g') ∧ g.Grows g' ∧
      g'.Collapsed rank x (o :: orders) (some τ) e' ∧
        (e' = post ∨ g'.firstMatch? (RuleSet.standard rounds).rules e' = none) := by
  have hargs : g.args post = [a] := Graph.args_of_node? hpost
  cases ha with
  | gone he h =>
    subst he
    have hcallee : g.callee? a = none := Graph.callee?_of_node? hx
    have hpermuting : ¬g.IsAxisPermuting a := by
      rw [Graph.IsAxisPermuting, Graph.IsCallTo, Graph.IsCallTo, hcallee]
      simp
    exact ⟨post, g, Rule.Transpose.exec_apply_declines hargs hpermuting, .refl g,
      .cons_gone h hpost ho, .inl rfl⟩
  | one hne hn ho' =>
    have hcall := Graph.isCallTo_transpose hn
    have horder : IsOrder rank (composite rank (o :: orders)) := by
      rw [AxisOrder.composite_cons ho.isOrder]
      exact AxisOrder.isOrder_gather ho'.isOrder ho.isOrder
    obtain ⟨e', g', hplace, hgrows, he', hnone⟩ :=
      exec_place_composite (τ := τ) hx (List.cons_ne_nil o orders) hbound horder
    refine ⟨e', g', ?_, hgrows, he', .inr hnone⟩
    rw [Rule.Transpose.exec_apply_fuse hargs (Graph.args_of_node? hn) (.inl hcall) htype, hrank,
      Rule.Transpose.fuse_transposes (Graph.isCallTo_transpose hpost) hcall
        (Graph.axisOrder_of_names hpost ho) (Graph.axisOrder_of_names hn ho'),
      ← AxisOrder.composite_cons ho.isOrder]
    exact hplace

theorem leave_transpose {done : Replacements} {p : Progress} (hg : g.Grows p.graph)
    (ha : g.Transposes rank x orders a)
    (hn : g.node? e = some ⟨.call Op.transpose [a] attrs, some τ⟩) (hrank : τ.rank = rank)
    (ho : AxisOrder.Names rank attrs.axes o) (hbound : rank ≤ 2 ^ 63)
    (hdone : p.graph.Collapsed rank x orders (g.type? a) (done.apply a)) :
    ∃ e' p', exec (Run.build (RuleSet.rebuild done e) >>=
      (RuleSet.standard rounds).visit done e) p = (.ok e', p') ∧ p.graph.Grows p'.graph ∧
        p'.graph.Collapsed rank x (o :: orders) (some τ) e' := by
  obtain ⟨name, σ, hx⟩ := ha.var_node?
  cases ha with
  | var =>
    cases hdone with
    | gone he h =>
      exact ⟨e, _, leave_call_var (hg.node? hx) (hg.node? hn) he, .refl _,
        .cons_gone h (hg.node? hn) ho⟩
    | one hne _ _ => exact absurd rfl hne
  | call _ hna _ _ =>
    obtain ⟨post, g₁, hrebuild, -⟩ := RuleSet.exec_rebuild done e p.graph
    obtain ⟨hgrows, hpost⟩ := RuleSet.rebuild_node? (hg.node? hn) hrebuild
    have hg₁ : g.Grows g₁ := hg.trans hgrows
    -- the rules look at the transposes as they were, and change what has taken their place
    obtain ⟨bound, hfirst⟩ : ∃ bound, g₁.firstMatch? (RuleSet.standard rounds).rules e =
        some (.transpose, bound) :=
      firstMatch?_transpose_transpose (hg₁.node? hn) (hg₁.node? hna)
    have htype : g₁.type? e = some τ := Graph.type?_of_node? (hg₁.node? hn)
    obtain ⟨e', g', happly, hgrows', he', hsettled⟩ := exec_apply_collapsed (hg₁.node? hx) htype
      hrank hbound hpost ho (hdone.grow hgrows) (bound.map _)
    exact ⟨e', _, RuleSet.exec_leave_settled hrebuild hfirst happly hsettled,
      hgrows.trans hgrows', he'⟩

theorem relates_transposes {root : NodeId} (hroot : g.Transposes rank x orders root)
    (hbound : rank ≤ 2 ^ 63) : (RuleSet.standard rounds).Relates g root fun h e e' ↦
      ∃ orders, g.Transposes rank x orders e ∧ h.Collapsed rank x orders (g.type? e) e' := by
  intro done e p hreach hg hargs
  obtain ⟨orders, he⟩ := hroot.reaches hreach
  cases he with
  | var hx =>
    refine ⟨x, _, leave_var (hg.node? hx), .refl _, [], .var hx, .gone rfl ?_⟩
    exact AxisOrder.composite_nil rank
  | call ha hn hrank ho =>
    obtain ⟨orders', ha', hcollapsed⟩ :=
      hargs _ (.single ((Graph.hasArg_iff hn).2 List.mem_cons_self))
    cases ha.unique ha'
    obtain ⟨e', p', hleave, hgrows, he'⟩ := leave_transpose hg ha hn hrank ho hbound hcollapsed
    exact ⟨e', p', hleave, hgrows, _, .call ha hn hrank ho, Graph.type?_of_node? hn ▸ he'⟩

/-- Transposes in a row of a variable are simplified, whatever the number of rounds, to the variable
or to one transpose of it that has the type of the outermost one. Its order takes axis `i` through
the orders of all of them, the outermost first, and there is none only if this changes nothing. The
rank is one whose axes a 64-bit attribute can name. -/
theorem simplify_collapses_transposes (hchain : g.Transposes rank x orders e)
    (hbound : rank ≤ 2 ^ 63) (rounds : Nat) :
    ∃ r g', exec (simplify rounds e) g = (.ok r, g') ∧ g.Grows g' ∧
      (r = x ∧ composite rank orders = .identity rank ∨
        g'.Transposes rank x [composite rank orders] r ∧
          g'.axisOrder r rank = .ok (composite rank orders) ∧ g'.type? r = g.type? e) := by
  have hchecked := hchain.checked
  have hrelates : (RuleSet.standard rounds).Relates g e _ := relates_transposes hchain hbound
  obtain ⟨r, g', hrun, hgrows, orders', hchain', hcollapsed⟩ := RuleSet.runOn_related hrelates
    (fun hgrows h ↦ h.imp fun _ h ↦ ⟨h.1, h.2.grow hgrows⟩) (leaves_standard frame_grows)
    hchecked.closed hchecked.acyclic
  cases hchain.unique hchain'
  refine ⟨r, g', ?_, hgrows, ?_⟩
  · rw [exec_simplify_of_typed hchecked.typed, hrun]
  · cases hcollapsed with
    | gone hr h => exact .inl ⟨hr, h⟩
    | one hne hn ho =>
      obtain ⟨name, σ, hx⟩ := hchain.var_node?
      obtain ⟨τ, htype, hrank⟩ := hchain.rank_type? hne
      have htype' : g'.type? r = g.type? e := Graph.type?_of_node? hn
      rw [htype] at hn
      exact .inr ⟨.call (.var (hgrows.node? hx)) hn hrank ho, Graph.axisOrder_of_names hn ho,
        htype'⟩

section Rotation

def reversedAndRotated : Graph where
  nodes := #[.var "x" (intTensor [2, 3, 4]), .transpose 0 none (intTensor [4, 3, 2]),
    .transpose 1 none (intTensor [2, 3, 4]), .transpose 2 (some [1, -1, -3]) (intTensor [3, 4, 2])]

theorem transposes_reversedAndRotated :
    reversedAndRotated.Transposes 3 0 [[1, 2, 0], [2, 1, 0], [2, 1, 0]] 3 := by
  have hrotated : AxisOrder.Names 3 [1, -1, -3] [1, 2, 0] := by
    refine .listed (by decide) (show List.Perm _ _ by decide) ?_
    exact .cons (.inl rfl) (.cons (.inr rfl) (.cons (.inr rfl) .nil))
  exact .call (.call (.call (.var rfl) rfl rfl .reversed) rfl rfl .reversed) rfl rfl
    ((axes_ofList _).symm ▸ hrotated)

theorem simplify_collapses_transposes_rotation :
    let g := reversedAndRotated
    let orders : List AxisOrder := [[1, 2, 0], [2, 1, 0], [2, 1, 0]]
    g.Transposes 3 0 orders 3 ∧ composite 3 orders = [1, 2, 0] ∧
      ∃ r g', exec (simplify 0 3) g = (.ok r, g') ∧ g.Grows g' ∧
        (r = 0 ∧ composite 3 orders = .identity 3 ∨ g'.Transposes 3 0 [composite 3 orders] r ∧
          g'.axisOrder r 3 = .ok (composite 3 orders) ∧ g'.type? r = g.type? 3) :=
  ⟨transposes_reversedAndRotated, by decide,
    simplify_collapses_transposes transposes_reversedAndRotated (by decide) 0⟩

end Rotation

end TensorOpt
