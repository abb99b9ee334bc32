import TensorOpt.Proofs.Rule.Frame
import TensorOpt.Proofs.Simplify.Untouched

namespace TensorOpt

variable {g g' : Graph} {a b e x y : NodeId} {n rounds : Nat} {type? type?' : Option TensorType}
  {σ τ : TensorType} {shape : List Word} {name : String}

namespace Graph

def IsReshapeOf (g : Graph) (a : NodeId) (type? : Option TensorType) (e : NodeId) : Prop :=
  ∃ op attrs, (op = Op.reshape ∨ op = Op.reverseReshape) ∧
    g.node? e = some ⟨.call op [a] attrs, type?⟩

namespace IsReshapeOf

theorem grow (h : g.IsReshapeOf a type? e) (hg : g.Grows g') : g'.IsReshapeOf a type? e := by
  obtain ⟨op, attrs, hop, hn⟩ := h
  exact ⟨op, attrs, hop, hg.node? hn⟩

theorem type?_eq (h : g.IsReshapeOf a type? e) : g.type? e = type? := by
  obtain ⟨_, _, -, hn⟩ := h
  exact type?_of_node? hn

theorem hasArg (h : g.IsReshapeOf a type? e) : g.HasArg e a := by
  obtain ⟨_, _, -, hn⟩ := h
  exact (hasArg_iff hn).2 List.mem_cons_self

end IsReshapeOf

theorem isReshapeOf_reshape (hn : g.node? e = some (.reshape a shape τ)) :
    g.IsReshapeOf a (some τ) e :=
  ⟨Op.reshape, _, .inl rfl, hn⟩

/-- `n` reshapes in a row of a variable. All but the innermost have a shape that is fully known. -/
inductive Reshapes (g : Graph) (x : NodeId) : Nat → NodeId → Prop
  | var {name : String} {σ : TensorType} (hx : g.node? x = some (.var name σ)) : Reshapes g x 0 x
  | call {n : Nat} {a e : NodeId} {τ : TensorType} (ha : Reshapes g x n a)
    (he : g.IsReshapeOf a (some τ) e) (hstatic : n ≠ 0 → τ.staticShape?.isSome) :
    Reshapes g x (n + 1) e

namespace Reshapes

theorem var_node? (h : g.Reshapes x n e) : ∃ name σ, g.node? x = some (.var name σ) := by
  induction h with
  | @var name σ hx => exact ⟨name, σ, hx⟩
  | call _ _ _ ih => exact ih

theorem node? (h : g.Reshapes x n e) : ∃ n, g.node? e = some n ∧ n.type?.isSome := by
  cases h with
  | var hx => exact ⟨_, hx, rfl⟩
  | call _ he _ =>
    obtain ⟨op, attrs, -, hn⟩ := he
    exact ⟨_, hn, rfl⟩

theorem unique {m : Nat} (h : g.Reshapes x n e) (h' : g.Reshapes x m e) : n = m := by
  induction h generalizing m with
  | var hx =>
    cases h' with
    | var => rfl
    | call _ he _ =>
      obtain ⟨_, _, -, hn⟩ := he
      cases hx.symm.trans hn
  | call _ he _ ih =>
    obtain ⟨_, _, -, hn⟩ := he
    cases h' with
    | var hx => cases hx.symm.trans hn
    | call ha' he' _ =>
      obtain ⟨_, _, -, hn'⟩ := he'
      cases hn.symm.trans hn'
      rw [ih ha']

theorem arg (h : g.Reshapes x n e) (ha : g.HasArg e a) : ∃ m < n, g.Reshapes x m a := by
  cases h with
  | var hx => cases (hasArg_iff hx).1 ha
  | call ha' he _ =>
    obtain ⟨_, _, -, hn⟩ := he
    cases List.mem_singleton.1 ((hasArg_iff hn).1 ha)
    exact ⟨_, Nat.lt_succ_self _, ha'⟩

theorem checked (h : g.Reshapes x n e) : g.Checked e := .of_descent node? arg h

end Reshapes

inductive Flattened (g : Graph) (x : NodeId) : Nat → Option TensorType → NodeId → Prop
  | var {type? : Option TensorType} : Flattened g x 0 type? x
  | innermost {type? : Option TensorType} {e : NodeId} (he : g.IsReshapeOf x type? e) :
    Flattened g x 1 type? e
  | fused {n : Nat} {τ : TensorType} {shape : List Word} {e : NodeId}
    (hshape : τ.staticShape? = some shape) (hn : g.node? e = some (.reshape x shape τ)) :
    Flattened g x (n + 2) (some τ) e

namespace Flattened

theorem grow (h : g.Flattened x n type? e) (hg : g.Grows g') : g'.Flattened x n type? e := by
  cases h with
  | var => exact .var
  | innermost he => exact .innermost (he.grow hg)
  | fused hshape hn => exact .fused hshape (hg.node? hn)

theorem eq_var (h : g.Flattened x 0 type? e) : e = x := by
  cases h
  rfl

theorem eq_or_isReshapeOf (h : g.Flattened x n type? e) : e = x ∨ g.IsReshapeOf x type? e := by
  cases h with
  | var => exact .inl rfl
  | innermost he => exact .inr he
  | fused _ hn => exact .inr (isReshapeOf_reshape hn)

end Flattened

end Graph

/-- The rule for reshapes is the first to match two in a row, and finds what is inside them. -/
theorem firstMatch?_reshape_reshape (he : g.IsReshapeOf a type? e) (ha : g.IsReshapeOf b type?' a) :
    ∃ bound, g.firstMatch? (RuleSet.standard rounds).rules e = some (.reshape, bound) ∧
      ∀ f, (bound.map f).first? Rule.Reshape.pattern.2 = some (f b) := by
  obtain ⟨op, attrs, hop, hn⟩ := he
  obtain ⟨op', attrs', hop', hn'⟩ := ha
  have hmatch : ∃ bound, Rule.reshape.pattern.match? g e = some bound ∧
      ∀ f, (bound.map f).first? Rule.Reshape.pattern.2 = some (f b) := by
    refine ⟨_, Pattern.match?_of_call_call hn hn' ?_ ?_, fun _ ↦ rfl⟩
    · rcases hop with rfl | rfl <;> rfl
    · rcases hop' with rfl | rfl <;> rfl
  obtain ⟨bound, hmatch, hbound⟩ := hmatch
  refine ⟨bound, ?_, hbound⟩
  rw [Graph.firstMatch?, RuleSet.standard, List.findSome?_cons, hmatch]
  rfl

/-- One more look at a reshape of what has been flattened makes it a reshape of the variable. -/
theorem settle_reshape {p : Progress} (hrounds : 1 ≤ rounds)
    (hx : p.graph.node? x = some (.var name σ)) (hy : p.graph.Flattened x n type? y)
    (hshape : τ.staticShape? = some shape) (he : p.graph.node? e = some (.reshape y shape τ)) :
    ∃ e' p', exec ((RuleSet.standard rounds).settle rounds e) p = (.ok e', p') ∧
      p.graph.Grows p'.graph ∧ p'.graph.node? e' = some (.reshape x shape τ) := by
  rcases hy.eq_or_isReshapeOf with rfl | hy
  · exact ⟨e, p, RuleSet.exec_settle_none (firstMatch?_call_var hx he) rounds, .refl _, he⟩
  · obtain ⟨m, rfl⟩ := Nat.exists_eq_add_of_le' hrounds
    obtain ⟨bound, hfirst, hbound⟩ := firstMatch?_reshape_reshape (Graph.isReshapeOf_reshape he) hy
    have happly : exec (Rule.reshape.apply e e (bound.map id)) p.graph =
        (.ok p.graph.size, p.graph.push (.reshape x shape τ)) :=
      Rule.Reshape.exec_apply_static (hbound id) (Graph.type?_of_node? he) hshape
    have hne : p.graph.size ≠ e := Nat.ne_of_gt (Graph.lt_size_of_node? he)
    have hgrows : p.graph.Grows (p.graph.push (.reshape x shape τ)) := .push _ _
    have hn := Graph.node?_push_size p.graph (.reshape x shape τ)
    have hnone : (p.graph.push (.reshape x shape τ)).firstMatch? (RuleSet.standard (m + 1)).rules
        p.graph.size = none := firstMatch?_call_var (hgrows.node? hx) hn
    exact ⟨_, _, (RuleSet.exec_settle_some hfirst happly hne).trans
      (RuleSet.exec_settle_none hnone m), hgrows, hn⟩

theorem leave_reshape {done : Replacements} {p : Progress} (hrounds : 1 ≤ rounds)
    (hg : g.Grows p.graph) (hx : g.node? x = some (.var name σ))
    (he : g.IsReshapeOf a (some τ) e) (hshape : τ.staticShape? = some shape)
    (ha : g.IsReshapeOf b type? a) (hne : b ≠ e)
    (hdone : p.graph.Flattened x n type?' (done.apply b)) :
    ∃ e' p', exec (Run.build (RuleSet.rebuild done e) >>=
      (RuleSet.standard rounds).visit done e) p = (.ok e', p') ∧ p.graph.Grows p'.graph ∧
        p'.graph.node? e' = some (.reshape x shape τ) := by
  obtain ⟨op, attrs, hop, hn⟩ := he
  obtain ⟨post, g₁, hrebuild, -⟩ := RuleSet.exec_rebuild done e p.graph
  obtain ⟨hgrows, hpost⟩ := RuleSet.rebuild_node? (hg.node? hn) hrebuild
  have hg₁ : g.Grows g₁ := hg.trans hgrows
  have he₁ : g₁.IsReshapeOf a (some τ) e := ⟨op, attrs, hop, hg₁.node? hn⟩
  obtain ⟨bound, hfirst, hbound⟩ := firstMatch?_reshape_reshape he₁ (ha.grow hg₁)
  -- the reshape is made over what has taken the place of `b`
  let made := Node.reshape (done.apply b) shape τ
  have hinner : (bound.map fun a ↦ if a = e then post else done.apply a).first?
      Rule.Reshape.pattern.2 = some (done.apply b) := by
    rw [hbound, if_neg hne]
  have happly : exec (Rule.reshape.apply e post (bound.map _)) g₁ = (.ok g₁.size, g₁.push made) :=
    Rule.Reshape.exec_apply_static hinner (Graph.type?_of_node? (hg₁.node? hn)) hshape
  have hfresh : g₁.size ≠ post := Nat.ne_of_gt (Graph.lt_size_of_node? hpost)
  have hgrows₂ : p.graph.Grows (g₁.push made) := hgrows.trans (.push g₁ made)
  rw [RuleSet.exec_leave_some hrebuild hfirst happly, if_pos ⟨rfl, hfresh⟩]
  obtain ⟨e', p', hsettle, hgrows', he'⟩ := settle_reshape (p := ⟨g₁.push made, _⟩) hrounds
    (hgrows₂.node? (hg.node? hx)) (hdone.grow hgrows₂) hshape (Graph.node?_push_size g₁ made)
  exact ⟨e', p', hsettle, hgrows₂.trans hgrows', he'⟩

theorem relates_reshapes {root : NodeId} (hroot : g.Reshapes x n root) (hrounds : 1 ≤ rounds) :
    (RuleSet.standard rounds).Relates g root fun h e e' ↦
      ∃ n, g.Reshapes x n e ∧ h.Flattened x n (g.type? e) e' := by
  intro done e p hreach hg hbelow
  have hdone {m : Nat} {b : NodeId} (hb : g.Reshapes x m b)
      (heb : Relation.TransGen g.HasArg e b) :
      p.graph.Flattened x m (g.type? b) (done.apply b) := by
    obtain ⟨m', hb', hflat⟩ := hbelow b heb
    rwa [hb.unique hb']
  obtain ⟨name, σ, hx⟩ := hroot.var_node?
  obtain ⟨n, hchain⟩ := Graph.exists_of_reaches Graph.Reshapes.arg hroot hreach
  cases hchain with
  | var => exact ⟨x, _, leave_var (hg.node? hx), .refl _, 0, .var hx, .var⟩
  | @call _ a _ τ ha he hstatic =>
    have hea : Relation.TransGen g.HasArg e a := .single he.hasArg
    have htype : g.type? e = some τ := he.type?_eq
    cases ha with
    | var =>
      have hvar : done.apply x = x := (hdone (.var hx) hea).eq_var
      obtain ⟨op, attrs, -, hn⟩ := he.grow hg
      exact ⟨e, _, leave_call_var (hg.node? hx) hn hvar, .refl _, 1, .call (.var hx) he hstatic,
        htype ▸ .innermost (he.grow hg)⟩
    | @call m b _ _ hb ha hstatic' =>
      obtain ⟨shape, hshape⟩ := Option.isSome_iff_exists.1 (hstatic (Nat.succ_ne_zero m))
      have heb : Relation.TransGen g.HasArg e b := hea.tail ha.hasArg
      have hne : b ≠ e := by
        rintro rfl
        exact hroot.checked.acyclic b hreach heb
      obtain ⟨e', p', hleave, hgrows, he'⟩ :=
        leave_reshape hrounds hg hx he hshape ha hne (hdone hb heb)
      exact ⟨e', p', hleave, hgrows, m + 2, .call (.call hb ha hstatic') he hstatic,
        htype ▸ .fused hshape he'⟩

/-- Two or more reshapes in a row of a variable are simplified to a single reshape of it, which has
the type of the outermost one and its shape. One round is enough. -/
theorem simplify_collapses_reshapes (hchain : g.Reshapes x n e) (hn : 2 ≤ n)
    (hrounds : 1 ≤ rounds) :
    ∃ r g' τ shape, exec (simplify rounds e) g = (.ok r, g') ∧ g.Grows g' ∧
      g.type? e = some τ ∧ τ.staticShape? = some shape ∧
        g'.node? r = some (.reshape x shape τ) := by
  have hchecked := hchain.checked
  have hrelates : (RuleSet.standard rounds).Relates g e _ := relates_reshapes hchain hrounds
  obtain ⟨r, g', hrun, hgrows, m, hchain', hflat⟩ := RuleSet.runOn_related hrelates
    (fun hgrows h ↦ h.imp fun _ h ↦ ⟨h.1, h.2.grow hgrows⟩) (leaves_standard frame_grows)
    hchecked.closed hchecked.acyclic
  cases hchain.unique hchain'
  rw [← exec_simplify_of_typed hchecked.typed] at hrun
  generalize htype : g.type? e = type? at hflat
  cases hflat with
  | var => exact absurd hn (by decide)
  | innermost => exact absurd hn (by decide)
  | fused hshape hr => exact ⟨r, g', _, _, hrun, hgrows, rfl, hshape, hr⟩

section Thrice

def reshapedThrice : Graph where
  nodes := #[.var "x" ⟨[.symbolic "n", .static 4], ⟨.int, 32, 1⟩⟩,
    .reshape 0 [0, 2, 2] ⟨[.symbolic "n", .static 2, .static 2], ⟨.int, 32, 1⟩⟩,
    .reverseReshape 1 [8, -1] (intTensor [8, 3]), .reshape 2 [24] (intTensor [24])]

theorem reshapes_reshapedThrice : reshapedThrice.Reshapes 0 3 3 := by
  have hvar : reshapedThrice.Reshapes 0 0 0 := .var rfl
  have hfirst : reshapedThrice.Reshapes 0 1 1 :=
    .call hvar ⟨_, _, .inl rfl, rfl⟩ fun h ↦ absurd rfl h
  have hsecond : reshapedThrice.Reshapes 0 2 2 :=
    .call hfirst ⟨_, _, .inr rfl, rfl⟩ fun _ ↦ rfl
  exact .call hsecond ⟨_, _, .inl rfl, rfl⟩ fun _ ↦ rfl

theorem simplify_collapses_reshapes_thrice :
    let g := reshapedThrice
    g.Reshapes 0 3 3 ∧ ∃ r g' τ shape, exec (simplify 1 3) g = (.ok r, g') ∧ g.Grows g' ∧
      g.type? 3 = some τ ∧ τ.staticShape? = some shape ∧
        g'.node? r = some (.reshape 0 shape τ) :=
  ⟨reshapes_reshapedThrice,
    simplify_collapses_reshapes reshapes_reshapedThrice (by decide) (by decide)⟩

end Thrice

end TensorOpt
