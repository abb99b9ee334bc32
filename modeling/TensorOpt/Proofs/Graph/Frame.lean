import TensorOpt.Proofs.Graph.Exec
import TensorOpt.Proofs.Graph.Growth

namespace TensorOpt

variable {g h k : Graph} {e : NodeId} {n : Node} {τ : TensorType}

namespace Graph

inductive Edit : Graph → Graph → Prop
  | make (g : Graph) (n : Node) : Edit g (g.push n)
  | assign {g h : Graph} {e : NodeId} {τ : TensorType} (hassign : g.assignType e τ = .ok h) :
    Edit g h

def Evolves : Graph → Graph → Prop := Relation.ReflTransGen Edit

/-- The nodes of `g` are the first nodes of `h`, and those that are typed keep their types. -/
structure Extends (g h : Graph) : Prop where
  kinds : g.nodes.toList.map Node.kind <+: h.nodes.toList.map Node.kind
  type? : ∀ e τ, g.type? e = some τ → h.type? e = some τ
  catalog : h.catalog = g.catalog

namespace Extends

theorem refl (g : Graph) : g.Extends g := ⟨List.prefix_rfl, fun _ _ hτ ↦ hτ, rfl⟩

theorem trans (hgh : g.Extends h) (hhk : h.Extends k) : g.Extends k where
  kinds := hgh.kinds.trans hhk.kinds
  type? e τ hτ := hhk.type? e τ (hgh.type? e τ hτ)
  catalog := hhk.catalog.trans hgh.catalog

end Extends

theorem Grows.nodes_prefix (hgh : g.Grows h) : g.nodes.toList <+: h.nodes.toList := by
  refine List.prefix_iff_getElem?.2 fun i hi ↦ ?_
  rw [Array.getElem?_toList, Array.getElem_toList]
  exact hgh.node? (Array.getElem?_eq_getElem hi)

theorem Grows.extends (hgh : g.Grows h) : g.Extends h where
  kinds := hgh.nodes_prefix.map Node.kind
  type? e τ hτ := by
    obtain ⟨n, hn, htype⟩ := Option.bind_eq_some_iff.1 hτ
    rw [type?_of_node? (hgh.node? hn), htype]
  catalog := hgh.catalog

/-- Only a node without a type is given one, and nothing else changes. -/
theorem assignType_cases (hassign : g.assignType e τ = .ok h) : h = g ∨ g.type? e = none ∧
    h.catalog = g.catalog ∧ ∀ a, h.node? a =
      if e = a then (g.node? a).map fun n ↦ { n with type? := some τ } else g.node? a := by
  rw [assignType] at hassign
  split at hassign
  next hnone =>
    cases hassign
    exact .inr ⟨hnone, rfl, fun a ↦ Array.getElem?_modify⟩
  next existing _ =>
    split at hassign
    next => exact .inl (Except.ok.inj hassign).symm
    next => cases hassign

theorem extends_assignType (hassign : g.assignType e τ = .ok h) : g.Extends h := by
  rcases assignType_cases hassign with rfl | ⟨hnone, hcatalog, hnode⟩
  · exact .refl _
  · have hkinds : g.nodes.toList.map Node.kind = h.nodes.toList.map Node.kind := by
      refine List.ext_getElem? fun a ↦ ?_
      rw [List.getElem?_map, List.getElem?_map, Array.getElem?_toList, Array.getElem?_toList]
      show (g.node? a).map Node.kind = (h.node? a).map Node.kind
      rw [hnode]
      split
      next =>
        rw [Option.map_map]
        rfl
      next => rfl
    refine ⟨hkinds ▸ List.prefix_rfl, fun a σ hσ ↦ ?_, hcatalog⟩
    rw [type?, hnode, if_neg]
    · exact hσ
    · rintro rfl
      cases hnone.symm.trans hσ

theorem Edit.extends (hedit : Edit g h) : g.Extends h := by
  cases hedit with
  | make n => exact (Grows.push g n).extends
  | assign hassign => exact extends_assignType hassign

/-- Of two graphs on the way the later one extends the earlier one. -/
theorem Evolves.extends (hgh : g.Evolves h) : g.Extends h := by
  induction hgh with
  | refl => exact .refl g
  | tail _ hedit ih => exact ih.trans hedit.extends

end Graph

/-- A relation between a graph and what becomes of it that allows for new nodes. -/
structure Frame (R : Graph → Graph → Prop) : Prop where
  refl : ∀ g, R g g
  trans : ∀ {g h k}, R g h → R h k → R g k
  push : ∀ g n, R g (g.push n)

theorem frame_grows : Frame Graph.Grows := ⟨.refl, .trans, .push⟩

theorem frame_keeps : Frame Graph.Keeps := ⟨.refl, .trans, fun g n ↦ (Graph.Grows.push g n).keeps⟩

theorem frame_evolves : Frame Graph.Evolves :=
  ⟨fun _ ↦ .refl, .trans, fun g n ↦ .single (.make g n)⟩

/-- Whatever the outcome, the graph is left as the relation says. -/
def Leaves {ε σ α : Type} (graph : σ → Graph) (R : Graph → Graph → Prop)
    (x : ExceptT ε (StateM σ) α) : Prop :=
  ∀ s, R (graph s) (graph (exec x s).2)

namespace Leaves

variable {ε σ α β : Type} {graph : σ → Graph} {R : Graph → Graph → Prop}

theorem pure (hR : Frame R) (a : α) : Leaves graph R (pure a : ExceptT ε (StateM σ) α) :=
  fun _ ↦ hR.refl _

theorem throw (hR : Frame R) (e : ε) : Leaves graph R (throw e : ExceptT ε (StateM σ) α) :=
  fun _ ↦ hR.refl _

theorem get (hR : Frame R) : Leaves graph R (get : ExceptT ε (StateM σ) σ) := fun _ ↦ hR.refl _

theorem bind (hR : Frame R) {x : ExceptT ε (StateM σ) α} {f : α → ExceptT ε (StateM σ) β}
    (hx : Leaves graph R x) (hf : ∀ a, Leaves graph R (f a)) : Leaves graph R (x >>= f) := by
  intro s
  have hs := hx s
  rw [exec_bind]
  rcases hexec : exec x s with ⟨_ | a, t⟩
  · rwa [hexec] at hs
  · rw [hexec] at hs
    exact hR.trans hs (hf a t)

theorem ask (hR : Frame R) (f : Graph → Except ε α) : Leaves id R (Build.ask f) :=
  fun _ ↦ hR.refl _

theorem push (hR : Frame R) (n : Node) : Leaves id R (Build.push n : Build ε NodeId) :=
  fun g ↦ hR.push g n

end Leaves

end TensorOpt
