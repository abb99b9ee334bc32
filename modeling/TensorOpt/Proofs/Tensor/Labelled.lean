import TensorOpt.Graph.Operators
import TensorOpt.Proofs.Graph.Meaning
import TensorOpt.Proofs.Layout.Order
import TensorOpt.Proofs.Tensor.Interpretation
import TensorOpt.Proofs.Tensor.Value

namespace TensorOpt

open AxisOrder (gather IsOrder)

variable {V : Type} [Inhabited V] {l l' : Layout} {t t' u u' : Tensor V} {o : AxisOrder}

namespace Layout

def label (l : Layout) (entries : List Nat) (a : Axis) : Nat :=
  entries.getD (l.axes.idxOf a) 0

theorem label_map (i : Axis → Nat) {a : Axis} (ha : a ∈ l.axes) :
    l.label (l.axes.map i) a = i a := by
  rw [label, List.getD_eq_getElem?_getD, List.getElem?_map, List.getElem?_idxOf ha]
  rfl

theorem map_label (hl : l.axes.Nodup) {entries : List Nat} (hlength : entries.length = l.rank) :
    l.axes.map (l.label entries) = entries := by
  refine List.ext_getElem (by rw [List.length_map, hlength, rank]) fun k hk hk' ↦ ?_
  rw [List.getElem_map, label, hl.idxOf_getElem, List.getD_eq_getElem?_getD,
    List.getElem?_eq_getElem hk', Option.getD_some]

end Layout

/-- The two tensors, each with its layout, have the same labels, the same extents along them and the
same elements at every coordinate. -/
structure Agree (l : Layout) (t : Tensor V) (l' : Layout) (t' : Tensor V) : Prop where
  dtype : t.dtype = t'.dtype
  axes : l.axes.Perm l'.axes
  shape : ∃ extent : Axis → Nat, t.shape = l.axes.map extent ∧ t'.shape = l'.axes.map extent
  get : ∀ i : Axis → Nat, t.get (l.axes.map i) = t'.get (l'.axes.map i)

namespace Agree

theorem symm (h : Agree l t l' t') : Agree l' t' l t := by
  obtain ⟨extent, hshape, hshape'⟩ := h.shape
  exact ⟨h.dtype.symm, h.axes.symm, ⟨extent, hshape', hshape⟩, fun i ↦ (h.get i).symm⟩

theorem label (h : Agree l t l' t') {a : Axis} (ha : a ∈ l.axes) :
    l.label t.shape a = l'.label t'.shape a := by
  obtain ⟨extent, hshape, hshape'⟩ := h.shape
  rw [hshape, hshape', Layout.label_map extent ha, Layout.label_map extent (h.axes.mem_iff.1 ha)]

/-- Reordering the axes of a tensor along with their labels changes nothing. -/
theorem permute (hl : l.axes.Nodup) (hrank : t.shape.length = l.rank) (ho : IsOrder l.rank o)
    (haxes : gather o l.axes = l'.axes) : Agree l t l' (t.permute o) := by
  have hshape := Layout.map_label hl hrank
  refine ⟨rfl, ?_, ⟨l.label t.shape, hshape.symm, ?_⟩, fun i ↦ ?_⟩
  · rw [← haxes]
    exact (AxisOrder.gather_perm rfl ho).symm
  · rw [← haxes, ← AxisOrder.gather_map, hshape]
    rfl
  · rw [← haxes, ← AxisOrder.gather_map]
    exact (Tensor.get_permute (hrank ▸ ho) (by rw [List.length_map, hrank, Layout.rank])).symm

theorem unique (hl' : l'.axes.Nodup) (h : Agree l t l' u) (h' : Agree l t l' u') : u = u' := by
  obtain ⟨extent, ht, hu⟩ := h.shape
  obtain ⟨extent', ht', hu'⟩ := h'.shape
  have hsame : l'.axes.map extent = l'.axes.map extent' := by
    refine List.map_congr_left fun a ha ↦ ?_
    exact List.map_inj_left.1 (ht.symm.trans ht') a (h.axes.mem_iff.2 ha)
  refine Tensor.ext_inBounds (h.dtype.symm.trans h'.dtype) ?_ fun i hi ↦ ?_
  · rw [hu, hu', hsame]
  · have hlength : i.length = l'.rank := by
      rw [hi.length_eq, hu, List.length_map, Layout.rank]
    rw [← Layout.map_label hl' hlength, ← h.get, ← h'.get]

end Agree

/-- An interpretation of layout transforms that goes by labelled coordinates: it does not depend on
the order in which the axes of its argument or of its result are laid out. Transforms that share a
layout compose, and between a layout and itself nothing moves. -/
structure Relayout (V : Type) [Inhabited V] where
  move : Layout → Layout → Tensor V → Option (Tensor V)
  rank : ∀ {src dst t u}, move src dst t = some u →
    t.shape.length = src.rank ∧ u.shape.length = dst.rank
  reads : ∀ {src src' dst t t'}, Agree src t src' t' → move src dst t = move src' dst t'
  writes : ∀ {src dst dst' t u}, dst.axes.Perm dst'.axes → move src dst t = some u →
    ∃ u', move src dst' t = some u' ∧ Agree dst u dst' u'
  same : ∀ {l t u}, move l l t = some u → u = t
  trans : ∀ {src mid dst t u w}, move src mid t = some u → move mid dst u = some w →
    move src dst t = some w

namespace Relayout

/-- Transposes mean a reordering of the axes, and layout transforms what the interpretation says.
`Accepts` tells which tensors a node of a type may mean. -/
structure Interprets (R : Relayout V) (A : Semantics (Tensor V))
    (Accepts : Option TensorType → Tensor V → Prop) : Prop where
  transpose : ∀ {n t u}, n.callee? = some Op.transpose → (A n [t] = some u ↔
    Accepts n.type? u ∧ ∃ o, n.alone.axisOrder 0 t.shape.length = .ok o ∧ t.permute o = u)
  layouts : ∀ {n t u}, n.callee? = some Op.layoutTransform → (A n [t] = some u ↔
    Accepts n.type? u ∧ ∃ src dst, n.alone.layouts 0 = .ok (src, dst) ∧ R.move src dst t = some u)

def semantics (R : Relayout V) (ρ : String → Nat) (other : Semantics (Tensor V)) :
    Semantics (Tensor V)
  | n, [t] =>
    if n.Permutes then
      let moved? := if n.callee? = some Op.transpose
        then (n.alone.axisOrder 0 t.shape.length).toOption.map t.permute
        else (n.alone.layouts 0).toOption.bind fun q ↦ R.move q.1 q.2 t
      moved?.filter fun u ↦ ∀ τ ∈ n.type?, u.HasType ρ τ
    else other n [t]
  | n, ts => other n ts

theorem toOption_eq_some {ε α : Type} {r : Except ε α} {a : α} :
    r.toOption = some a ↔ r = .ok a := by
  cases r <;> simp [Except.toOption]

theorem interprets_semantics (R : Relayout V) (ρ : String → Nat) (other : Semantics (Tensor V)) :
    R.Interprets (R.semantics ρ other) fun type? u ↦ ∀ τ ∈ type?, u.HasType ρ τ where
  transpose {n t u} hn := by
    simp only [semantics, if_pos (show n.Permutes from .inl hn), if_pos hn,
      Option.filter_eq_some_iff, Option.map_eq_some_iff, toOption_eq_some, decide_eq_true_eq]
    exact and_comm
  layouts {n t u} hn := by
    have hne : n.callee? ≠ some Op.transpose := by
      rw [hn]
      decide
    simp only [semantics, if_pos (show n.Permutes from .inr hn), if_neg hne,
      Option.filter_eq_some_iff, Option.bind_eq_some_iff, toOption_eq_some, decide_eq_true_eq,
      Prod.exists]
    exact and_comm

end Relayout

end TensorOpt
