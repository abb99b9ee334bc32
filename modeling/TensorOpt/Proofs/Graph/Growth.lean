import Mathlib.Data.Fintype.Card
import Mathlib.Data.Fintype.EquivFin
import Mathlib.Logic.Relation
import TensorOpt.Graph.Traversal

namespace TensorOpt.Graph

variable {g h k : Graph} {a e root : NodeId} {n : Node}

structure Grows (g h : Graph) : Prop where
  node? : ∀ {e n}, g.node? e = some n → h.node? e = some n
  catalog : h.catalog = g.catalog

namespace Grows

theorem refl (g : Graph) : g.Grows g := ⟨fun hn ↦ hn, rfl⟩

theorem trans (hgh : g.Grows h) (hhk : h.Grows k) : g.Grows k :=
  ⟨fun hn ↦ hhk.node? (hgh.node? hn), hhk.catalog.trans hgh.catalog⟩

theorem push (g : Graph) (n : Node) : g.Grows (g.push n) := by
  refine ⟨fun {e m} hm ↦ ?_, rfl⟩
  have hlt : e < g.size := lt_size_of_node? hm
  rw [node?_push, if_neg (Nat.ne_of_lt hlt)]
  exact hm

end Grows

/-- The nodes of `g` are in `h`, though their types may be others. -/
def Keeps (g h : Graph) : Prop :=
  ∀ ⦃e n⦄, g.node? e = some n → ∃ type?, h.node? e = some { n with type? := type? }

namespace Keeps

theorem refl (g : Graph) : g.Keeps g := fun _ n hn ↦ ⟨n.type?, hn⟩

theorem trans (hgh : g.Keeps h) (hhk : h.Keeps k) : g.Keeps k := by
  intro e n hn
  obtain ⟨type?, hn'⟩ := hgh hn
  obtain ⟨type?', hn''⟩ := hhk hn'
  exact ⟨type?', hn''⟩

end Keeps

theorem Grows.keeps (hgh : g.Grows h) : g.Keeps h := fun _ n hn ↦ ⟨n.type?, hgh.node? hn⟩

theorem node?_push_size (g : Graph) (n : Node) : (g.push n).node? g.size = some n := by
  rw [node?_push, if_pos rfl]

theorem args_of_node? (hn : g.node? e = some n) : g.args e = n.args := by
  simp [args, hn]

theorem type?_of_node? (hn : g.node? e = some n) : g.type? e = n.type? := by
  simp [type?, hn]

def HasArg (g : Graph) (e a : NodeId) : Prop := a ∈ g.args e

theorem hasArg_iff (hn : g.node? e = some n) : g.HasArg e a ↔ a ∈ n.args := by
  rw [HasArg, args_of_node? hn]

def Reaches (g : Graph) : NodeId → NodeId → Prop := Relation.ReflTransGen g.HasArg

/-- All that `root` reaches has been made. -/
def Closed (g : Graph) (root : NodeId) : Prop := ∀ e, g.Reaches root e → e < g.size

def Acyclic (g : Graph) (root : NodeId) : Prop :=
  ∀ e, g.Reaches root e → ¬ Relation.TransGen g.HasArg e e

theorem node?_of_lt (he : e < g.size) : ∃ n, g.node? e = some n :=
  ⟨g.nodes[e], Array.getElem?_eq_getElem he⟩

/-- What holds of a node if it holds of the arguments holds of all that is reachable. -/
theorem Acyclic.induction {P : NodeId → Prop} (hacyclic : g.Acyclic root) (hclosed : g.Closed root)
    (step : ∀ e, g.Reaches root e → (∀ a ∈ g.args e, P a) → P e) (hreach : g.Reaches root e) :
    P e := by
  let below (x y : {e // g.Reaches root e}) : Prop := Relation.TransGen g.HasArg y.1 x.1
  have hfinite : Finite {e // g.Reaches root e} :=
    Finite.of_injective (fun x ↦ (⟨x.1, hclosed x.1 x.2⟩ : Fin g.size)) fun x y hxy ↦
      Subtype.ext (Fin.mk.inj hxy)
  have htrans : IsTrans _ below := ⟨fun _ _ _ hxy hyz ↦ hyz.trans hxy⟩
  have hirrefl : Std.Irrefl below := ⟨fun x ↦ hacyclic x.1 x.2⟩
  have hwf : WellFounded below := Finite.wellFounded_of_trans_of_irrefl below
  refine hwf.induction (C := fun x ↦ P x.1) ⟨e, hreach⟩ fun x ih ↦ step x.1 x.2 fun a ha ↦ ?_
  exact ih ⟨a, x.2.tail ha⟩ (.single ha)

def Ascending (g : Graph) : Prop := ∀ e < g.size, ∀ a ∈ g.args e, a < e

instance (g : Graph) : Decidable g.Ascending := inferInstanceAs (Decidable (∀ e < _, _))

namespace Ascending

theorem lt (hg : g.Ascending) (ha : g.HasArg e a) : a < e := by
  refine hg e (Nat.lt_of_not_le fun hle ↦ ?_) a ha
  have hnone : g.node? e = none := Array.getElem?_eq_none hle
  simp [HasArg, args, hnone] at ha

theorem acyclic (hg : g.Ascending) (root : NodeId) : g.Acyclic root := by
  have hlt {e a : NodeId} (h : Relation.TransGen g.HasArg e a) : a < e := by
    induction h with
    | single h => exact hg.lt h
    | tail _ h ih => exact (hg.lt h).trans ih
  exact fun e _ h ↦ Nat.lt_irrefl e (hlt h)

theorem closed (hg : g.Ascending) (hroot : root < g.size) : g.Closed root := by
  intro e he
  induction he with
  | refl => exact hroot
  | tail _ h ih => exact (hg.lt h).trans ih

end Ascending

end TensorOpt.Graph
