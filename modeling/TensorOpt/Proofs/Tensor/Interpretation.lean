import TensorOpt.Graph.Operators
import TensorOpt.Proofs.Graph.Meaning
import TensorOpt.Proofs.Layout.Order
import TensorOpt.Proofs.Tensor.Value

namespace TensorOpt

open AxisOrder (gather)
open Extents (volume broadcast?)

def Dim.extent (ρ : String → Nat) : Dim → Nat
  | static n => n.toInt.toNat
  | symbolic x => ρ x

def TensorType.extents (ρ : String → Nat) (τ : TensorType) : Extents := τ.shape.map (Dim.extent ρ)

namespace Node

variable {α : Type}

def callee? (n : Node) : Option String :=
  match n.kind with
  | .call op _ _ => some op
  | _ => none

def attrs? (n : Node) : Option Attrs :=
  match n.kind with
  | .call _ _ attrs => some attrs
  | _ => none

@[simp]
theorem callee?_head (n : Node) : n.head.callee? = n.callee? := by
  obtain ⟨kind, type?⟩ := n
  cases kind <;> rfl

@[simp]
theorem attrs?_head (n : Node) : n.head.attrs? = n.attrs? := by
  obtain ⟨kind, type?⟩ := n
  cases kind <;> rfl

def alone (n : Node) : Graph := ⟨#[n], .empty⟩

def Reshapes (n : Node) : Prop :=
  n.callee? = some Op.reshape ∨ n.callee? = some Op.reverseReshape

instance (n : Node) : Decidable n.Reshapes := inferInstanceAs (Decidable (_ ∨ _))

def Permutes (n : Node) : Prop :=
  n.callee? = some Op.transpose ∨ n.callee? = some Op.layoutTransform

instance (n : Node) : Decidable n.Permutes := inferInstanceAs (Decidable (_ ∨ _))

def fillOperand? (n : Node) : List α → Option α
  | [v] => if n.callee? = some Op.full then some v else none
  | [_, v] => if n.callee? = some Op.fullLike then some v else none
  | _ => none

def fillWord? (n : Node) : List α → Option Word
  | [] =>
    if n.callee? = some Op.ones then some 1
    else if n.callee? = some Op.zeros then some 0 else none
  | [_] =>
    if n.callee? = some Op.onesLike then some 1
    else if n.callee? = some Op.zerosLike then some 0 else none
  | _ => none

theorem fillOperand?_head (n : Node) (l : List α) : n.head.fillOperand? l = n.fillOperand? l := by
  simp only [fillOperand?.eq_def, callee?_head]

theorem callee?_of_fillOperand? {n : Node} {l : List α} {v : α} (h : n.fillOperand? l = some v) :
    n.callee? = some Op.full ∨ n.callee? = some Op.fullLike := by
  match l with
  | [] => cases h
  | [_] => exact .inl (Option.ite_none_right_eq_some.1 h).1
  | [_, _] => exact .inr (Option.ite_none_right_eq_some.1 h).1
  | _ :: _ :: _ :: _ => cases h

theorem fillOperand?_map {β : Type} (n : Node) (f : α → β) (l : List α) :
    n.fillOperand? (l.map f) = (n.fillOperand? l).map f := by
  match l with
  | [] => rfl
  | [_] => simp [fillOperand?, apply_ite (Option.map f)]
  | [_, _] => simp [fillOperand?, apply_ite (Option.map f)]
  | _ :: _ :: _ :: _ => rfl

theorem fillOperand?_forall₂ {β : Type} {R : α → β → Prop} {n : Node} {l : List α} {l' : List β}
    {v : α} (h : List.Forall₂ R l l') (hv : n.fillOperand? l = some v) :
    ∃ v', n.fillOperand? l' = some v' ∧ R v v' := by
  match h with
  | .nil => cases hv
  | .cons hR .nil =>
    obtain ⟨hop, ⟨⟩⟩ := Option.ite_none_right_eq_some.1 hv
    exact ⟨_, if_pos hop, hR⟩
  | .cons _ (.cons hR .nil) =>
    obtain ⟨hop, ⟨⟩⟩ := Option.ite_none_right_eq_some.1 hv
    exact ⟨_, if_pos hop, hR⟩
  | .cons _ (.cons _ (.cons _ _)) => cases hv

theorem fillWord?_head (n : Node) (l : List α) : n.head.fillWord? l = n.fillWord? l := by
  simp only [fillWord?.eq_def, callee?_head]

theorem fillWord?_forall₂ {β : Type} {R : α → β → Prop} {l : List α} {l' : List β}
    (h : List.Forall₂ R l l') (n : Node) : n.fillWord? l' = n.fillWord? l := by
  match h with
  | .nil => rfl
  | .cons _ .nil => rfl
  | .cons _ (.cons _ _) => rfl

/-- A fill repeats either an argument or a number of its own. -/
theorem fillOperand?_of_fillWord? {n : Node} {l : List α} {w : Word}
    (h : n.fillWord? l = some w) : n.fillOperand? l = none := by
  match l with
  | [] => rfl
  | [_] =>
    refine if_neg fun hop ↦ ?_
    simp [fillWord?, hop, Op.full, Op.onesLike, Op.zerosLike] at h
  | _ :: _ :: _ => cases h

def Broadcasts (c : Catalog) (n : Node) : Prop :=
  ∃ op, n.callee? = some op ∧ c.fusion? op = some .broadcast

instance (c : Catalog) (n : Node) : Decidable (n.Broadcasts c) :=
  decidable_of_iff (n.callee?.bind c.fusion? = some .broadcast) Option.bind_eq_some_iff

structure Consistent (ρ : String → Nat) (c : Catalog) (n : Node) (τ : TensorType)
    (args : List TensorType) : Prop where
  type? : n.type? = some τ
  literal : ∀ {l}, n.kind = .const l → τ = l.type
  reshape : n.Reshapes → ∀ {σ}, args = [σ] →
    σ.dtype = τ.dtype ∧ volume (σ.extents ρ) = volume (τ.extents ρ)
  -- a transpose numbers its axes by words, which bounds the rank
  permute : n.Permutes → ∃ σ order, args = [σ] ∧ σ.dtype = τ.dtype ∧ σ.rank = τ.rank ∧
    n.alone.axisOrder 0 τ.rank = .ok order ∧ gather order σ.shape = τ.shape ∧ τ.rank ≤ 2 ^ 63
  layouts : n.callee? = some Op.layoutTransform → ∃ src dst, n.alone.layouts 0 = .ok (src, dst) ∧
    src.axes.Perm dst.axes ∧ dst.rank = τ.rank
  -- only a scalar is ever put in the place of a fill
  fill : ∀ {v}, n.fillOperand? args = some v → v.shape = [] → v.dtype = τ.dtype
  broadcast : n.Broadcasts c → ∀ {σ σ'}, args = [σ, σ'] →
    σ.dtype = σ'.dtype ∧ broadcast? (σ.extents ρ) (σ'.extents ρ) = some (τ.extents ρ)

end Node

def Tensor.HasType {V : Type} [Inhabited V] (ρ : String → Nat) (t : Tensor V) (τ : TensorType) :
    Prop :=
  t.dtype = τ.dtype ∧ t.shape = τ.extents ρ

instance {V : Type} [Inhabited V] (ρ : String → Nat) (t : Tensor V) (τ : TensorType) :
    Decidable (t.HasType ρ τ) :=
  inferInstanceAs (Decidable (_ ∧ _))

/-- What every node means, given what its arguments mean. The node is used without its arguments.
`pointwise` is what a broadcasting operator does with two elements of a type. -/
structure Interpretation (V : Type) [Inhabited V] (c : Catalog) where
  extent : String → Nat
  denote : Node → List (Tensor V) → Tensor V
  pointwise : Node → DType → V → V → V
  hasType : ∀ {n τ ts}, n.type? = some τ → (denote n ts).HasType extent τ
  reshape : ∀ {n τ t}, n.Reshapes → n.type? = some τ → t.dtype = τ.dtype →
    volume t.shape = volume (τ.extents extent) → denote n [t] = t.reinterpret (τ.extents extent)
  permute : ∀ {n τ t order}, n.Permutes → n.type? = some τ → t.dtype = τ.dtype →
    n.alone.axisOrder 0 τ.rank = .ok order → gather order t.shape = τ.extents extent →
      denote n [t] = t.permute order
  fillOperand : ∀ {n τ ts v}, n.fillOperand? ts = some v → n.type? = some τ → v.shape = [] →
    v.dtype = τ.dtype → denote n ts = .constant τ.dtype (τ.extents extent) (v.get [])
  fillWord : ∀ {n τ ts w}, n.fillWord? ts = some w → n.type? = some τ →
    denote n ts = .constant τ.dtype (τ.extents extent)
      ((denote (.const (.ofWord τ.dtype w)) []).get [])
  broadcast : ∀ {n τ t u}, n.Broadcasts c → n.type? = some τ → t.dtype = u.dtype →
    broadcast? t.shape u.shape = some (τ.extents extent) →
      denote n [t, u] = .combine (pointwise n t.dtype) τ.dtype (τ.extents extent) t u

def Graph.WellTyped (ρ : String → Nat) (g : Graph) (root : NodeId) : Prop :=
  ∀ e, g.Reaches root e → ∃ n τ args, g.node? e = some n ∧ n.args.map g.type? = args.map some ∧
    n.head.Consistent ρ g.catalog τ args

namespace Interpretation

variable {V : Type} [Inhabited V] {c : Catalog} {I : Interpretation V c} {g : Graph}
  {e root : NodeId} {τ : TensorType} {t : Tensor V}

def semantics (I : Interpretation V c) : Semantics (Tensor V) := .total I.denote

open Classical in
noncomputable def typed (I : Interpretation V c) : Semantics (TensorType × Tensor V) := fun n ms ↦
  n.type?.bind fun τ ↦
    if n.Consistent I.extent c τ (ms.map Prod.fst) then some (τ, I.denote n (ms.map Prod.snd))
    else none

theorem typed_eq_some {n : Node} {ms : List (TensorType × Tensor V)} :
    I.typed n ms = some (τ, t) ↔
      n.Consistent I.extent c τ (ms.map Prod.fst) ∧ I.denote n (ms.map Prod.snd) = t := by
  simp only [typed, Option.bind_eq_some_iff, Option.ite_none_right_eq_some, Option.some.injEq,
    Prod.mk.injEq]
  constructor
  · rintro ⟨_, -, h, rfl, rfl⟩
    exact ⟨h, rfl⟩
  · rintro ⟨h, rfl⟩
    exact ⟨τ, h.type?, h, rfl, rfl⟩

theorem type?_of_means (he : Means I.typed g e (τ, t)) :
    g.type? e = some τ ∧ t.HasType I.extent τ := by
  obtain ⟨n, ms, hn, -, hm⟩ := means_iff.1 he
  obtain ⟨hconsistent, rfl⟩ := typed_eq_some.1 hm
  have htype : n.type? = some τ := n.type?_head ▸ hconsistent.type?
  exact ⟨(Graph.type?_of_node? hn).trans htype, I.hasType hconsistent.type?⟩

theorem semantics_of_means {m : TensorType × Tensor V} (he : Means I.typed g e m) :
    Means I.semantics g e m.2 := by
  induction he with
  | @node e n ms m hn hlength _ hm ih =>
    have ht := (typed_eq_some.1 hm).2
    refine (means_of_node? hn).2 ⟨ms.map Prod.snd, ?_, congrArg some ht⟩
    rw [List.forall₂_map_right_iff]
    exact List.forall₂_iff_zip.2 ⟨hlength, fun hp ↦ ih _ hp⟩

theorem types_of_means {args : List NodeId} {ms : List (TensorType × Tensor V)}
    (h : List.Forall₂ (Means I.typed g) args ms) :
    args.map g.type? = (ms.map Prod.fst).map some := by
  induction h with
  | nil => rfl
  | cons he _ ih => rw [List.map_cons, List.map_cons, List.map_cons, ih, (type?_of_means he).1]

theorem exists_means_typed (hacyclic : g.Acyclic root) (hc : g.catalog = c)
    (htyped : g.WellTyped I.extent root) : ∃ m, Means I.typed g root m := by
  have hclosed : g.Closed root := by
    intro e he
    obtain ⟨n, -, -, hn, -⟩ := htyped e he
    exact Graph.lt_size_of_node? hn
  refine hacyclic.induction (P := fun e ↦ ∃ m, Means I.typed g e m) hclosed (fun e he ih ↦ ?_) .refl
  obtain ⟨n, τ, args, hn, hargs, hconsistent⟩ := htyped e he
  rw [Graph.args_of_node? hn] at ih
  obtain ⟨ms, hms⟩ := exists_forall₂_means ih
  have htypes : ms.map Prod.fst = args :=
    List.map_injective_iff.2 (Option.some_injective _) ((types_of_means hms).symm.trans hargs)
  rw [hc] at hconsistent
  refine ⟨(τ, I.denote n.head (ms.map Prod.snd)), (means_of_node? hn).2 ⟨ms, hms, ?_⟩⟩
  rw [typed_eq_some, htypes]
  exact ⟨hconsistent, rfl⟩

section OfOther

variable {V : Type} [Inhabited V] {c : Catalog} {n : Node} {τ : TensorType} {t u v : Tensor V}
  {ts : List (Tensor V)} {order : AxisOrder} {w : Word} {ρ : String → Nat}
  {pointwise : Node → DType → V → V → V} {other : Node → List (Tensor V) → Position → V}

/-- What a node of type `τ` means if its operator is one that the library reasons about. -/
def named? (ρ : String → Nat) (pointwise : Node → DType → V → V → V)
    (other : Node → List (Tensor V) → Position → V) (c : Catalog) (n : Node) (τ : TensorType)
    (ts : List (Tensor V)) : Option (Tensor V) :=
  match n.fillOperand? ts, n.fillWord? ts, ts with
  | some v, _, _ => some (.constant τ.dtype (τ.extents ρ) (v.get []))
  | none, some w, _ =>
    some (.constant τ.dtype (τ.extents ρ) (other (.const (.ofWord τ.dtype w)) [] []))
  | none, none, [t] =>
    if n.Reshapes then some (t.reinterpret (τ.extents ρ))
    else (n.alone.axisOrder 0 τ.rank).toOption.map t.permute
  | none, none, [t, u] =>
    if n.Broadcasts c then some (.combine (pointwise n t.dtype) τ.dtype (τ.extents ρ) t u) else none
  | _, _, _ => none

theorem named?_fillOperand (hv : n.fillOperand? ts = some v) :
    named? ρ pointwise other c n τ ts = some (.constant τ.dtype (τ.extents ρ) (v.get [])) := by
  simp only [named?, hv]

theorem named?_fillWord (hw : n.fillWord? ts = some w) :
    named? ρ pointwise other c n τ ts =
      some (.constant τ.dtype (τ.extents ρ) (other (.const (.ofWord τ.dtype w)) [] [])) := by
  simp only [named?, hw, Node.fillOperand?_of_fillWord? hw]

theorem named?_unary {op : String} (hop : n.callee? = some op)
    (hfill : op ∉ [Op.full, Op.onesLike, Op.zerosLike]) :
    named? ρ pointwise other c n τ [t] =
      if n.Reshapes then some (t.reinterpret (τ.extents ρ))
      else (n.alone.axisOrder 0 τ.rank).toOption.map t.permute := by
  simp only [List.mem_cons, List.not_mem_nil, or_false, not_or] at hfill
  have hoperand : n.fillOperand? [t] = none := by simp [Node.fillOperand?, hop, hfill]
  have hword : n.fillWord? [t] = none := by simp [Node.fillWord?, hop, hfill]
  simp only [named?, hoperand, hword]

theorem named?_reshape (hn : n.Reshapes) :
    named? ρ pointwise other c n τ [t] = some (t.reinterpret (τ.extents ρ)) := by
  obtain ⟨op, hop, hfill⟩ : ∃ op, n.callee? = some op ∧
      op ∉ [Op.full, Op.onesLike, Op.zerosLike] := by
    rcases hn with hn | hn <;> exact ⟨_, hn, by decide⟩
  rw [named?_unary hop hfill, if_pos hn]

theorem named?_permute (hn : n.Permutes) (horder : n.alone.axisOrder 0 τ.rank = .ok order) :
    named? ρ pointwise other c n τ [t] = some (t.permute order) := by
  obtain ⟨op, hop, hfill, hreshape⟩ : ∃ op, n.callee? = some op ∧
      op ∉ [Op.full, Op.onesLike, Op.zerosLike] ∧ op ∉ [Op.reshape, Op.reverseReshape] := by
    rcases hn with hn | hn <;> exact ⟨_, hn, by decide, by decide⟩
  have hreshape' : ¬ n.Reshapes := by
    simpa [Node.Reshapes, hop] using hreshape
  rw [named?_unary hop hfill, if_neg hreshape', horder]
  rfl

theorem named?_broadcast (hc : c.fusion? Op.fullLike ≠ some .broadcast) (hn : n.Broadcasts c) :
    named? ρ pointwise other c n τ [t, u] =
      some (.combine (pointwise n t.dtype) τ.dtype (τ.extents ρ) t u) := by
  have hoperand : n.fillOperand? [t, u] = none := by
    refine if_neg fun hop ↦ ?_
    obtain ⟨op, hop', hfusion⟩ := hn
    cases hop.symm.trans hop'
    exact hc hfusion
  have hword : n.fillWord? [t, u] = none := rfl
  simp only [named?, hoperand, hword, if_pos hn]

def denoteOther (ρ : String → Nat) (pointwise : Node → DType → V → V → V)
    (other : Node → List (Tensor V) → Position → V) (c : Catalog) (n : Node)
    (ts : List (Tensor V)) : Tensor V :=
  match n.type? with
  | none => .ofFn default [] (other n ts)
  | some τ => ((named? ρ pointwise other c n τ ts).filter (·.HasType ρ τ)).getD
      (.ofFn τ.dtype (τ.extents ρ) (other n ts))

theorem denoteOther_of_named? (hτ : n.type? = some τ)
    (ht : named? ρ pointwise other c n τ ts = some t) (htype : t.HasType ρ τ) :
    denoteOther ρ pointwise other c n ts = t := by
  simp only [denoteOther, hτ, ht, Option.filter_some, decide_eq_true htype, if_true,
    Option.getD_some]

theorem hasType_denoteOther (hτ : n.type? = some τ) :
    (denoteOther ρ pointwise other c n ts).HasType ρ τ := by
  simp only [denoteOther, hτ]
  cases hnamed : (named? ρ pointwise other c n τ ts).filter (·.HasType ρ τ) with
  | none => exact ⟨rfl, rfl⟩
  | some t => exact of_decide_eq_true (Option.filter_eq_some_iff.1 hnamed).2

theorem get_denoteOther_const {l : Literal} (hl : l.shape = []) :
    (denoteOther ρ pointwise other c (.const l) []).get [] = other (.const l) [] [] := by
  have hinBounds : InBounds [] (l.type.extents ρ) := by
    rw [TensorType.extents, Literal.type, TensorType.ofStatic, hl]
    exact .nil
  exact Tensor.get_ofFn hinBounds

def ofOther (ρ : String → Nat) (pointwise : Node → DType → V → V → V)
    (other : Node → List (Tensor V) → Position → V)
    (hc : c.fusion? Op.fullLike ≠ some .broadcast) : Interpretation V c where
  extent := ρ
  denote := denoteOther ρ pointwise other c
  pointwise := pointwise
  hasType := hasType_denoteOther
  reshape hn hτ hdtype _ := denoteOther_of_named? hτ (named?_reshape hn) ⟨hdtype, rfl⟩
  permute hn hτ hdtype horder hshape :=
    denoteOther_of_named? hτ (named?_permute hn horder) ⟨hdtype, hshape⟩
  fillOperand hv hτ _ _ := denoteOther_of_named? hτ (named?_fillOperand hv) ⟨rfl, rfl⟩
  fillWord {n τ ts w} hw hτ := by
    rw [get_denoteOther_const rfl]
    exact denoteOther_of_named? hτ (named?_fillWord hw) ⟨rfl, rfl⟩
  broadcast hn hτ _ _ := denoteOther_of_named? hτ (named?_broadcast hc hn) ⟨rfl, rfl⟩

end OfOther

end Interpretation

end TensorOpt
