import TensorOpt.Proofs.Index.Range

namespace TensorOpt.Index

variable {a b e node r : Index} {n : UInt16} {op : Word → Word → Option Word} {other : Prop}

inductive Built : Index → Prop
  | int (v : Word) : Built (int v)
  | var (x : String) : Built (var x)
  | add {a b : Index} (ha : Built a) (hb : Built b) : Built (mkAdd a b)
  | sub {a b : Index} (ha : Built a) (hb : Built b) : Built (mkSub a b)
  | mul {a b : Index} (ha : Built a) (hb : Built b) : Built (mkMul a b)
  | floorDiv {a b : Index} (ha : Built a) (hb : Built b) : Built (mkFloorDiv a b)
  | floorMod {a b : Index} (ha : Built a) (hb : Built b) : Built (mkFloorMod a b)
  | ramp {a b : Index} (ha : Built a) (hb : Built b) (n : UInt16) : Built (mkRamp a b n)

/-- The operands are two words for which the operation has no answer, or they are not both words and
`other` holds. -/
def Stuck (op : Word → Word → Option Word) (other : Prop) : Index → Index → Prop
  | int x, int y => op x y = none
  | _, _ => other

/-- The node itself calls for no folding. An operation on two words is left only if it overflows or
divides by zero; other than that no operand is neutral or absorbing, nothing is subtracted from
itself, and a ramp does not have just one lane. -/
def Settled : Index → Prop
  | int _ | var _ => True
  | add a b => Stuck Word.add? (a ≠ int 0 ∧ b ≠ int 0) a b
  | sub a b => Stuck Word.sub? (b ≠ int 0 ∧ a ≠ b) a b
  | mul a b => Stuck Word.mul? (a ≠ int 0 ∧ a ≠ int 1 ∧ b ≠ int 0 ∧ b ≠ int 1) a b
  | floorDiv a b => Stuck Word.floorDiv? (a ≠ int 0 ∧ b ≠ int 1) a b
  | floorMod a b => Stuck Word.floorMod? (a ≠ int 0 ∧ b ≠ int 1) a b
  | ramp _ _ n => n ≠ 1

section Nodes

theorem int?_eq_some_iff {w : Word} : a.int? = some w ↔ a = int w := by
  refine ⟨eq_int_of_int?, ?_⟩
  rintro rfl
  rfl

theorem intOr_eq_node {v : Option Word} (hnode : ∀ w, int w ≠ node) :
    intOr node v = node ↔ v = none := by
  cases v with
  | none => exact iff_of_true rfl rfl
  | some w => exact iff_of_false (hnode w) nofun

/-- A constructor that folds two words if it can gives the plain node only where it is stuck. -/
theorem eq_node_iff_stuck (hnode : ∀ w, int w ≠ node)
    (hwords : ∀ x y, a = int x → b = int y → r = intOr node (op x y))
    (hother : a.int? = none ∨ b.int? = none → (r = node ↔ other)) :
    r = node ↔ Stuck op other a b := by
  unfold Stuck
  split
  next x y =>
    rw [hwords x y rfl rfl]
    exact intOr_eq_node hnode
  next hne =>
    refine hother (or_iff_not_imp_left.2 fun ha ↦ ?_)
    obtain ⟨x, hx⟩ := Option.ne_none_iff_exists'.1 ha
    refine Option.eq_none_iff_forall_ne_some.2 fun y hy ↦ ?_
    exact hne x y (eq_int_of_int? hx) (eq_int_of_int? hy)

-- An operand is smaller than the node, so that an answer that is an operand is not the node.

theorem mkAdd_eq_add : mkAdd a b = add a b ↔ Settled (add a b) := by
  refine eq_node_iff_stuck nofun (by rintro x y rfl rfl; rfl) fun h ↦ ?_
  have hsize : (add a b).size = a.size + b.size + 1 := rfl
  grind [mkAdd, int?_eq_some_iff, int?]

theorem mkSub_eq_sub : mkSub a b = sub a b ↔ Settled (sub a b) := by
  refine eq_node_iff_stuck nofun (by rintro x y rfl rfl; rfl) fun h ↦ ?_
  have hsize : (sub a b).size = a.size + b.size + 1 := rfl
  grind [mkSub, int?_eq_some_iff, int?]

theorem mkMul_eq_mul : mkMul a b = mul a b ↔ Settled (mul a b) := by
  refine eq_node_iff_stuck nofun (by rintro x y rfl rfl; rfl) fun h ↦ ?_
  have hsize : (mul a b).size = a.size + b.size + 1 := rfl
  grind [mkMul, int?_eq_some_iff, int?]

theorem mkFloorDiv_eq_floorDiv : mkFloorDiv a b = floorDiv a b ↔ Settled (floorDiv a b) := by
  refine eq_node_iff_stuck nofun (by rintro x y rfl rfl; rfl) fun h ↦ ?_
  have hsize : (floorDiv a b).size = a.size + b.size + 1 := rfl
  grind [mkFloorDiv, int?_eq_some_iff, int?]

theorem mkFloorMod_eq_floorMod : mkFloorMod a b = floorMod a b ↔ Settled (floorMod a b) := by
  refine eq_node_iff_stuck nofun (by rintro x y rfl rfl; rfl) fun h ↦ ?_
  have hsize : (floorMod a b).size = a.size + b.size + 1 := rfl
  grind [mkFloorMod, int?_eq_some_iff, int?]

theorem mkRamp_eq_ramp : mkRamp a b n = ramp a b n ↔ Settled (ramp a b n) := by
  have hsize : (ramp a b n).size = a.size + b.size + 1 := rfl
  grind [mkRamp, Settled]

end Nodes

theorem folded_iff_settled : Folded e ↔ ∀ s ∈ e.parts, Settled s := by
  induction e with
  | int v | var x => exact iff_of_true trivial (List.forall_mem_singleton.2 trivial)
  | add a b iha ihb | sub a b iha ihb | mul a b iha ihb | floorDiv a b iha ihb
  | floorMod a b iha ihb | ramp a b n iha ihb =>
    simp only [Folded, parts, iha, ihb, mkAdd_eq_add, mkSub_eq_sub, mkMul_eq_mul,
      mkFloorDiv_eq_floorDiv, mkFloorMod_eq_floorMod, mkRamp_eq_ramp, List.forall_mem_cons,
      List.forall_mem_append]
    exact and_rotate.symm

theorem Built.folded (h : Built e) : Folded e := by
  induction h with
  | int v => trivial
  | var x => trivial
  | add _ _ iha ihb => exact folded_mkAdd iha ihb
  | sub _ _ iha ihb => exact folded_mkSub iha ihb
  | mul _ _ iha ihb => exact folded_mkMul iha ihb
  | floorDiv _ _ iha ihb => exact folded_mkFloorDiv iha ihb
  | floorMod _ _ iha ihb => exact folded_mkFloorMod iha ihb
  | ramp _ _ n iha ihb => exact folded_mkRamp iha ihb n

theorem built_fold (e : Index) : Built e.fold := by
  induction e with
  | int v => exact .int v
  | var x => exact .var x
  | add a b iha ihb => exact .add iha ihb
  | sub a b iha ihb => exact .sub iha ihb
  | mul a b iha ihb => exact .mul iha ihb
  | floorDiv a b iha ihb => exact .floorDiv iha ihb
  | floorMod a b iha ihb => exact .floorMod iha ihb
  | ramp a b n iha ihb => exact .ramp iha ihb n

theorem fold_eq_self_iff : e.fold = e ↔ Folded e := by
  refine ⟨fun h ↦ ?_, fold_of_folded⟩
  rw [← h]
  exact folded_fold e

/-- An expression can be made with the folding constructors alone exactly if folding leaves it as it
is, and exactly if no part of it calls for a folding. Whatever folding gives is made so, and folding
it again changes nothing. -/
theorem fold_fixes_built (e : Index) :
    (Built e ↔ e.fold = e) ∧ (Built e ↔ ∀ s ∈ e.parts, Settled s) ∧
      Built e.fold ∧ e.fold.fold = e.fold := by
  have hbuilt : Built e ↔ Folded e := by
    refine ⟨Built.folded, fun h ↦ ?_⟩
    rw [← fold_of_folded h]
    exact built_fold e
  refine ⟨?_, ?_, built_fold e, fold_of_folded (folded_fold e)⟩
  · rw [hbuilt, fold_eq_self_iff]
  · rw [hbuilt, folded_iff_settled]

-- a difference that overflows and a division by zero are left as they are
example : fold (floorDiv (sub (int Int64.minValue) (int 1)) (int 0)) =
    floorDiv (sub (int Int64.minValue) (int 1)) (int 0) := by decide

end TensorOpt.Index
