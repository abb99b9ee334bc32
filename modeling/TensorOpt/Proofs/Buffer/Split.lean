import TensorOpt.Index.Buffer
import TensorOpt.Proofs.Index.Saturated

namespace TensorOpt

open Index

namespace Index

variable {a e q : Index} {k : Word} {ks : List Word}

/-- The indices along a first dimension and along dimensions of the extents `ks` behind it at which
the element number `e` is found. The remainder for the last dimension is split off first. -/
def split (e : Index) : List Word → Index × List Index
  | [] => (e, [])
  | k :: ks =>
    let (q, is) := e.split ks
    (mkFloorDiv q (int k), mkFloorMod q (int k) :: is)

section Constants

theorem mkAdd_int (ha : a.int? = none) (k : Word) :
    mkAdd a (int k) = if k = 0 then a else add a (int k) := by
  rw [mkAdd, ha]
  rfl

theorem mkMul_int (ha : a.int? = none) (k : Word) :
    mkMul a (int k) = if k = 1 then a else if k = 0 then int k else mul a (int k) := by
  rw [mkMul, ha]
  rfl

theorem mkFloorDiv_int (ha : a.int? = none) (k : Word) :
    mkFloorDiv a (int k) = if k = 1 then a else floorDiv a (int k) := by
  rw [mkFloorDiv, ha]
  rfl

theorem mkFloorMod_int (ha : a.int? = none) (k : Word) :
    mkFloorMod a (int k) = if k = 1 then int 0 else floorMod a (int k) := by
  rw [mkFloorMod, ha]
  rfl

end Constants

/-- All of it is folded, and it is neither a constant, which would be folded further, nor a sum, a
product or a remainder, which would be taken apart or take part in cancellations. -/
structure Whole (q : Index) : Prop where
  folded : Folded q
  int? : q.int? = none
  addends : q.addends = [q]
  plain : Plain q

theorem whole_var (x : String) : Whole (var x) := ⟨trivial, rfl, rfl, ⟨nofun, nofun⟩⟩

namespace Whole

theorem quotient (hq : Whole q) (k : Word) : Whole (mkFloorDiv q (int k)) := by
  have hfolded : Folded (mkFloorDiv q (int k)) := folded_mkFloorDiv hq.folded trivial
  rw [mkFloorDiv_int hq.int?] at hfolded ⊢
  split
  next => exact hq
  next hk =>
    rw [if_neg hk] at hfolded
    exact ⟨hfolded, rfl, rfl, ⟨nofun, nofun⟩⟩

theorem split (he : Whole e) (ks : List Word) : Whole (e.split ks).1 := by
  induction ks with
  | nil => exact he
  | cons k ks ih => exact ih.quotient k

theorem not_isProduct (hq : Whole q) : ¬ q.isProduct := by
  cases q with
  | mul a b => exact absurd rfl (hq.plain.1 a b)
  | _ => exact Bool.false_ne_true

theorem insertAll (hq : Whole q) (t : Terms) :
    t.insertAll q.addends = { t with rest := some (mkAddTo t.rest q) } := by
  rw [hq.addends]
  cases q with
  | mul a b => exact absurd rfl (hq.plain.1 a b)
  | floorMod a b => exact absurd rfl (hq.plain.2 a b)
  | _ => rfl

theorem normalize (hq : Whole q) : normalize fold q = q := by
  refine normalize_of_saturated (fold_of_folded hq.folded) fun a b c d hproduct ↦ ?_
  rw [hq.addends, List.mem_singleton] at hproduct
  exact absurd hproduct.symm (hq.plain.1 a b)

/-- The product and the remainder are the only terms, and nothing is left besides what they
become. -/
theorem normalize_cancel (hq : Whole q)
    (hfolded : Folded (add (mul (floorDiv q (int k)) (int k)) (floorMod q (int k)))) :
    Index.normalize fold (add (mul (floorDiv q (int k)) (int k)) (floorMod q (int k))) = q := by
  have hterms : Terms.ofIndex (add (mul (floorDiv q (int k)) (int k)) (floorMod q (int k))) =
      ⟨none, [⟨floorDiv q (int k), int k⟩], [⟨q, int k⟩]⟩ := rfl
  have hcancel : cancel? ⟨floorDiv q (int k), int k⟩ ⟨q, int k⟩ = some q := if_pos ⟨rfl, rfl, rfl⟩
  have habsorbed : Remainder.absorb? ⟨q, int k⟩ [⟨floorDiv q (int k), int k⟩] = some (q, []) := by
    rw [Remainder.absorb?, hcancel]
  have hcancels : Terms.Cancels ⟨none, [⟨floorDiv q (int k), int k⟩], [⟨q, int k⟩]⟩ :=
    ⟨_, List.mem_cons_self, _, List.mem_cons_self, by rw [hcancel]; rfl⟩
  have hproducts : ¬ q.addends.any isProduct := by
    rw [hq.addends, List.any_cons, List.any_nil, Bool.or_false]
    exact hq.not_isProduct
  rw [Index.normalize, fold_of_folded hfolded, hterms, if_pos hcancels,
    Terms.cancelAll_absorb rfl habsorbed hproducts, hq.insertAll, Terms.cancelAll_done rfl]
  rfl

/-- What is divided by an extent, multiplied by it and filled up with the remainder is there
again. An extent of one leaves nothing to cancel. -/
theorem normalize_split (hq : Whole q) (hk : k ≠ 0) :
    Index.normalize fold
      (mkAdd (mkMul (mkFloorDiv q (int k)) (int k)) (mkFloorMod q (int k))) = q := by
  by_cases hone : k = 1
  · subst hone
    rw [mkFloorDiv_int hq.int?, if_pos rfl, mkFloorMod_int hq.int?, if_pos rfl,
      mkMul_int hq.int?, if_pos rfl, mkAdd_int hq.int?, if_pos rfl]
    exact hq.normalize
  · have hquotient : mkFloorDiv q (int k) = floorDiv q (int k) := by
      rw [mkFloorDiv_int hq.int?, if_neg hone]
    have hremainder : mkFloorMod q (int k) = floorMod q (int k) := by
      rw [mkFloorMod_int hq.int?, if_neg hone]
    have hproduct : mkMul (floorDiv q (int k)) (int k) = mul (floorDiv q (int k)) (int k) := by
      rw [mkMul_int rfl, if_neg hone, if_neg hk]
    rw [hquotient, hremainder, hproduct]
    exact hq.normalize_cancel ⟨⟨⟨hq.folded, trivial, hquotient⟩, trivial, hproduct⟩,
      ⟨hq.folded, trivial, hremainder⟩, rfl⟩

end Whole

theorem length_split (e : Index) (ks : List Word) : (e.split ks).2.length = ks.length := by
  induction ks with
  | nil => rfl
  | cons k ks ih => exact congrArg (· + 1) ih

end Index

namespace Buffer

variable {b : Buffer} {e s : Index} {ks : List Word}

/-- Each dimension undoes the division by its extent, and the dimensions behind it go on with the
quotient that was divided. -/
theorem denseOffset_split (he : Whole e) (s : Index) (hks : ∀ k ∈ ks, k ≠ 0) :
    denseOffset fold (((e.split ks).1 :: (e.split ks).2).zip (s :: ks.map int)) = some e := by
  induction ks with
  | nil => rfl
  | cons k ks ih =>
    obtain ⟨hk, hks⟩ := List.forall_mem_cons.1 hks
    refine Eq.trans ?_ (ih hks)
    show some (((e.split ks).2.zip (ks.map int)).foldl _ (normalize fold (mkAdd
      (mkMul (mkFloorDiv (e.split ks).1 (int k)) (int k)) (mkFloorMod (e.split ks).1 (int k))))) = _
    rw [(he.split ks).normalize_split hk]
    rfl

/-- The offset of the element at the indices into which a flat index has been split is the flat
index itself behind the base, whatever the rank and the extents of the buffer. -/
theorem elementOffset_split (hdense : b.strides = []) (hshape : b.shape = s :: ks.map int)
    (hks : ∀ k ∈ ks, 0 < k) (i : String) :
    b.elementOffset fold (((var i).split ks).1 :: ((var i).split ks).2) =
      .ok (mkAdd b.base (var i)) := by
  have hnonzero : ∀ k ∈ ks, k ≠ 0 := fun k hk hzero ↦ absurd (hks k hk) (by rw [hzero]; decide)
  have hlength : (s :: ks.map int).length =
      (((var i).split ks).1 :: ((var i).split ks).2).length := by
    rw [List.length_cons, List.length_map, List.length_cons, length_split]
  simp only [elementOffset, hdense, hshape, if_pos hlength,
    denseOffset_split (whole_var i) s hnonzero]

def columns : Buffer where
  name := "A"
  dtype := ⟨.float, 32, 1⟩
  shape := [.var "n", .int 5, .int 1, .int 4]
  base := .var "start"

theorem elementOffset_split_columns :
    let q := floorDiv (var "i") (int 4)
    let indices := [floorDiv q (int 5), floorMod q (int 5), int 0, floorMod (var "i") (int 4)]
    (∀ k ∈ [(5 : Word), 1, 4], 0 < k) ∧ indices = ((var "i").split [5, 1, 4]).1 ::
      ((var "i").split [5, 1, 4]).2 ∧
        columns.elementOffset fold indices = .ok (add (var "start") (var "i")) := by
  intro q indices
  have hks : ∀ k ∈ [(5 : Word), 1, 4], 0 < k := by
    rw [List.forall_mem_cons, List.forall_mem_cons, List.forall_mem_singleton]
    decide
  exact ⟨hks, by decide, elementOffset_split (b := columns) rfl rfl hks "i"⟩

end Buffer

end TensorOpt
