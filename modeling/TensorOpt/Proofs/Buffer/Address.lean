import Mathlib.Data.List.Forall2
import TensorOpt.Index.Buffer
import TensorOpt.Proofs.Index.Normalize

namespace TensorOpt

open Index

variable {ρ : Valuation} {prepare : Simplifier} {b : Buffer} {indices : List Index} {e : Index}
  {base v : Int} {is ds steps : List Int}

def Index.Values (ρ : Valuation) (es : List Index) (vs : List Int) : Prop :=
  List.Forall₂ (fun e v ↦ e.value ρ = some v) es vs

theorem Index.Values.length_eq {es : List Index} {vs : List Int} (h : Values ρ es vs) :
    es.length = vs.length := List.Forall₂.length_eq h

theorem Index.Values.tail {es : List Index} {vs : List Int} (h : Values ρ es vs) :
    Values ρ es.tail vs.tail := by
  cases h with
  | nil => exact .nil
  | cons _ hrest => exact hrest

namespace Buffer

/-- How far the indices lead away from the base, given the step along each dimension. -/
def displacement (is steps : List Int) : Int := (List.zipWith (· * ·) is steps).sum

/-- The steps along the dimensions of a dense buffer: for each dimension the product of the extents
behind it. The extent of the first dimension plays no part and is left out of `inner`. -/
def denseSteps (inner : List Int) : List Int := inner.tails.map List.prod

@[simp]
theorem displacement_nil (steps : List Int) : displacement [] steps = 0 := rfl

@[simp]
theorem displacement_cons (i step : Int) (is steps : List Int) :
    displacement (i :: is) (step :: steps) = i * step + displacement is steps := by
  rw [displacement, List.zipWith_cons_cons, List.sum_cons]
  rfl

@[simp]
theorem denseSteps_nil : denseSteps [] = [1] := rfl

@[simp]
theorem denseSteps_cons (d : Int) (ds : List Int) :
    denseSteps (d :: ds) = d * ds.prod :: denseSteps ds := by
  simp [denseSteps]

/-- The first step is over all that lies behind the first dimension. -/
theorem displacement_denseSteps (i : Int) (hlength : is.length = ds.length) :
    displacement (i :: is) (denseSteps ds) =
      i * ds.prod + displacement is (denseSteps ds.tail) := by
  cases ds with
  | nil =>
    obtain rfl := List.length_eq_zero_iff.1 hlength
    simp
  | cons d ds => simp

/-- One multiplication and one addition for each dimension come to the same as the sum of all
indices times their steps. -/
theorem foldl_denseSteps (v : Int) (hlength : is.length = ds.length) :
    (is.zip ds).foldl (fun v p ↦ v * p.2 + p.1) v = displacement (v :: is) (denseSteps ds) := by
  induction is generalizing ds v with
  | nil =>
    obtain rfl := List.length_eq_zero_iff.1 hlength.symm
    simp
  | cons i is ih =>
    cases ds with
    | nil => simp at hlength
    | cons d ds =>
      have htail : is.length = ds.length := Nat.succ.inj hlength
      rw [List.zip_cons_cons, List.foldl_cons, ih _ htail, denseSteps_cons, displacement_cons,
        displacement_denseSteps _ htail, displacement_denseSteps _ htail]
      ring

theorem foldl_steps (v : Int) (is steps : List Int) :
    (is.zip steps).foldl (fun v p ↦ v + p.1 * p.2) v = v + displacement is steps := by
  induction is generalizing steps v with
  | nil => simp
  | cons i is ih =>
    cases steps with
    | nil => simp [displacement]
    | cons step steps =>
      rw [List.zip_cons_cons, List.foldl_cons, ih, displacement_cons]
      ring

/-- What each step of a loop over the dimensions does to the value, the whole loop does. -/
theorem value_foldl {step : Index → Index × Index → Index} {f : Int → Int × Int → Int}
    (hstep : ∀ {o i s : Index} {v x y : Int}, o.value ρ = some v → i.value ρ = some x →
      s.value ρ = some y → (step o (i, s)).value ρ = some (f v (x, y)))
    {ss : List Index} (he : e.value ρ = some v) (hindices : Values ρ indices is)
    (hsteps : Values ρ ss steps) :
    ((indices.zip ss).foldl step e).value ρ = some ((is.zip steps).foldl f v) := by
  induction hindices generalizing ss steps e v with
  | nil => exact he
  | cons hi _ ih =>
    cases hsteps with
    | nil => exact he
    | cons hs hsteps => exact ih (hstep he hi hs) hsteps

theorem value_denseOffset {shape : List Index} (hp : Preserves ρ prepare)
    (hlength : shape.length = indices.length) (hindices : Values ρ indices is)
    (hshape : Values ρ shape.tail ds) (hne : indices ≠ []) :
    ∃ e, denseOffset prepare (indices.zip shape) = some e ∧
      e.value ρ = some (displacement is (denseSteps ds)) := by
  cases hindices with
  | nil => exact absurd rfl hne
  | @cons first i rest is hfirst hrest =>
    cases shape with
    | nil => cases hlength
    | cons d shape =>
      have htail : is.length = ds.length := by
        rw [← hrest.length_eq, ← hshape.length_eq]
        exact (Nat.succ.inj hlength).symm
      refine ⟨_, rfl, ?_⟩
      rw [← foldl_denseSteps i htail]
      refine value_foldl (fun ho hi hs ↦ ?_) hfirst hrest hshape
      exact value_normalize hp (value_mkAdd (value_mkMul ho hs) hi)

theorem value_stridedOffset {start : Index} {strides : List Index} (hp : Preserves ρ prepare)
    (hstart : start.value ρ = some base) (hindices : Values ρ indices is)
    (hstrides : Values ρ strides steps) :
    (stridedOffset prepare start (indices.zip strides)).value ρ =
      some (base + displacement is steps) := by
  cases hindices with
  | nil => simpa [stridedOffset] using hstart
  | @cons first i rest is hfirst hrest =>
    cases hstrides with
    | nil => simpa [stridedOffset, displacement] using hstart
    | @cons stride step strides steps hstride hstrides =>
      have hhead := value_mkMul hfirst hstride
      -- a base that is the constant zero is left out of the sum
      have hsum : (if start = .int 0 then mkMul first stride
          else mkAdd start (mkMul first stride)).value ρ = some (base + i * step) := by
        split
        next hzero =>
          subst hzero
          obtain rfl : (0 : Int) = base := Option.some.inj hstart
          rwa [zero_add]
        next => exact value_mkAdd hstart hhead
      rw [displacement_cons, ← add_assoc, ← foldl_steps]
      refine value_foldl (fun ho hi hs ↦ ?_) (value_normalize hp hsum) hrest hstrides
      exact value_normalize hp (value_mkAdd ho (value_mkMul hi hs))

theorem elementOffset_dense (hp : Preserves ρ prepare) (hdense : b.strides = [])
    (hlength : b.shape.length = indices.length) (hbase : b.base.value ρ = some base)
    (hindices : Values ρ indices is) (hshape : Values ρ b.shape.tail ds) :
    ∃ e, b.elementOffset prepare indices = .ok e ∧
      e.value ρ = some (base + displacement is (denseSteps ds)) := by
  by_cases hne : indices = []
  · subst hne
    cases hindices
    have hshape : b.shape = [] := List.length_eq_zero_iff.1 hlength
    refine ⟨b.base, ?_, by simpa using hbase⟩
    simp [elementOffset, hdense, hshape, denseOffset]
  · obtain ⟨offset, hoffset, hvalue⟩ := value_denseOffset hp hlength hindices hshape hne
    refine ⟨mkAdd b.base offset, ?_, value_mkAdd hbase hvalue⟩
    have hnonempty : b.shape ≠ [] := by
      intro hempty
      rw [hempty] at hlength
      exact hne (List.length_eq_zero_iff.1 hlength.symm)
    simp [elementOffset, hdense, hnonempty, hlength, hoffset]

theorem elementOffset_strided (hp : Preserves ρ prepare) (hstrided : b.strides ≠ [])
    (hlength : b.strides.length = indices.length) (hbase : b.base.value ρ = some base)
    (hindices : Values ρ indices is) (hstrides : Values ρ b.strides steps) :
    ∃ e, b.elementOffset prepare indices = .ok e ∧
      e.value ρ = some (base + displacement is steps) := by
  refine ⟨_, ?_, value_stridedOffset hp hbase hindices hstrides⟩
  simp [elementOffset, hstrided, hlength]

def arity (b : Buffer) : Nat := if b.strides = [] then b.shape.length else b.strides.length

def IsScalar (b : Buffer) : Prop := b.strides = [] ∧ b.shape = []

theorem elementOffset_scalar (hscalar : b.IsScalar) (i : Index) : b.elementOffset prepare [i] =
    if i = .int 0 then .ok (mkAdd b.base i) else .error (.scalarIndex b.name i) := by
  simp [elementOffset, hscalar.1, hscalar.2]

theorem elementOffset_arity (harity : b.arity ≠ indices.length)
    (hscalar : ¬(b.IsScalar ∧ indices.length = 1)) :
    b.elementOffset prepare indices = .error (.arity b.name b.arity indices.length) := by
  by_cases hdense : b.strides = []
  · have hsingle (i : Index) (hshape : b.shape = []) : indices ≠ [i] := by
      rintro rfl
      exact hscalar ⟨⟨hdense, hshape⟩, rfl⟩
    rw [arity, if_pos hdense] at harity ⊢
    rw [elementOffset]
    · exact if_neg harity
    · exact hdense
    · exact hsingle
  · rw [arity, if_neg hdense] at harity ⊢
    simp [elementOffset, hdense, harity]

/-- An access with as many indices as the buffer takes has the address that the formula gives, where
the base, the indices and the steps have values. A buffer of one element may also be given the index
`0`. All other accesses are refused. -/
theorem elementOffset_eq_address (b : Buffer) (hp : Preserves ρ prepare) (indices : List Index) :
    (∀ base is, b.base.value ρ = some base → Values ρ indices is →
      (b.strides = [] → b.shape.length = indices.length → ∀ ds, Values ρ b.shape.tail ds →
        ∃ e, b.elementOffset prepare indices = .ok e ∧
          e.value ρ = some (base + displacement is (denseSteps ds))) ∧
      (b.strides ≠ [] → b.strides.length = indices.length → ∀ steps, Values ρ b.strides steps →
        ∃ e, b.elementOffset prepare indices = .ok e ∧
          e.value ρ = some (base + displacement is steps))) ∧
    (b.IsScalar → indices = [] ∨ indices = [.int 0] → ∀ base, b.base.value ρ = some base →
      ∃ e, b.elementOffset prepare indices = .ok e ∧ e.value ρ = some base) ∧
    (b.IsScalar → ∀ i, i ≠ .int 0 → indices = [i] →
      b.elementOffset prepare indices = .error (.scalarIndex b.name i)) ∧
    (b.arity ≠ indices.length → ¬(b.IsScalar ∧ indices.length = 1) →
      b.elementOffset prepare indices = .error (.arity b.name b.arity indices.length)) := by
  refine ⟨fun base is hbase hindices ↦ ⟨?_, ?_⟩, ?_, ?_, elementOffset_arity⟩
  · intro hdense hlength ds hshape
    exact elementOffset_dense hp hdense hlength hbase hindices hshape
  · intro hstrided hlength steps hstrides
    exact elementOffset_strided hp hstrided hlength hbase hindices hstrides
  · rintro hscalar (rfl | rfl) base hbase
    · have hlength : b.shape.length = ([] : List Index).length := by rw [hscalar.2]
      have hshape : Values ρ b.shape.tail [] := by
        rw [hscalar.2]
        exact .nil
      simpa using elementOffset_dense hp hscalar.1 hlength hbase .nil hshape
    · refine ⟨mkAdd b.base (.int 0), ?_, ?_⟩
      · rw [elementOffset_scalar hscalar, if_pos rfl]
      · simpa using value_mkAdd hbase (show (Index.int 0).value ρ = some 0 from rfl)
  · rintro hscalar i hi rfl
    rw [elementOffset_scalar hscalar, if_neg hi]

def splitRows : Buffer where
  name := "A"
  dtype := ⟨.float, 32, 1⟩
  shape := [.var "n", .var "m", .int 4]
  base := .var "start"

theorem elementOffset_eq_address_splitRows :
    let ρ : Valuation := fun x ↦ [("start", 100), ("m", 5), ("i", 2), ("c", 7)].lookup x
    let indices := [.var "i", .floorDiv (.var "c") (.int 4), .floorMod (.var "c") (.int 4)]
    Preserves ρ fold ∧ splitRows.base.value ρ = some 100 ∧ Values ρ indices [2, 1, 3] ∧
      Values ρ splitRows.shape.tail [5, 4] ∧
        ∃ e, splitRows.elementOffset fold indices = .ok e ∧ e.value ρ = some 147 := by
  intro ρ indices
  have hbase : splitRows.base.value ρ = some 100 := rfl
  have hindices : Values ρ indices [2, 1, 3] := .cons rfl (.cons rfl (.cons rfl .nil))
  have hshape : Values ρ splitRows.shape.tail [5, 4] := .cons rfl (.cons rfl .nil)
  refine ⟨preserves_fold, hbase, hindices, hshape, ?_⟩
  exact ((elementOffset_eq_address splitRows preserves_fold indices).1 100 [2, 1, 3] hbase
    hindices).1 rfl rfl [5, 4] hshape

end Buffer

end TensorOpt
