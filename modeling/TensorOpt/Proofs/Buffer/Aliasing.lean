import TensorOpt.Proofs.Buffer.Address
import TensorOpt.Proofs.Except

namespace TensorOpt

open Index

variable {ρ : Valuation} {prepare : Simplifier} {b : Buffer} {indices indices' : List Index}
  {e : Index} {env : Env} {base o o' : Int} {is is' ds ls ls' : List Int} {access : DType}

namespace Index

def laneValues (ρ : Valuation) : Index → Option (List Int)
  | ramp base stride lanes => do
    let x ← base.value ρ
    let s ← stride.value ρ
    return (List.range lanes.toNat).map fun i : Nat ↦ x + i * s
  | e => do return [← e.value ρ]

def lanesFrom (start : Int) (lanes : Nat) : List Int :=
  (List.range lanes).map fun i : Nat ↦ start + i

theorem laneValues_of_value {v : Int} (h : e.value ρ = some v) : e.laneValues ρ = some [v] := by
  cases e with
  | ramp _ _ _ => cases h
  | _ => simp [laneValues, h]

theorem laneValues_mkRamp {v : Int} (lanes : UInt16) (h : e.value ρ = some v) :
    (mkRamp e (int 1) lanes).laneValues ρ = some (lanesFrom v lanes.toNat) := by
  rw [mkRamp]
  split
  next hone =>
    subst hone
    rw [laneValues_of_value h]
    simp [lanesFrom]
  next =>
    have hone : (Index.int 1).value ρ = some 1 := rfl
    simp [laneValues, h, hone, lanesFrom]

/-- Lane numbers are words. -/
theorem toInt_ofNat_lane {lanes : UInt16} {i : Nat} (hi : i ≤ lanes.toNat) :
    (Int64.ofNat i).toInt = i := by
  have hlanes : lanes.toNat < 2 ^ 16 := lanes.toNat_lt
  exact Int64.toInt_ofNat_of_lt (by omega)

/-- Lanes that evaluate over words have their exact values. -/
theorem laneValues_of_evalLanes {ws : List Word} (h : evalLanes env e = .ok ws) :
    e.laneValues env.exact = some (ws.map Int64.toInt) := by
  have hscalar (h : (do return [← eval env e] : Except EvalError (List Word)) = .ok ws) :
      (do return [← e.value env.exact] : Option (List Int)) = some (ws.map Int64.toInt) := by
    obtain ⟨w, hw, h⟩ := Except.bind_eq_ok.1 h
    cases h
    rw [value_of_eval hw]
    rfl
  cases e with
  | ramp base stride lanes =>
    simp only [evalLanes, Except.bind_eq_ok] at h
    obtain ⟨x, hx, s, hs, h⟩ := h
    have hlanes := (List.forall₂_and_left _ _).2
      ⟨fun i hi ↦ List.mem_range.1 hi, Except.mapM_eq_ok.1 h⟩
    simp only [laneValues, value_of_eval hx, value_of_eval hs]
    refine congrArg some ?_
    rw [← List.forall₂_eq_eq_eq, List.forall₂_map_left_iff, List.forall₂_map_right_iff]
    refine hlanes.imp fun i w hw ↦ ?_
    obtain ⟨hi, step, hstep, hw⟩ := hw.imp_right Except.bind_eq_ok.1
    have hstep' := Word.ofInt?_eq_some_iff.1 (checked_eq_ok hstep)
    rw [toInt_ofNat_lane hi.le] at hstep'
    rw [Word.ofInt?_eq_some_iff.1 (checked_eq_ok hw), hstep']
  | _ => exact hscalar h

end Index

namespace Buffer

def InRange (is ds : List Int) : Prop := List.Forall₂ (fun i d ↦ 0 ≤ i ∧ i < d) is ds

/-- `d` blocks of `n` elements each, of which `i` lie before the element that is `r`-th in its
block. -/
theorem block_lt {i d n r : Int} (hi : 0 ≤ i ∧ i < d) (hr : 0 ≤ r ∧ r < n) :
    0 ≤ i * n + r ∧ i * n + r < d * n := by
  have hn : 0 ≤ n := hr.1.trans hr.2.le
  refine ⟨add_nonneg (mul_nonneg hi.1 hn) hr.1, ?_⟩
  calc i * n + r < i * n + n := add_lt_add_right hr.2 _
    _ = (i + 1) * n := by ring
    _ ≤ d * n := mul_le_mul_of_nonneg_right hi.2 hn

theorem block_inj {i i' n r r' : Int} (hr : 0 ≤ r ∧ r < n) (hr' : 0 ≤ r' ∧ r' < n)
    (h : i * n + r = i' * n + r') : i = i' ∧ r = r' := by
  have hn : n ≠ 0 := (hr.1.trans_lt hr.2).ne'
  have hdiv (j s : Int) (hs : 0 ≤ s ∧ s < n) : (j * n + s) / n = j := by
    rw [mul_comm, Int.mul_add_ediv_left _ _ hn, Int.ediv_eq_zero_of_lt hs.1 hs.2, add_zero]
  have hi : i = i' := by rw [← hdiv i r hr, h, hdiv i' r' hr']
  subst hi
  exact ⟨rfl, add_left_cancel h⟩

theorem displacement_lt (h : InRange is ds) : 0 ≤ displacement is (denseSteps ds.tail) ∧
    displacement is (denseSteps ds.tail) < ds.prod := by
  induction h with
  | nil => simp
  | cons hi h ih =>
    rw [List.tail_cons, displacement_denseSteps _ h.length_eq, List.prod_cons]
    exact block_lt hi ih

theorem displacement_inj (h : InRange is ds) (h' : InRange is' ds)
    (heq : displacement is (denseSteps ds.tail) = displacement is' (denseSteps ds.tail)) :
    is = is' := by
  induction h generalizing is' with
  | nil =>
    cases h'
    rfl
  | cons hi h ih =>
    cases h' with
    | cons hi' h' =>
      rw [List.tail_cons, displacement_denseSteps _ h.length_eq,
        displacement_denseSteps _ h'.length_eq] at heq
      obtain ⟨rfl, hrest⟩ := block_inj (displacement_lt h) (displacement_lt h') heq
      rw [ih h' hrest]

def lanesAt (lanes : Nat) (o : Int) : List Int := (List.range lanes).map fun i : Nat ↦ o * lanes + i

theorem disjoint_lanesAt (lanes : Nat) (hne : o ≠ o') :
    (lanesAt lanes o).Disjoint (lanesAt lanes o') := by
  intro l hl hl'
  obtain ⟨i, hi, rfl⟩ := List.mem_map.1 hl
  obtain ⟨i', hi', h⟩ := List.mem_map.1 hl'
  have hbound {k : Nat} (hk : k ∈ List.range lanes) : 0 ≤ (k : Int) ∧ (k : Int) < lanes :=
    ⟨Int.natCast_nonneg k, Int.ofNat_lt.2 (List.mem_range.1 hk)⟩
  exact hne (block_inj (hbound hi) (hbound hi') h.symm).1

def start (b : Buffer) (e : Index) (access : DType) : Index :=
  if b.dtype.isVector then mkMul e (.int (Int64.ofNat access.lanes.toNat)) else e

/-- By how many lanes the accesses to an element and to the next one are apart. -/
def pace (b : Buffer) (access : DType) : Nat := if b.dtype.isVector then access.lanes.toNat else 1

theorem value_start (access : DType) (ho : e.value ρ = some o) :
    (b.start e access).value ρ = some (o * b.pace access) := by
  rw [start, pace]
  split
  next => exact value_mkMul ho (congrArg some (toInt_ofNat_lane le_rfl))
  next => rw [ho, Nat.cast_one, mul_one]

theorem laneOffset_eq (hlanes : 1 ≤ access.lanes) (he : b.elementOffset prepare indices = .ok e) :
    b.laneOffset prepare indices access =
      .ok (mkRamp (b.start e access) (.int 1) access.lanes) := by
  rw [laneOffset, he]
  refine congrArg Except.ok (ite_eq_left_iff.2 fun hscalar ↦ ?_)
  have hone : access.lanes = 1 := by
    simp only [DType.isVector, decide_eq_true_eq, UInt16.not_lt] at hscalar
    exact UInt16.le_antisymm hscalar hlanes
  rw [hone]
  rfl

theorem laneValues_laneOffset (hvector : 1 < b.dtype.lanes) (haccess : access.lanes = b.dtype.lanes)
    (he : b.elementOffset prepare indices = .ok e) (ho : e.value ρ = some o) :
    ∃ f, b.laneOffset prepare indices access = .ok f ∧
      f.laneValues ρ = some (lanesAt b.dtype.lanes.toNat o) := by
  refine ⟨_, laneOffset_eq (haccess ▸ UInt16.le_of_lt hvector) he, ?_⟩
  rw [laneValues_mkRamp _ (value_start access ho), pace, DType.isVector,
    if_pos (decide_eq_true hvector), haccess]
  rfl

theorem elementOffset_inRange (hp : Preserves ρ prepare) (hdense : b.strides = [])
    (hbase : b.base.value ρ = some base) (hshape : Values ρ b.shape ds)
    (hindices : Values ρ indices is) (hrange : InRange is ds) :
    ∃ e, b.elementOffset prepare indices = .ok e ∧
      e.value ρ = some (base + displacement is (denseSteps ds.tail)) := by
  have hlength : b.shape.length = indices.length := by
    rw [hshape.length_eq, hindices.length_eq, List.Forall₂.length_eq hrange]
  exact elementOffset_dense hp hdense hlength hbase hindices hshape.tail

/-- Words stand for the same lanes, or for lanes apart, as their exact values do. -/
theorem words_of_lanes {ws ws' : List Word} (hls : ws.map Int64.toInt = ls)
    (hls' : ws'.map Int64.toInt = ls') :
    (ls = ls' → ws = ws') ∧ (ls.Disjoint ls' → ws.Disjoint ws') := by
  subst hls hls'
  refine ⟨fun h ↦ List.map_injective_iff.2 (fun _ _ ↦ Int64.toInt_inj.1) h, fun h w hw hw' ↦ ?_⟩
  exact h (List.mem_map_of_mem hw) (List.mem_map_of_mem hw')

/-- Accesses to a dense buffer with indices in range lie within the buffer, and two of them have the
same offset exactly if they have the same indices. If the elements are vectors and are accessed as
such, the lanes of the two are the same or have none in common, also where they are evaluated over
words. -/
theorem dense_accesses_disjoint (hp : Preserves ρ prepare) (hdense : b.strides = [])
    (hbase : b.base.value ρ = some base) (hshape : Values ρ b.shape ds)
    (hindices : Values ρ indices is) (hindices' : Values ρ indices' is') (hrange : InRange is ds)
    (hrange' : InRange is' ds) :
    ∃ e e' o o', b.elementOffset prepare indices = .ok e ∧
      b.elementOffset prepare indices' = .ok e' ∧ e.value ρ = some o ∧ e'.value ρ = some o' ∧
      (0 ≤ o - base ∧ o - base < ds.prod) ∧ (0 ≤ o' - base ∧ o' - base < ds.prod) ∧
      (o - base = o' - base ↔ is = is') ∧
      ∀ access, 1 < b.dtype.lanes → access.lanes = b.dtype.lanes →
        let lanes := lanesAt b.dtype.lanes.toNat
        ∃ f f', b.laneOffset prepare indices access = .ok f ∧
          b.laneOffset prepare indices' access = .ok f' ∧ f.laneValues ρ = some (lanes o) ∧
          f'.laneValues ρ = some (lanes o') ∧ (is = is' → lanes o = lanes o') ∧
          (is ≠ is' → (lanes o).Disjoint (lanes o')) ∧
          ∀ env ws ws', Env.exact env = ρ → evalLanes env f = .ok ws → evalLanes env f' = .ok ws' →
            (is = is' → ws = ws') ∧ (is ≠ is' → ws.Disjoint ws') := by
  obtain ⟨e, he, ho⟩ := elementOffset_inRange hp hdense hbase hshape hindices hrange
  obtain ⟨e', he', ho'⟩ := elementOffset_inRange hp hdense hbase hshape hindices' hrange'
  have heq : base + displacement is (denseSteps ds.tail) =
      base + displacement is' (denseSteps ds.tail) ↔ is = is' := by
    refine ⟨fun h ↦ displacement_inj hrange hrange' (add_left_cancel h), ?_⟩
    rintro rfl
    rfl
  refine ⟨e, e', _, _, he, he', ho, ho', ?_, ?_, ?_, fun access hvector haccess ↦ ?_⟩
  · rw [add_sub_cancel_left]
    exact displacement_lt hrange
  · rw [add_sub_cancel_left]
    exact displacement_lt hrange'
  · rw [sub_left_inj, heq]
  · obtain ⟨f, hf, hlanes⟩ := laneValues_laneOffset hvector haccess he ho
    obtain ⟨f', hf', hlanes'⟩ := laneValues_laneOffset hvector haccess he' ho'
    have hsame (h : is = is') := congrArg (lanesAt b.dtype.lanes.toNat) (heq.2 h)
    have hapart (h : is ≠ is') := disjoint_lanesAt b.dtype.lanes.toNat (mt heq.1 h)
    refine ⟨f, f', hf, hf', hlanes, hlanes', hsame, hapart, ?_⟩
    rintro env ws ws' rfl hws hws'
    have hwords := Option.some.inj ((laneValues_of_evalLanes hws).symm.trans hlanes)
    have hwords' := Option.some.inj ((laneValues_of_evalLanes hws').symm.trans hlanes')
    obtain ⟨heq', hdisjoint⟩ := words_of_lanes hwords hwords'
    exact ⟨fun h ↦ heq' (hsame h), fun h ↦ hdisjoint (hapart h)⟩

def vectorRows : Buffer where
  name := "B"
  dtype := ⟨.float, 32, 4⟩
  shape := [.var "n", .int 3]
  base := .var "start"

theorem dense_accesses_disjoint_vectorRows :
    let env : Env := fun x ↦ [("start", 10), ("n", 2), ("c", 4)].lookup x
    let indices := [.floorDiv (.var "c") (.int 3), .floorMod (.var "c") (.int 3)]
    let indices' := [.int 1, .int 0]
    Preserves env.exact fold ∧ vectorRows.base.value env.exact = some 10 ∧
      Values env.exact vectorRows.shape [2, 3] ∧ Values env.exact indices [1, 1] ∧
      Values env.exact indices' [1, 0] ∧ InRange [1, 1] [2, 3] ∧ InRange [1, 0] [2, 3] ∧
      ∃ f f' ls ls', vectorRows.laneOffset fold indices ⟨.float, 32, 4⟩ = .ok f ∧
        vectorRows.laneOffset fold indices' ⟨.float, 32, 4⟩ = .ok f' ∧
        f.laneValues env.exact = some ls ∧ f'.laneValues env.exact = some ls' ∧
        ls.Disjoint ls' := by
  intro env indices indices'
  have hbase : vectorRows.base.value env.exact = some 10 := rfl
  have hshape : Values env.exact vectorRows.shape [2, 3] := .cons rfl (.cons rfl .nil)
  have hindices : Values env.exact indices [1, 1] := .cons rfl (.cons rfl .nil)
  have hindices' : Values env.exact indices' [1, 0] := .cons rfl (.cons rfl .nil)
  have hrange : InRange [1, 1] [2, 3] := .cons (by decide) (.cons (by decide) .nil)
  have hrange' : InRange [1, 0] [2, 3] := .cons (by decide) (.cons (by decide) .nil)
  refine ⟨preserves_fold, hbase, hshape, hindices, hindices', hrange, hrange', ?_⟩
  obtain ⟨-, -, o, o', -, -, -, -, -, -, -, hlanes⟩ :=
    dense_accesses_disjoint preserves_fold rfl hbase hshape hindices hindices' hrange hrange'
  obtain ⟨f, f', hf, hf', hls, hls', -, hdisjoint, -⟩ :=
    hlanes ⟨.float, 32, 4⟩ (by decide) rfl
  exact ⟨f, f', _, _, hf, hf', hls, hls', hdisjoint (by decide)⟩

end Buffer

end TensorOpt
