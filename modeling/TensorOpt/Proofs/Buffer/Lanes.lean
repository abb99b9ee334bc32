import TensorOpt.Proofs.Buffer.Aliasing
import TensorOpt.Proofs.Index.Lanes

namespace TensorOpt

open Index

variable {env : Env} {e : Index} {lanes : UInt16} {x o w : Word} {ws : List Word}

namespace Index

theorem eval_mkMul {a c : Index} {y : Word} (ha : eval env a = .ok x) (hc : eval env c = .ok y)
    (hw : w.toInt = x.toInt * y.toInt) : eval env (mkMul a c) = .ok w := by
  have hnode : eval env (mul a c) = .ok w := by
    rw [eval, ha, hc]
    show checked _ (x.mul? y) = .ok w
    rw [Word.mul?, Word.ofInt?_eq_some_iff.2 hw]
    rfl
  refine eval_of_folding (folding_mkMul a c) ha hc hnode ?_
  rw [hw]
  exact value_mkMul (value_of_eval ha) (value_of_eval hc)

theorem lane_one {i : Nat} (hi : i ≤ lanes.toNat) (hw : w.toInt = x.toInt + i) :
    lane e x 1 i = .ok w := by
  have hstep : Word.mul? (Int64.ofNat i) 1 = some (Int64.ofNat i) :=
    Word.ofInt?_eq_some_iff.2 (Int.mul_one _).symm
  have hsum : x.add? (Int64.ofNat i) = some w := by
    rw [Word.add?, toInt_ofNat_lane hi]
    exact Word.ofInt?_eq_some_iff.2 hw
  rw [lane, hstep]
  exact congrArg (checked e) hsum

/-- Lanes one after the other evaluate wherever their values are words. -/
theorem evalLanes_mkRamp (hx : eval env e = .ok x)
    (hws : ws.map Int64.toInt = lanesFrom x.toInt lanes.toNat) :
    evalLanes env (mkRamp e (int 1) lanes) = .ok ws := by
  rw [mkRamp]
  split
  next hone =>
    subst hone
    have hsingle : ws.map Int64.toInt = [x].map Int64.toInt := by simpa [lanesFrom] using hws
    rw [List.map_injective_iff.2 (fun _ _ ↦ Int64.toInt_inj.1) hsingle]
    exact evalLanes_of_eval hx
  next =>
    refine evalLanes_ramp.2 ⟨x, 1, hx, rfl, ?_⟩
    rw [lanesFrom, ← List.forall₂_eq_eq_eq, List.forall₂_map_left_iff,
      List.forall₂_map_right_iff] at hws
    have hlanes := (List.forall₂_and_left _ _).2
      ⟨fun i hi ↦ (List.mem_range.1 hi).le, hws.flip⟩
    exact hlanes.imp fun i w hw ↦ lane_one hw.1 hw.2

theorem head?_lanesFrom (v : Int) {n : Nat} (hn : 0 < n) : (lanesFrom v n).head? = some v := by
  obtain ⟨m, rfl⟩ := Nat.exists_eq_add_of_lt hn
  simp [lanesFrom, List.range_succ_eq_map]

end Index

namespace Buffer

variable {prepare : Simplifier} {b : Buffer} {indices : List Index} {access : DType}

def width (b : Buffer) : Nat := if b.dtype.isVector then b.dtype.lanes.toNat else 1

theorem eval_start (ho : eval env e = .ok o) (hx : x.toInt = o.toInt * b.pace access) :
    eval env (b.start e access) = .ok x := by
  rw [start]
  rw [pace] at hx
  split at hx
  next hvector =>
    rw [if_pos hvector]
    exact eval_mkMul ho rfl (by rw [hx, toInt_ofNat_lane le_rfl])
  next hscalar =>
    rw [Nat.cast_one, mul_one, Int64.toInt_inj] at hx
    rw [if_neg hscalar, hx]
    exact ho

theorem mul_pace_eq_iff : o.toInt * b.pace access = o.toInt * b.width ↔
    (b.dtype.isVector → access.lanes = b.dtype.lanes ∨ o = 0) := by
  have hzero : o.toInt = 0 ↔ o = 0 := by rw [← Int64.toInt_zero, Int64.toInt_inj]
  rw [pace, width]
  split
  next hvector =>
    rw [mul_eq_mul_left_iff, Nat.cast_inj, UInt16.toNat_inj, hzero]
    exact ⟨fun h _ ↦ h, fun h ↦ h hvector⟩
  next hscalar => exact ⟨fun _ h ↦ absurd h hscalar, fun _ ↦ rfl⟩

/-- An access with some lanes to the element at `o` is given as many lanes from `o` times its own
number of lanes on, or from `o` on if the elements are no vectors. These are the lanes from the
first of the element on if the access has as many lanes as the elements, and otherwise only if `o`
is zero. -/
theorem lanes_of_access (hlanes : 1 ≤ access.lanes)
    (he : b.elementOffset prepare indices = .ok e) (ho : eval env e = .ok o) :
    ∃ f, b.laneOffset prepare indices access = .ok f ∧
      (∀ ws, ws.map Int64.toInt = lanesFrom (o.toInt * b.pace access) access.lanes.toNat →
        evalLanes env f = .ok ws) ∧
      ∀ ws, ws.map Int64.toInt = lanesFrom (o.toInt * b.width) access.lanes.toNat →
        (evalLanes env f = .ok ws ↔
          (b.dtype.isVector → access.lanes = b.dtype.lanes ∨ o = 0)) := by
  have hpos : 0 < access.lanes.toNat := UInt16.le_iff_toNat_le.1 hlanes
  have hlanes' : ∀ ws, ws.map Int64.toInt =
      lanesFrom (o.toInt * b.pace access) access.lanes.toNat →
        evalLanes env (mkRamp (b.start e access) (.int 1) access.lanes) = .ok ws := by
    intro ws hws
    -- the first lane is a word, and therefore the start evaluates
    have hfirst := head?_lanesFrom (o.toInt * b.pace access) hpos
    rw [← hws, List.head?_map, Option.map_eq_some_iff] at hfirst
    obtain ⟨x, -, hx⟩ := hfirst
    exact evalLanes_mkRamp (eval_start ho hx) (by rw [hx, hws])
  refine ⟨_, laneOffset_eq hlanes he, hlanes', fun ws hws ↦ ?_⟩
  rw [← mul_pace_eq_iff]
  constructor
  · intro h
    have hexact := (laneValues_of_evalLanes h).symm.trans
      (laneValues_mkRamp access.lanes (value_start access (value_of_eval ho)))
    have hfirst := congrArg List.head? (Option.some.inj hexact)
    rw [hws, head?_lanesFrom _ hpos, head?_lanesFrom _ hpos] at hfirst
    exact (Option.some.inj hfirst).symm
  · intro hpace
    exact hlanes' ws (by rw [hws, hpace])

theorem lanes_of_access_vectorRows :
    let env : Env := fun x ↦ [("start", 10), ("i", 1), ("j", 2)].lookup x
    let e := add (var "start") (add (mul (var "i") (int 3)) (var "j"))
    let access : DType := ⟨.float, 32, 4⟩
    1 ≤ access.lanes ∧ vectorRows.elementOffset fold [var "i", var "j"] = .ok e ∧
      eval env e = .ok 15 ∧ ∃ f, vectorRows.laneOffset fold [var "i", var "j"] access = .ok f ∧
        evalLanes env f = .ok [60, 61, 62, 63] := by
  intro env e access
  have hlanes : 1 ≤ access.lanes := by decide
  have he : vectorRows.elementOffset fold [var "i", var "j"] = .ok e := by decide +kernel
  have ho : eval env e = .ok 15 := by decide +kernel
  obtain ⟨f, hf, -, hwidth⟩ := lanes_of_access hlanes he ho
  exact ⟨hlanes, he, ho, f, hf, (hwidth [60, 61, 62, 63] (by decide)).2 fun _ ↦ .inl rfl⟩

def vectorRow : Buffer where
  name := "B"
  dtype := ⟨.float, 32, 4⟩
  shape := [.var "n"]

/-- Two lanes of the element at `1` are asked for, whose lanes are `4` to `7`, and lanes of the
element at `0` are given. -/
theorem lanes_of_access_miss_vectorRow :
    let env : Env := fun x ↦ [("i", 1)].lookup x
    let access : DType := ⟨.float, 32, 2⟩
    vectorRow.elementOffset fold [var "i"] = .ok (var "i") ∧ eval env (var "i") = .ok 1 ∧
      lanesFrom (1 * vectorRow.width) access.lanes.toNat = [4, 5] ∧
      ∃ f, vectorRow.laneOffset fold [var "i"] access = .ok f ∧ evalLanes env f = .ok [2, 3] :=
  ⟨by decide, by decide, by decide, ramp (mul (var "i") (int 2)) (int 1) 2, by decide,
    by decide +kernel⟩

end Buffer

end TensorOpt
