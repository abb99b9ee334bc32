import TensorOpt.Proofs.Except
import TensorOpt.Proofs.Index.Range

namespace TensorOpt.Index

variable {env : Env} {base stride e : Index} {lanes : UInt16} {x s w : Word} {ws : List Word}

theorem evalLanes_of_eval (h : eval env e = .ok w) : evalLanes env e = .ok [w] := by
  cases e with
  | ramp _ _ _ => cases h
  | _ => exact Except.bind_eq_ok.2 ⟨w, h, rfl⟩

def lane (e : Index) (x s : Word) (i : Nat) : Except EvalError Word := do
  let step ← checked e (Word.mul? (Int64.ofNat i) s)
  checked e (x.add? step)

theorem evalLanes_ramp : evalLanes env (ramp base stride lanes) = .ok ws ↔
    ∃ x s, eval env base = .ok x ∧ eval env stride = .ok s ∧
      List.Forall₂ (fun i w ↦ lane (ramp base stride lanes) x s i = .ok w)
        (List.range lanes.toNat) ws := by
  simp only [evalLanes, Except.bind_eq_ok, ← Except.mapM_eq_ok]
  constructor
  · rintro ⟨x, hx, s, hs, h⟩
    exact ⟨x, s, hx, hs, h⟩
  · rintro ⟨x, s, hx, hs, h⟩
    exact ⟨x, hx, s, hs, h⟩

/-- A lane fails or not whatever it is named. -/
theorem lane_ok {e' : Index} {i : Nat} (h : lane e x s i = .ok w) : lane e' x s i = .ok w := by
  obtain ⟨step, hstep, hw⟩ := Except.bind_eq_ok.1 h
  exact Except.bind_eq_ok.2 ⟨step, checked_ok hstep, checked_ok hw⟩

/-- The first lane is the base. -/
theorem lane_zero (e : Index) (x s : Word) : lane e x s 0 = .ok x := by
  have hstep : Word.mul? (Int64.ofNat 0) s = some 0 :=
    Word.ofInt?_eq_some_iff.2 (Int.zero_mul _).symm
  have hsum : x.add? 0 = some x := Word.ofInt?_eq_some_iff.2 (Int.add_zero _).symm
  rw [lane, hstep]
  exact congrArg (checked e) hsum

theorem evalLanes_fold_ramp (h : evalLanes env (ramp base stride lanes) = .ok ws) :
    evalLanes env (ramp base stride lanes).fold = .ok ws := by
  obtain ⟨x, s, hx, hs, hlanes⟩ := evalLanes_ramp.1 h
  rw [fold, mkRamp]
  split
  next hone =>
    subst hone
    obtain _ | ⟨hfirst, hrest⟩ := hlanes
    cases hrest
    cases (lane_zero _ x s).symm.trans hfirst
    exact evalLanes_of_eval (eval_fold hx)
  next =>
    refine evalLanes_ramp.2 ⟨x, s, eval_fold hx, eval_fold hs, ?_⟩
    exact hlanes.imp fun i w hw ↦ lane_ok hw

/-- Folding keeps whatever an expression evaluates to, be it one value or one for each lane. What
evaluates still does so once it is folded, and no value changes. -/
theorem fold_keeps_evaluation (env : Env) (e : Index) :
    (∀ w, eval env e = .ok w → eval env e.fold = .ok w) ∧
      ∀ ws, evalLanes env e = .ok ws → evalLanes env e.fold = .ok ws := by
  refine ⟨fun w ↦ eval_fold, fun ws h ↦ ?_⟩
  have hscalar (h : (do return [← eval env e] : Except EvalError (List Word)) = .ok ws) :
      evalLanes env e.fold = .ok ws := by
    obtain ⟨w, hw, h⟩ := Except.bind_eq_ok.1 h
    cases h
    exact evalLanes_of_eval (eval_fold hw)
  cases e with
  | ramp base stride lanes => exact evalLanes_fold_ramp h
  | _ => exact hscalar h

/-- The lanes start at the least word, and the division by `-1` in the stride cannot be folded. -/
theorem fold_keeps_evaluation_leastWord :
    let e := ramp (add (mul (int (-9223372036854775808)) (int 1)) (sub (var "i") (var "i")))
      (floorDiv (add (var "i") (int 0)) (int (-1))) 3
    let env : Env := fun _ ↦ some (-2)
    let lanes : List Word := [-9223372036854775808, -9223372036854775806, -9223372036854775804]
    evalLanes env e = .ok lanes ∧
      e.fold = ramp (int (-9223372036854775808)) (floorDiv (var "i") (int (-1))) 3 ∧
        evalLanes env e.fold = .ok lanes := by
  intro e env lanes
  have hlanes : evalLanes env e = .ok lanes := by decide +kernel
  exact ⟨hlanes, by decide +kernel, (fold_keeps_evaluation env e).2 lanes hlanes⟩

end TensorOpt.Index
