import TensorOpt.Index.Eval
import TensorOpt.Index.Normalize
import TensorOpt.Proofs.Word.Floor

namespace TensorOpt.Index

abbrev Valuation := String → Option Int

/-- The value over unbounded integers with floor division. There is none if a variable is unbound,
a divisor is zero or a ramp occurs. -/
def value (ρ : Valuation) : Index → Option Int
  | int v => some v.toInt
  | var x => ρ x
  | add a b => do return (← a.value ρ) + (← b.value ρ)
  | sub a b => do return (← a.value ρ) - (← b.value ρ)
  | mul a b => do return (← a.value ρ) * (← b.value ρ)
  | floorDiv a b => do
    let x ← a.value ρ
    let y ← b.value ρ
    if y = 0 then none else return x.fdiv y
  | floorMod a b => do
    let x ← a.value ρ
    let y ← b.value ρ
    if y = 0 then none else return x.fmod y
  | ramp .. => none

variable {ρ : Valuation} {a b e : Index} {x y v : Int}

theorem value_add : (add a b).value ρ = some v ↔
    ∃ x y, a.value ρ = some x ∧ b.value ρ = some y ∧ x + y = v := by
  simp [value, Option.bind_eq_some_iff]

theorem value_sub : (sub a b).value ρ = some v ↔
    ∃ x y, a.value ρ = some x ∧ b.value ρ = some y ∧ x - y = v := by
  simp [value, Option.bind_eq_some_iff]

theorem value_mul : (mul a b).value ρ = some v ↔
    ∃ x y, a.value ρ = some x ∧ b.value ρ = some y ∧ x * y = v := by
  simp [value, Option.bind_eq_some_iff]

theorem value_floorDiv : (floorDiv a b).value ρ = some v ↔
    ∃ x y, a.value ρ = some x ∧ b.value ρ = some y ∧ y ≠ 0 ∧ x.fdiv y = v := by
  simp [value, Option.bind_eq_some_iff]

theorem value_floorMod : (floorMod a b).value ρ = some v ↔
    ∃ x y, a.value ρ = some x ∧ b.value ρ = some y ∧ y ≠ 0 ∧ x.fmod y = v := by
  simp [value, Option.bind_eq_some_iff]

theorem eq_int_of_int? {w : Word} (h : e.int? = some w) : e = int w := by
  cases e <;> simp_all [int?]

/-- A constant operand has the value of its word. -/
theorem eq_toInt_of_int? {w : Word} (hw : e.int? = some w) (he : e.value ρ = some x) :
    x = w.toInt := by
  rw [eq_int_of_int? hw] at he
  exact (Option.some.inj he).symm

/-- An operation on two constants may be carried out, if that gives its exact value. -/
theorem value_intOr {f : Int → Int → Int} {node : Index} {u w : Word} {r : Option Word}
    (hu : a.int? = some u) (hw : b.int? = some w) (ha : a.value ρ = some x)
    (hb : b.value ρ = some y) (hnode : node.value ρ = some (f x y))
    (hr : ∀ s, r = some s → s.toInt = f u.toInt w.toInt) :
    (intOr node r).value ρ = some (f x y) := by
  cases r with
  | none => exact hnode
  | some s =>
    rw [eq_toInt_of_int? hu ha, eq_toInt_of_int? hw hb]
    exact congrArg some (hr s rfl)

theorem value_mkAdd (ha : a.value ρ = some x) (hb : b.value ρ = some y) :
    (mkAdd a b).value ρ = some (x + y) := by
  have hnode : (add a b).value ρ = some (x + y) := value_add.2 ⟨x, y, ha, hb, rfl⟩
  unfold mkAdd
  split
  · next u w hu hw => exact value_intOr hu hw ha hb hnode fun s ↦ Word.ofInt?_eq_some_iff.1
  · next u hu _ =>
    have hx := eq_toInt_of_int? hu ha
    split
    · next hzero => simpa [hx, hzero] using hb
    · exact hnode
  · next w _ hw =>
    have hy := eq_toInt_of_int? hw hb
    split
    · next hzero => simpa [hy, hzero] using ha
    · exact hnode
  · exact hnode

theorem value_mkSub (ha : a.value ρ = some x) (hb : b.value ρ = some y) :
    (mkSub a b).value ρ = some (x - y) := by
  have hnode : (sub a b).value ρ = some (x - y) := value_sub.2 ⟨x, y, ha, hb, rfl⟩
  unfold mkSub
  split
  · next u w hu hw => exact value_intOr hu hw ha hb hnode fun s ↦ Word.ofInt?_eq_some_iff.1
  · exact hnode
  · next w _ hw =>
    have hy := eq_toInt_of_int? hw hb
    split
    · next hzero => simpa [hy, hzero] using ha
    · exact hnode
  · split
    · next heq =>
      subst heq
      cases ha.symm.trans hb
      simp [value]
    · exact hnode

theorem value_mkMul (ha : a.value ρ = some x) (hb : b.value ρ = some y) :
    (mkMul a b).value ρ = some (x * y) := by
  have hnode : (mul a b).value ρ = some (x * y) := value_mul.2 ⟨x, y, ha, hb, rfl⟩
  unfold mkMul
  split
  · next u w hu hw => exact value_intOr hu hw ha hb hnode fun s ↦ Word.ofInt?_eq_some_iff.1
  · next u hu _ =>
    have hx := eq_toInt_of_int? hu ha
    split
    · next hone => simpa [hx, hone] using hb
    · split
      · next hzero => simpa [hx, hzero] using ha
      · exact hnode
  · next w _ hw =>
    have hy := eq_toInt_of_int? hw hb
    split
    · next hone => simpa [hy, hone] using ha
    · split
      · next hzero => simpa [hy, hzero] using hb
      · exact hnode
  · exact hnode

theorem value_mkFloorDiv (ha : a.value ρ = some x) (hb : b.value ρ = some y) (hy : y ≠ 0) :
    (mkFloorDiv a b).value ρ = some (x.fdiv y) := by
  have hnode : (floorDiv a b).value ρ = some (x.fdiv y) :=
    value_floorDiv.2 ⟨x, y, ha, hb, hy, rfl⟩
  unfold mkFloorDiv
  split
  · next u w hu hw => exact value_intOr hu hw ha hb hnode fun s hs ↦ (Word.toInt_floorDiv? hs).2
  · next u hu _ =>
    have hx := eq_toInt_of_int? hu ha
    split
    · next hzero => simpa [hx, hzero] using ha
    · exact hnode
  · next w _ hw =>
    have hy := eq_toInt_of_int? hw hb
    split
    · next hone => simpa [hy, hone, Int.fdiv_one] using ha
    · exact hnode
  · exact hnode

theorem value_mkFloorMod (ha : a.value ρ = some x) (hb : b.value ρ = some y) (hy : y ≠ 0) :
    (mkFloorMod a b).value ρ = some (x.fmod y) := by
  have hnode : (floorMod a b).value ρ = some (x.fmod y) :=
    value_floorMod.2 ⟨x, y, ha, hb, hy, rfl⟩
  unfold mkFloorMod
  split
  · next u w hu hw => exact value_intOr hu hw ha hb hnode fun s hs ↦ (Word.toInt_floorMod? hs).2
  · next u hu _ =>
    have hx := eq_toInt_of_int? hu ha
    split
    · next hzero => simpa [hx, hzero] using ha
    · exact hnode
  · next w _ hw =>
    have hy := eq_toInt_of_int? hw hb
    split
    · next hone => simp [hy, hone, value, Int.fmod_one]
    · exact hnode
  · exact hnode

def Preserves (ρ : Valuation) (prepare : Simplifier) : Prop :=
  ∀ e v, e.value ρ = some v → (prepare e).value ρ = some v

theorem preserves_id : Preserves ρ id := fun _ _ h ↦ h

theorem preserves_fold : Preserves ρ fold := by
  intro e v h
  induction e generalizing v with
  | int w => exact h
  | var x => exact h
  | add a b iha ihb =>
    obtain ⟨x, y, ha, hb, rfl⟩ := value_add.1 h
    exact value_mkAdd (iha x ha) (ihb y hb)
  | sub a b iha ihb =>
    obtain ⟨x, y, ha, hb, rfl⟩ := value_sub.1 h
    exact value_mkSub (iha x ha) (ihb y hb)
  | mul a b iha ihb =>
    obtain ⟨x, y, ha, hb, rfl⟩ := value_mul.1 h
    exact value_mkMul (iha x ha) (ihb y hb)
  | floorDiv a b iha ihb =>
    obtain ⟨x, y, ha, hb, hy, rfl⟩ := value_floorDiv.1 h
    exact value_mkFloorDiv (iha x ha) (ihb y hb) hy
  | floorMod a b iha ihb =>
    obtain ⟨x, y, ha, hb, hy, rfl⟩ := value_floorMod.1 h
    exact value_mkFloorMod (iha x ha) (ihb y hb) hy
  | ramp a b n => cases h

def Env.exact (env : Env) : Valuation := fun x ↦ (env x).map Int64.toInt

theorem checked_eq_ok {o : Option Word} {w : Word} (h : checked e o = .ok w) : o = some w := by
  cases o with
  | none => cases h
  | some u => cases h; rfl

theorem eval_bind_ok {x : Except EvalError Word} {f : Word → Except EvalError Word} {w : Word}
    (h : x >>= f = .ok w) : ∃ u, x = .ok u ∧ f u = .ok w := by
  cases x with
  | error err => cases h
  | ok u => exact ⟨u, rfl, h⟩

theorem value_of_eval {env : Env} {w : Word} (h : eval env e = .ok w) :
    e.value env.exact = some w.toInt := by
  induction e generalizing w with
  | int u => cases h; rfl
  | var x =>
    rw [eval] at h
    split at h
    · next u hu =>
      cases h
      simp [value, Env.exact, hu]
    · cases h
  | add a b iha ihb =>
    obtain ⟨x, hx, h⟩ := eval_bind_ok h
    obtain ⟨y, hy, h⟩ := eval_bind_ok h
    have hw := Word.ofInt?_eq_some_iff.1 (checked_eq_ok h)
    exact value_add.2 ⟨_, _, iha hx, ihb hy, hw.symm⟩
  | sub a b iha ihb =>
    obtain ⟨x, hx, h⟩ := eval_bind_ok h
    obtain ⟨y, hy, h⟩ := eval_bind_ok h
    have hw := Word.ofInt?_eq_some_iff.1 (checked_eq_ok h)
    exact value_sub.2 ⟨_, _, iha hx, ihb hy, hw.symm⟩
  | mul a b iha ihb =>
    obtain ⟨x, hx, h⟩ := eval_bind_ok h
    obtain ⟨y, hy, h⟩ := eval_bind_ok h
    have hw := Word.ofInt?_eq_some_iff.1 (checked_eq_ok h)
    exact value_mul.2 ⟨_, _, iha hx, ihb hy, hw.symm⟩
  | floorDiv a b iha ihb =>
    obtain ⟨x, hx, h⟩ := eval_bind_ok h
    obtain ⟨y, hy, h⟩ := eval_bind_ok h
    split at h
    · cases h
    · obtain ⟨hne, hw⟩ := Word.toInt_floorDiv? (checked_eq_ok h)
      exact value_floorDiv.2 ⟨_, _, iha hx, ihb hy, hne, hw.symm⟩
  | floorMod a b iha ihb =>
    obtain ⟨x, hx, h⟩ := eval_bind_ok h
    obtain ⟨y, hy, h⟩ := eval_bind_ok h
    split at h
    · cases h
    · obtain ⟨hne, hw⟩ := Word.toInt_floorMod? (checked_eq_ok h)
      exact value_floorMod.2 ⟨_, _, iha hx, ihb hy, hne, hw.symm⟩
  | ramp a b n => cases h

end TensorOpt.Index
