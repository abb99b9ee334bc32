import TensorOpt.Graph.Build
import TensorOpt.Proofs.Except

namespace TensorOpt

variable {ε σ α β : Type}

/-- What a computation gives if it starts in the state `s`, and the state that it leaves. -/
def exec (x : ExceptT ε (StateM σ) α) (s : σ) : Except ε α × σ := x.run s

@[simp]
theorem exec_pure (a : α) (s : σ) : exec (pure a : ExceptT ε (StateM σ) α) s = (.ok a, s) := rfl

@[simp]
theorem exec_get (s : σ) : exec (get : ExceptT ε (StateM σ) σ) s = (.ok s, s) := rfl

@[simp]
theorem exec_ask (f : Graph → Except ε α) (g : Graph) : exec (Build.ask f) g = (f g, g) := rfl

@[simp]
theorem exec_push (n : Node) (g : Graph) :
    exec (Build.push n : Build ε NodeId) g = (.ok g.size, g.push n) := rfl

theorem exec_bind (x : ExceptT ε (StateM σ) α) (f : α → ExceptT ε (StateM σ) β) (s : σ) :
    exec (x >>= f) s = match exec x s with
      | (.ok a, t) => exec (f a) t
      | (.error e, t) => (.error e, t) := by
  unfold exec
  rw [ExceptT.run_bind]
  show (StateT.bind x.run _) s = _
  unfold StateT.bind
  show (let p := x.run s; _) = _
  rcases x.run s with ⟨r, t⟩
  cases r <;> rfl

@[simp]
theorem exec_bind_ok {x : ExceptT ε (StateM σ) α} {f : α → ExceptT ε (StateM σ) β} {s s' : σ}
    {b : β} : exec (x >>= f) s = (.ok b, s') ↔
      ∃ a t, exec x s = (.ok a, t) ∧ exec (f a) t = (.ok b, s') := by
  rw [exec_bind]
  rcases exec x s with ⟨r, t⟩
  cases r with
  | ok a => simp [and_assoc]
  | error e => simp

theorem exec_bind_error {x : ExceptT ε (StateM σ) α} {f : α → ExceptT ε (StateM σ) β} {s s' : σ}
    {e : ε} : exec (x >>= f) s = (.error e, s') ↔ exec x s = (.error e, s') ∨
      ∃ a t, exec x s = (.ok a, t) ∧ exec (f a) t = (.error e, s') := by
  rw [exec_bind]
  rcases exec x s with ⟨r, t⟩
  cases r with
  | ok a => simp [and_assoc]
  | error e => simp

theorem Except.FailsWith.exec_bind {x : ExceptT ε (StateM σ) α} {f : α → ExceptT ε (StateM σ) β}
    {s : σ} {P : ε → Prop} (hx : Except.FailsWith P (exec x s).1)
    (hf : ∀ a t, exec x s = (.ok a, t) → Except.FailsWith P (exec (f a) t).1) :
    Except.FailsWith P (exec (x >>= f) s).1 := by
  rw [TensorOpt.exec_bind]
  rcases hexec : exec x s with ⟨r, t⟩
  rw [hexec] at hx
  cases r with
  | error e => exact .error (hx e rfl)
  | ok a => exact hf a t hexec

end TensorOpt
