import Mathlib.Data.List.Forall2

namespace TensorOpt

variable {ε α β : Type}

@[simp]
theorem Except.bind_eq_ok {x : Except ε α} {f : α → Except ε β} {b : β} :
    x >>= f = .ok b ↔ ∃ a, x = .ok a ∧ f a = .ok b := by
  cases x <;> simp [bind, Except.bind]

@[simp]
theorem Except.mapError_eq_ok {ε' : Type} {x : Except ε α} {f : ε → ε'} {a : α} :
    x.mapError f = .ok a ↔ x = .ok a := by
  cases x with
  | error e => constructor <;> intro h <;> cases h
  | ok b => constructor <;> intro h <;> cases h <;> rfl

theorem Except.mapM_eq_ok {f : α → Except ε β} {as : List α} {bs : List β} :
    as.mapM f = .ok bs ↔ List.Forall₂ (fun a b ↦ f a = .ok b) as bs := by
  induction as generalizing bs with
  | nil =>
    rw [List.forall₂_nil_left_iff, List.mapM_nil]
    constructor
    · rintro ⟨⟩
      rfl
    · rintro rfl
      rfl
  | cons a rest ih =>
    simp only [List.mapM_cons, Except.bind_eq_ok, List.forall₂_cons_left_iff, ih]
    constructor
    · rintro ⟨b, hb, bs', hrest, ⟨⟩⟩
      exact ⟨b, bs', hb, hrest, rfl⟩
    · rintro ⟨b, bs', hb, hrest, rfl⟩
      exact ⟨b, hb, bs', hrest, rfl⟩

def Except.FailsWith (P : ε → Prop) (x : Except ε α) : Prop := ∀ e, x = .error e → P e

namespace Except.FailsWith

variable {P Q : ε → Prop}

theorem ok (a : α) : Except.FailsWith P (.ok a : Except ε α) := nofun

theorem error {e : ε} (he : P e) : Except.FailsWith P (.error e : Except ε α) := by
  rintro _ ⟨⟩
  exact he

theorem mono {x : Except ε α} (hx : Except.FailsWith P x) (hPQ : ∀ e, P e → Q e) :
    Except.FailsWith Q x :=
  fun e he ↦ hPQ e (hx e he)

theorem bind {x : Except ε α} {f : α → Except ε β} (hx : Except.FailsWith P x)
    (hf : ∀ a, x = .ok a → Except.FailsWith P (f a)) : Except.FailsWith P (x >>= f) := by
  cases x with
  | error e => exact error (hx e rfl)
  | ok a => exact hf a rfl

theorem mapError {ε' : Type} {x : Except ε' α} {f : ε' → ε} (hf : ∀ e, P (f e)) :
    Except.FailsWith P (x.mapError f) := by
  cases x with
  | error e => exact error (hf e)
  | ok a => exact ok a

theorem mapM {f : β → Except ε α} {bs : List β} (hf : ∀ b ∈ bs, Except.FailsWith P (f b)) :
    Except.FailsWith P (bs.mapM f) := by
  induction bs with
  | nil => exact ok []
  | cons b rest ih =>
    rw [List.mapM_cons]
    refine (hf b List.mem_cons_self).bind fun a _ ↦ ?_
    exact (ih fun c hc ↦ hf c (List.mem_cons_of_mem b hc)).bind fun as _ ↦ ok (a :: as)

end Except.FailsWith

end TensorOpt
