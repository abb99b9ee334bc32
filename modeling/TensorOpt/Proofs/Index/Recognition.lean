import Mathlib.Algebra.BigOperators.Group.List.Basic
import Mathlib.Algebra.Order.BigOperators.GroupWithZero.List
import Mathlib.Algebra.Order.Ring.Nat
import Mathlib.Data.List.Induction
import TensorOpt.Index.Cancel

namespace TensorOpt.Index

variable {c e outer divisor : Index} {as : List Index} {ks ls : List Nat} {k f : Nat}
  {m : Remainder} {inner skipped : Option Index}

def ofNat (k : Nat) : Index := int (Int64.ofNat k)

/-- `e` times the constants, each of which multiplies all that stands before it. -/
def scale (e : Index) (ks : List Nat) : Index := ks.foldl (fun e k ↦ mul e (ofNat k)) e

theorem scale_append (e : Index) (ks ls : List Nat) :
    scale e (ks ++ ls) = scale (scale e ks) ls := List.foldl_append

theorem scale_concat (e : Index) (ks : List Nat) (k : Nat) :
    scale e (ks ++ [k]) = mul (scale e ks) (ofNat k) := scale_append e ks [k]

section Factors

structure Factors (ks : List Nat) (f : Nat) : Prop where
  pos : ∀ k ∈ ks, 0 < k
  last_pos : 0 < f
  lt : ks.prod * f < 2 ^ 63

theorem prod_append_mul (ks ls : List Nat) (f : Nat) :
    (ks ++ ls).prod * f = ks.prod * (ls.prod * f) := by
  rw [List.prod_append, Nat.mul_assoc]

theorem prod_concat_mul (ks : List Nat) (k f : Nat) :
    (ks ++ [k]).prod * f = ks.prod * (k * f) := by
  rw [prod_append_mul, List.prod_singleton]

theorem mkMul_ofNat (hk : 0 < k) (hf : 0 < f) (hlt : k * f < 2 ^ 63) :
    mkMul (ofNat k) (ofNat f) = ofNat (k * f) := by
  have hkle : k ≤ k * f := Nat.le_mul_of_pos_right k hf
  have hfle : f ≤ k * f := Nat.le_mul_of_pos_left f hk
  have hprod : Word.mul? (Int64.ofNat k) (Int64.ofNat f) = some (Int64.ofNat (k * f)) := by
    refine Word.ofInt?_eq_some_iff.2 ?_
    rw [Int64.toInt_ofNat_of_lt hlt, Int64.toInt_ofNat_of_lt (hkle.trans_lt hlt),
      Int64.toInt_ofNat_of_lt (hfle.trans_lt hlt), Int.natCast_mul]
  simp only [mkMul, ofNat, int?, hprod, intOr]

namespace Factors

theorem prod_pos (h : Factors ks f) : 0 < ks.prod := List.prod_pos h.pos

theorem mkMul_prod (h : Factors ks f) : mkMul (ofNat ks.prod) (ofNat f) = ofNat (ks.prod * f) :=
  mkMul_ofNat h.prod_pos h.last_pos h.lt

theorem left (h : Factors (ks ++ ls) f) : Factors ks (ls.prod * f) where
  pos k hk := h.pos k (List.mem_append_left _ hk)
  last_pos := Nat.mul_pos (List.prod_pos fun l hl ↦ h.pos l (List.mem_append_right _ hl)) h.last_pos
  lt := prod_append_mul ks ls f ▸ h.lt

theorem right (h : Factors (ks ++ ls) f) : Factors ls f where
  pos l hl := h.pos l (List.mem_append_right _ hl)
  last_pos := h.last_pos
  lt := (Nat.le_mul_of_pos_left _ h.left.prod_pos).trans_lt h.left.lt

theorem concat (h : Factors (ks ++ [k]) f) : Factors ks (k * f) := by
  have hleft := h.left
  rwa [List.prod_singleton] at hleft

theorem mkMul_concat (h : Factors (ks ++ [k]) f) :
    mkMul (ofNat k) (ofNat f) = ofNat (k * f) := by
  have hmul := h.right.mkMul_prod
  rwa [List.prod_singleton] at hmul

theorem of_mul (h : Factors ks (k * f)) (hk : 0 < k) : Factors ks k where
  pos := h.pos
  last_pos := hk
  lt := by
    have hle : k ≤ k * f := Nat.le_mul_of_pos_right k (Nat.pos_of_mul_pos_left h.last_pos)
    exact (Nat.mul_le_mul_left ks.prod hle).trans_lt h.lt

end Factors

/-- Factors that are stripped from the outside end up in front of those stripped before. -/
theorem stripFactors_scale (h : Factors ks f) :
    stripFactors (ofNat f) (scale e ks) = stripFactors (ofNat (ks.prod * f)) e := by
  induction ks using List.reverseRecOn generalizing f with
  | nil =>
    rw [List.prod_nil, Nat.one_mul]
    rfl
  | append_singleton ks k ih =>
    rw [scale_concat, stripFactors, h.mkMul_concat, ih h.concat, prod_concat_mul]

theorem complete?_scale (h : Factors ks f) :
    complete? m outer (some (ofNat f)) skipped (scale e ks) =
      complete? m outer (some (ofNat (ks.prod * f))) skipped e := by
  induction ks using List.reverseRecOn generalizing f with
  | nil =>
    rw [List.prod_nil, Nat.one_mul]
    rfl
  | append_singleton ks k ih =>
    rw [scale_concat, complete?]
    simp only [h.mkMul_concat]
    rw [ih h.concat, prod_concat_mul]

end Factors

section Terms

/-- The sum that results where the quotient is found: the terms that were skipped keep the outer
factor. -/
def completed (outer c : Index) : Option Index → Index
  | none => c
  | some s => mkAdd (mkMul s outer) c

theorem complete?_floorDiv
    (h : (match inner with | some g => mkMul g outer | none => outer) = divisor) :
    complete? ⟨c, divisor⟩ outer inner skipped (floorDiv c divisor) =
      some (completed outer c skipped) := by
  subst h
  cases skipped with
  | none => exact if_pos ⟨rfl, rfl, rfl⟩
  | some s => exact if_pos ⟨rfl, rfl, rfl⟩

/-- The quotient is recognised behind its inner factors. -/
theorem complete?_quotient (h : Factors ks f) :
    complete? ⟨c, ofNat (ks.prod * f)⟩ (ofNat f) none skipped
        (scale (floorDiv c (ofNat (ks.prod * f))) ks) = some (completed (ofNat f) c skipped) := by
  rcases ks.eq_nil_or_concat' with rfl | ⟨ks, k, rfl⟩
  · rw [List.prod_nil, Nat.one_mul]
    exact complete?_floorDiv rfl
  · have hks : Factors ks k := h.concat.of_mul (h.pos k List.mem_concat_self)
    have hmul := h.mkMul_prod
    rw [List.prod_append, List.prod_singleton] at hmul ⊢
    rw [scale_concat, complete?, complete?_scale hks]
    exact complete?_floorDiv hmul

/-- Terms in front of what is searched are summed up on the way. -/
theorem complete?_sum (as : List Index) :
    complete? m outer none skipped (as.foldr add e) =
      complete? m outer none (as.foldl (fun sum a ↦ some (mkAddTo sum a)) skipped) e := by
  induction as generalizing skipped with
  | nil => rfl
  | cons a as ih => exact ih

theorem foldl_mkAddTo_some (s : Index) (as : List Index) :
    as.foldl (fun sum a ↦ some (mkAddTo sum a)) (some s) = some (as.foldl mkAdd s) := by
  induction as generalizing s with
  | nil => rfl
  | cons a as ih => exact ih (mkAdd s a)

end Terms

/-- A quotient without terms in front of it has all its factors on the outside. -/
theorem cancel?_quotient (h : Factors ks f) :
    cancel? ⟨scale (floorDiv c (ofNat (ks.prod * f))) ks, ofNat f⟩ ⟨c, ofNat (ks.prod * f)⟩ =
      some c := by
  rw [cancel?, stripFactors_scale h]
  exact complete?_floorDiv rfl

theorem cancel?_sum (a : Index) (as : List Index) (h : Factors (ks ++ ls) f) :
    let k := ofNat ((ks ++ ls).prod * f)
    cancel? ⟨scale ((a :: as).foldr add (scale (floorDiv c k) ks)) ls, ofNat f⟩ ⟨c, k⟩ =
      some (mkAdd (mkMul (as.foldl mkAdd a) (ofNat (ls.prod * f))) c) := by
  intro k
  have hk : k = ofNat (ks.prod * (ls.prod * f)) := congrArg ofNat (prod_append_mul ks ls f)
  rw [hk, cancel?, stripFactors_scale h.right]
  show complete? _ _ none none ((a :: as).foldr add _) = _
  rw [complete?_sum, List.foldl_cons, mkAddTo, foldl_mkAddTo_some]
  exact complete?_quotient h.left

/-- A quotient `c // k`, times some of the factors of `k`, at the end of a sum that is multiplied by
the other factors: the product is cancelled against `c % k`, however the factors are distributed as
long as one of them stands outside. All terms in front of the quotient keep the outer factors. -/
theorem cancel?_recognises_split (c : Index) (as : List Index) (inner outer : List Nat)
    (houter : outer ≠ []) (hpos : ∀ k ∈ inner ++ outer, 0 < k)
    (hlt : (inner ++ outer).prod < 2 ^ 63) :
    let k := ofNat (inner ++ outer).prod
    ∃ p : Product, p.toIndex = scale (as.foldr add (scale (floorDiv c k) inner)) outer ∧
      cancel? p ⟨c, k⟩ = some (match as with
        | [] => c
        | a :: rest => mkAdd (mkMul (rest.foldl mkAdd a) (ofNat outer.prod)) c) := by
  obtain ⟨outer, l, rfl⟩ := outer.eq_nil_or_concat'.resolve_left houter
  have hl : (outer ++ [l]).prod = outer.prod * l := by
    rw [List.prod_append, List.prod_singleton]
  have hk : (inner ++ (outer ++ [l])).prod = (inner ++ outer).prod * l := by
    rw [List.prod_append, hl, List.prod_append, Nat.mul_assoc]
  rw [hk] at hlt ⊢
  have hfactors : Factors (inner ++ outer) l :=
    ⟨fun k hk ↦ hpos k (by grind), hpos l (by grind), hlt⟩
  refine ⟨⟨scale _ outer, ofNat l⟩, (scale_concat _ _ _).symm, ?_⟩
  cases as with
  | nil =>
    rw [List.foldr_nil, ← scale_append]
    exact cancel?_quotient hfactors
  | cons a rest =>
    rw [hl]
    exact cancel?_sum a rest hfactors

/-- `(a + (b + c // 24 * 2)) * 3 * 4 + c % 24` becomes `(a + b) * 12 + c`. -/
theorem cancel?_recognises_split_twentyFour :
    ∃ p : Product,
      p.toIndex = mul (mul (add (var "a") (add (var "b") (mul (floorDiv (var "c") (int 24)) (int 2))))
        (int 3)) (int 4) ∧
      cancel? p ⟨var "c", int 24⟩ =
        some (add (mul (add (var "a") (var "b")) (int 12)) (var "c")) :=
  cancel?_recognises_split (var "c") [var "a", var "b"] [2] [3, 4] (by decide) (by decide)
    (by decide)

end TensorOpt.Index
