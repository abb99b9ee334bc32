import TensorOpt.Index.Fold

namespace TensorOpt.Index

structure Product where
  lhs : Index
  rhs : Index
deriving DecidableEq, Repr

structure Remainder where
  dividend : Index
  divisor : Index
deriving DecidableEq, Repr

def Product.toIndex (p : Product) : Index := mul p.lhs p.rhs

def Remainder.toIndex (m : Remainder) : Index := floorMod m.dividend m.divisor

def Product.size (p : Product) : Nat := p.toIndex.size

def Remainder.size (m : Remainder) : Nat := m.toIndex.size

/-- Strips the factors from the right of a product, collecting them in front of `factor`. -/
def stripFactors (factor : Index) : Index → Index × Index
  | mul a b => stripFactors (mkMul b factor) a
  | e => (e, factor)

/-- Looks for the division that `m` completes. `outer` multiplies all of the sum that is searched,
`inner` only what is still to be searched, and `skipped` is the sum of the terms passed over. A sum
below an inner factor is not distributed over. -/
def complete? (m : Remainder) (outer : Index) :
    (inner skipped : Option Index) → Index → Option Index
  | inner, skipped, floorDiv a b =>
    let overall := match inner with
      | some f => mkMul f outer
      | none => outer
    if overall = b ∧ overall = m.divisor ∧ a = m.dividend then
      match skipped with
      | some s => some (mkAdd (mkMul s outer) m.dividend)
      | none => some m.dividend
    else none
  | inner, skipped, mul a b =>
    complete? m outer (some (match inner with
      | some f => mkMul b f
      | none => b)) skipped a
  | none, skipped, add a b => complete? m outer none (some (mkAddTo skipped a)) b
  | _, _, _ => none

/-- The sum `p + m` as one smaller expression, if `p` holds the quotient that goes with `m`: since
`c = c // k * k + c % k`, a product in which `c // k` is multiplied by exactly `k` takes the term
`c % k`. -/
def cancel? (p : Product) (m : Remainder) : Option Index :=
  let (core, outer) := stripFactors p.rhs p.lhs
  complete? m outer none none core

theorem size_stripFactors_le (factor e : Index) :
    (stripFactors factor e).1.size + (stripFactors factor e).2.size ≤ e.size + factor.size := by
  fun_induction stripFactors factor e with
  | case1 factor a b ih =>
    have := size_mkMul_le b factor
    simp only [size]
    omega
  | case2 => exact Nat.le_refl _

def sizeOr : Option Index → Nat
  | some e => e.size
  | none => 0

theorem size_mkAddTo_le (s : Option Index) (e : Index) :
    (mkAddTo s e).size ≤ sizeOr s + e.size + 1 := by
  cases s with
  | none => simp only [mkAddTo]; omega
  | some s => exact size_mkAdd_le s e

theorem size_complete?_lt {m : Remainder} {outer : Index} {inner skipped : Option Index}
    {e r : Index} (h : complete? m outer inner skipped e = some r) :
    r.size < e.size + sizeOr skipped + outer.size + m.dividend.size := by
  fun_induction complete? m outer inner skipped e with
  | case1 inner a b overall _ s =>
    cases h
    have := size_mkAdd_le (mkMul s outer) m.dividend
    have := size_mkMul_le s outer
    have := one_le_size a
    have := one_le_size b
    simp only [size, sizeOr]
    omega
  | case2 inner a b overall _ =>
    cases h
    simp only [size, sizeOr]
    omega
  | case3 => cases h
  | case4 inner skipped a b ih =>
    have := ih h
    simp only [size]
    omega
  | case5 skipped a b ih =>
    have := ih h
    have := size_mkAddTo_le skipped a
    simp only [size, sizeOr] at *
    omega
  | case6 => cases h

theorem size_cancel?_lt {p : Product} {m : Remainder} {r : Index} (h : cancel? p m = some r) :
    r.size < p.size + m.size := by
  have hc := size_complete?_lt h
  have hs := size_stripFactors_le p.rhs p.lhs
  simp only [Product.size, Product.toIndex, Remainder.size, Remainder.toIndex, size, sizeOr] at *
  omega

/-- Cancels `m` against the first product that takes it, and drops that product. -/
def Remainder.absorb? (m : Remainder) : List Product → Option (Index × List Product)
  | [] => none
  | p :: ps =>
    match cancel? p m with
    | some e => some (e, ps)
    | none => (m.absorb? ps).map fun (e, rest) ↦ (e, p :: rest)

theorem Remainder.size_absorb?_lt {m : Remainder} {ps rest : List Product} {e : Index}
    (h : m.absorb? ps = some (e, rest)) :
    e.size + totalSize Product.size rest < m.size + totalSize Product.size ps := by
  fun_induction absorb? m ps generalizing rest with
  | case1 => cases h
  | case2 p ps e' hc =>
    cases h
    have := size_cancel?_lt hc
    simp only [totalSize_cons]
    omega
  | case3 p ps _ ih =>
    obtain ⟨⟨e', rest'⟩, hr, heq⟩ := Option.map_eq_some_iff.1 h
    cases heq
    have := ih hr
    simp only [totalSize_cons]
    omega

end TensorOpt.Index
