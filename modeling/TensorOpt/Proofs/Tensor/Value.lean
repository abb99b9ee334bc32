import TensorOpt.Proofs.Rule.AxisOrder
import TensorOpt.Tensor.DType

namespace TensorOpt

open AxisOrder (gather IsOrder)

abbrev Extents := List Nat

abbrev Position := List Nat

variable {s s₁ s₂ r : Extents} {i : Position} {k rank : Nat} {o o₁ o₂ : AxisOrder}

def InBounds (i : Position) (s : Extents) : Prop := List.Forall₂ (· < ·) i s

instance (i : Position) (s : Extents) : Decidable (InBounds i s) :=
  inferInstanceAs (Decidable (List.Forall₂ _ i s))

namespace Extents

def volume : Extents → Nat
  | [] => 1
  | n :: s => n * volume s

def offset : Extents → Position → Nat
  | _ :: s, k :: i => k * volume s + offset s i
  | _, _ => 0

def position : Extents → Nat → Position
  | [], _ => []
  | _ :: s, k => k / volume s :: position s (k % volume s)

theorem offset_lt (hi : InBounds i s) : offset s i < volume s := by
  induction hi with
  | nil => exact Nat.one_pos
  | @cons k n i s hk _ ih =>
    calc k * volume s + offset s i < k * volume s + volume s := Nat.add_lt_add_left ih _
      _ = (k + 1) * volume s := (Nat.succ_mul k (volume s)).symm
      _ ≤ n * volume s := Nat.mul_le_mul_right _ hk

theorem position_spec (hk : k < volume s) :
    InBounds (position s k) s ∧ offset s (position s k) = k := by
  induction s generalizing k with
  | nil => exact ⟨.nil, (Nat.lt_one_iff.1 hk).symm⟩
  | cons n s ih =>
    have hpos : 0 < volume s := Nat.pos_of_ne_zero fun h ↦ by simp [volume, h] at hk
    obtain ⟨hbounds, hoffset⟩ := ih (Nat.mod_lt k hpos)
    refine ⟨.cons (Nat.div_lt_of_lt_mul (Nat.mul_comm n _ ▸ hk)) hbounds, ?_⟩
    rw [position, offset, hoffset, Nat.mul_comm, Nat.div_add_mod]

/-- The extents of two shapes that are aligned at the end, taken from there on: they agree, or one
of the two is `1` or missing. -/
def broadcastRev? : Extents → Extents → Option Extents
  | [], s => some s
  | s, [] => some s
  | m :: s, n :: t =>
    if m = n ∨ n = 1 then (broadcastRev? s t).map (m :: ·)
    else if m = 1 then (broadcastRev? s t).map (n :: ·)
    else none

def broadcast? (s t : Extents) : Option Extents :=
  (broadcastRev? s.reverse t.reverse).map List.reverse

def alignRev (s : Extents) (i : Position) : Position :=
  List.zipWith (fun n k ↦ if n = 1 then 0 else k) s i

/-- The index at which a tensor of shape `s` is read for the index `i` of a larger one. -/
def align (s : Extents) (i : Position) : Position := (alignRev s.reverse i.reverse).reverse

theorem broadcastRev?_comm (s t : Extents) : broadcastRev? s t = broadcastRev? t s := by
  fun_induction broadcastRev? s t with
  | case1 t => cases t <;> rfl
  | case2 s hs => cases s <;> rfl
  | case3 m s n t hmn ih =>
    rw [ih, broadcastRev?]
    rcases hmn with rfl | rfl
    · rw [if_pos (.inl rfl)]
    · by_cases hm : m = 1
      · subst hm
        rw [if_pos (.inl rfl)]
      · rw [if_neg (by omega), if_pos rfl]
  | case4 s n t hmn ih => rw [ih, broadcastRev?, if_pos (.inr rfl)]
  | case5 m s n t hmn hm => rw [broadcastRev?, if_neg (by omega), if_neg (by omega)]

theorem broadcast?_comm (s t : Extents) : broadcast? s t = broadcast? t s := by
  rw [broadcast?, broadcast?, broadcastRev?_comm]

theorem broadcast?_nil (s : Extents) : broadcast? [] s = some s := by
  rw [broadcast?, List.reverse_nil, broadcastRev?, Option.map_some, List.reverse_reverse]

theorem alignRev_self (hi : InBounds i s) : alignRev s i = i := by
  induction hi with
  | nil => rfl
  | @cons k n i s hk _ ih =>
    have hfirst : (if n = 1 then 0 else k) = k := by
      split <;> omega
    rw [alignRev, List.zipWith_cons_cons, hfirst]
    exact congrArg (k :: ·) ih

theorem inBounds_alignRev {t : Extents} (h : broadcastRev? s t = some r) (hi : InBounds i r) :
    InBounds (alignRev s i) s := by
  fun_induction broadcastRev? s t generalizing i r with
  | case1 t => exact .nil
  | case2 s hs =>
    cases h
    rwa [alignRev_self hi]
  | case3 m s n t hmn ih =>
    obtain ⟨r, hr, rfl⟩ := Option.map_eq_some_iff.1 h
    obtain _ | @⟨k, _, i, _, hk, hi⟩ := hi
    have hfirst : (if m = 1 then 0 else k) < m := by
      split <;> omega
    exact .cons hfirst (ih hr hi)
  | case4 s n t hmn ih =>
    obtain ⟨r, hr, rfl⟩ := Option.map_eq_some_iff.1 h
    obtain _ | @⟨k, _, i, _, hk, hi⟩ := hi
    exact .cons Nat.one_pos (ih hr hi)
  | case5 => cases h

theorem inBounds_align {t : Extents} (h : broadcast? s t = some r) (hi : InBounds i r) :
    InBounds (align s i) s := by
  obtain ⟨r', hr', rfl⟩ := Option.map_eq_some_iff.1 h
  have hi' : InBounds i.reverse r' := by
    rw [← List.reverse_reverse r']
    exact List.forall₂_reverse_iff.2 hi
  have hbounds := List.forall₂_reverse_iff.2 (inBounds_alignRev hr' hi')
  rwa [List.reverse_reverse] at hbounds

end Extents

structure Tensor (V : Type) [Inhabited V] where
  dtype : DType
  shape : Extents
  get : Position → V
  get_outside : ∀ i, ¬ InBounds i shape → get i = default

namespace Tensor

open Extents (volume offset position)

variable {V : Type} [Inhabited V] {t u : Tensor V} {dtype : DType} {f g : Position → V}

theorem ext_inBounds (hdtype : t.dtype = u.dtype) (hshape : t.shape = u.shape)
    (hget : ∀ i, InBounds i t.shape → t.get i = u.get i) : t = u := by
  obtain ⟨dtype, shape, get, houtside⟩ := t
  obtain ⟨dtype', shape', get', houtside'⟩ := u
  obtain rfl : dtype = dtype' := hdtype
  obtain rfl : shape = shape' := hshape
  obtain rfl : get = get' := by
    funext i
    by_cases hi : InBounds i shape
    · exact hget i hi
    · rw [houtside i hi, houtside' i hi]
  rfl

def ofFn (dtype : DType) (s : Extents) (f : Position → V) : Tensor V where
  dtype
  shape := s
  get i := if InBounds i s then f i else default
  get_outside _ hi := if_neg hi

theorem get_ofFn (hi : InBounds i s) : (ofFn dtype s f).get i = f i := if_pos hi

theorem ofFn_congr (h : ∀ i, InBounds i s → f i = g i) : ofFn dtype s f = ofFn dtype s g := by
  refine ext_inBounds rfl rfl fun i (hi : InBounds i s) ↦ ?_
  rw [get_ofFn hi, get_ofFn hi, h i hi]

def reinterpret (s : Extents) (t : Tensor V) : Tensor V :=
  ofFn t.dtype s fun i ↦ t.get (position t.shape (offset s i))

theorem reinterpret_reinterpret (h₂ : volume s₂ = volume s₁) (t : Tensor V) :
    (t.reinterpret s₁).reinterpret s₂ = t.reinterpret s₂ := by
  refine ofFn_congr fun i hi ↦ ?_
  obtain ⟨hbounds, hoffset⟩ := Extents.position_spec (h₂ ▸ Extents.offset_lt hi)
  change (ofFn t.dtype s₁ _).get (position s₁ (offset s₂ i)) = _
  rw [get_ofFn hbounds, hoffset]

/-- Axis `k` of the result is axis `order[k]` of the tensor. -/
def permute (order : AxisOrder) (t : Tensor V) : Tensor V :=
  ofFn t.dtype (gather order t.shape) fun i ↦ t.get (gather order.inverse i)

theorem get_permute (ho : IsOrder t.shape.length o) (hi : i.length = t.shape.length) :
    (t.permute o).get (gather o i) = t.get i := by
  have hback : gather o.inverse (gather o i) = i := by
    rw [AxisOrder.gather_gather fun k hk ↦ hi ▸ ho.lt hk, AxisOrder.inverse_gather ho,
      AxisOrder.identity_gather hi]
  by_cases hbounds : InBounds (gather o i) (gather o t.shape)
  · rw [permute, get_ofFn hbounds, hback]
  · have houtside : ¬InBounds i t.shape := fun h ↦ hbounds (AxisOrder.forall₂_gather h o)
    rw [t.get_outside i houtside]
    exact if_neg hbounds

theorem eq_permute (ho : IsOrder t.shape.length o) (hdtype : u.dtype = t.dtype)
    (hshape : u.shape = gather o t.shape)
    (hget : ∀ i, InBounds i t.shape → u.get (gather o i) = t.get i) : u = t.permute o := by
  refine ext_inBounds hdtype hshape fun j hj ↦ ?_
  rw [hshape] at hj
  -- every position of the result is the reordering of a position of the tensor
  have hlt : ∀ k ∈ o, k < t.shape.length := fun k hk ↦ ho.lt hk
  have hlength : j.length = t.shape.length :=
    hj.length_eq.trans ((AxisOrder.length_gather hlt).trans ho.length)
  have hinverse := AxisOrder.isOrder_inverse ho
  have hback : gather o (gather o.inverse j) = j := by
    rw [AxisOrder.gather_gather fun k hk ↦ hlength ▸ hinverse.lt hk, AxisOrder.gather_inverse ho,
      AxisOrder.identity_gather hlength]
  have hbounds : InBounds (gather o.inverse j) t.shape := by
    have h := AxisOrder.forall₂_gather hj o.inverse
    rwa [AxisOrder.gather_gather hlt, AxisOrder.inverse_gather ho,
      AxisOrder.identity_gather rfl] at h
  rw [← hback, hget _ hbounds, get_permute ho hbounds.length_eq]

theorem permute_permute (ho₁ : IsOrder t.shape.length o₁) (ho₂ : IsOrder t.shape.length o₂) :
    (t.permute o₁).permute o₂ = t.permute (gather o₂ o₁) := by
  have hlt {α : Type} {l : List α} (hl : l.length = t.shape.length) : ∀ k ∈ o₁, k < l.length :=
    fun k hk ↦ hl ▸ ho₁.lt hk
  have hlength : (t.permute o₁).shape.length = t.shape.length :=
    (AxisOrder.length_gather (hlt rfl)).trans ho₁.length
  refine eq_permute (AxisOrder.isOrder_gather ho₁ ho₂) rfl ?_ fun i hi ↦ ?_
  · exact AxisOrder.gather_gather (hlt rfl) o₂
  · have hbounds : InBounds (gather o₁ i) (t.permute o₁).shape := AxisOrder.forall₂_gather hi o₁
    rw [← AxisOrder.gather_gather (hlt hi.length_eq),
      get_permute (hlength.symm ▸ ho₂) hbounds.length_eq, get_permute ho₁ hi.length_eq]

theorem permute_identity (t : Tensor V) : t.permute (.identity t.shape.length) = t := by
  refine (eq_permute (AxisOrder.isOrder_identity _) rfl ?_ fun i hi ↦ ?_).symm
  · rw [AxisOrder.identity_gather rfl]
  · rw [AxisOrder.identity_gather hi.length_eq]

def constant (dtype : DType) (s : Extents) (v : V) : Tensor V := ofFn dtype s fun _ ↦ v

def combine (f : V → V → V) (dtype : DType) (s : Extents) (t u : Tensor V) : Tensor V :=
  ofFn dtype s fun i ↦ f (t.get (Extents.align t.shape i)) (u.get (Extents.align u.shape i))

/-- Where a tensor repeats one value, that value alone can be used in its place. -/
theorem get_constant_align {v : V} {w : Tensor V} (h : Extents.broadcast? s s₁ = some s₂)
    (hi : InBounds i s₂) (hshape : w.shape = []) (hw : w.get [] = v) :
    (constant dtype s v).get (Extents.align (constant dtype s v).shape i) =
      w.get (Extents.align w.shape i) := by
  rw [hshape]
  exact (get_ofFn (Extents.inBounds_align h hi)).trans hw.symm

end Tensor

end TensorOpt
