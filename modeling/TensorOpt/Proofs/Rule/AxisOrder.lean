import Mathlib.Algebra.Group.Nat.Defs
import Mathlib.Data.List.Forall2
import Mathlib.Data.List.Nodup
import Mathlib.Data.List.Perm.Subperm
import TensorOpt.Proofs.Graph.Exec
import TensorOpt.Rule.AxisOrder

namespace TensorOpt

namespace AxisOrder

variable {α β ε : Type} {rank : Nat} {o o₁ o₂ : AxisOrder} {l : List α}

/-- The entries of `l` at the positions in `order`, but for positions beyond its end. -/
def gather (order : AxisOrder) (l : List α) : List α := order.filterMap (l[·]?)

def IsOrder (rank : Nat) (order : AxisOrder) : Prop := order.Perm (List.range rank)

theorem IsOrder.lt (ho : IsOrder rank o) {k : Nat} (hk : k ∈ o) : k < rank :=
  List.mem_range.1 (ho.mem_iff.1 hk)

theorem IsOrder.mem (ho : IsOrder rank o) {k : Nat} (hk : k < rank) : k ∈ o :=
  ho.mem_iff.2 (List.mem_range.2 hk)

theorem IsOrder.length (ho : IsOrder rank o) : o.length = rank :=
  ho.length_eq.trans List.length_range

theorem IsOrder.nodup (ho : IsOrder rank o) : o.Nodup := ho.nodup_iff.2 List.nodup_range

theorem isOrder_of_nodup (hnodup : o.Nodup) (hlt : ∀ k ∈ o, k < rank) (hlength : o.length = rank) :
    IsOrder rank o := by
  have hsub : o.Subperm (List.range rank) :=
    List.subperm_of_subset hnodup fun k hk ↦ List.mem_range.2 (hlt k hk)
  exact hsub.perm_of_length_le (Nat.le_of_eq (List.length_range.trans hlength.symm))

theorem isOrder_identity (rank : Nat) : IsOrder rank (identity rank) := .refl _

theorem isOrder_reversal (rank : Nat) : IsOrder rank (reversal rank) := List.reverse_perm _

theorem gather_map (f : α → β) (o : AxisOrder) (l : List α) :
    gather o (l.map f) = (gather o l).map f := by
  simp only [gather, List.getElem?_map, List.map_filterMap]

theorem gather_cons {k : Nat} (hk : k < l.length) (o : AxisOrder) :
    gather (k :: o) l = l[k] :: gather o l :=
  List.filterMap_cons_some (List.getElem?_eq_getElem hk)

theorem getElem?_gather (ho : ∀ k ∈ o, k < l.length) (i : Nat) :
    (gather o l)[i]? = o[i]?.bind (l[·]?) := by
  induction o generalizing i with
  | nil => rfl
  | cons k rest ih =>
    have hk : k < l.length := ho k List.mem_cons_self
    rw [gather_cons hk]
    cases i with
    | zero => simp [hk]
    | succ i => simpa using ih (fun j hj ↦ ho j (List.mem_cons_of_mem k hj)) i

theorem length_gather (ho : ∀ k ∈ o, k < l.length) : (gather o l).length = o.length := by
  induction o with
  | nil => rfl
  | cons k rest ih =>
    rw [gather_cons (ho k List.mem_cons_self), List.length_cons, List.length_cons,
      ih fun j hj ↦ ho j (List.mem_cons_of_mem k hj)]

theorem gather_gather (ho : ∀ k ∈ o₁, k < l.length) (o₂ : AxisOrder) :
    gather o₂ (gather o₁ l) = gather (gather o₂ o₁) l := by
  have hget : ((gather o₁ l)[·]?) = fun k ↦ o₁[k]?.bind (l[·]?) := funext (getElem?_gather ho)
  rw [gather, hget, gather, gather, List.filterMap_filterMap]

theorem nodup_of_gather (ho : ∀ k ∈ o, k < l.length) (h : (gather o l).Nodup) : o.Nodup := by
  induction o with
  | nil => exact List.nodup_nil
  | cons k rest ih =>
    have hk : k < l.length := ho k List.mem_cons_self
    rw [gather_cons hk, List.nodup_cons] at h
    have hrest := ih (fun j hj ↦ ho j (List.mem_cons_of_mem k hj)) h.2
    refine List.nodup_cons.2 ⟨fun hmem ↦ h.1 ?_, hrest⟩
    exact List.mem_filterMap.2 ⟨k, hmem, List.getElem?_eq_getElem hk⟩

theorem nodup_gather (ho : o.Nodup) (hl : l.Nodup) : (gather o l).Nodup := by
  refine ho.filterMap fun i j a hi hj ↦ ?_
  obtain ⟨hlt, -⟩ := List.getElem?_eq_some_iff.1 hi
  exact (List.getElem?_inj hlt hl).1 (hi.trans hj.symm)

theorem getElem?_identity (rank i : Nat) :
    (identity rank)[i]? = if i < rank then some i else none := by
  rw [identity]
  by_cases hi : i < rank <;> simp [hi]

theorem identity_gather (hl : l.length = rank) : gather (identity rank) l = l := by
  subst hl
  refine List.ext_getElem? fun i ↦ ?_
  have hlt : ∀ k ∈ identity l.length, k < l.length := fun k hk ↦ List.mem_range.1 hk
  rw [getElem?_gather hlt, getElem?_identity]
  by_cases hi : i < l.length <;> simp [hi]

theorem gather_identity (ho : ∀ k ∈ o, k < rank) : gather o (identity rank) = o := by
  refine List.ext_getElem? fun i ↦ ?_
  have hlt : ∀ k ∈ o, k < (identity rank).length := by simpa [identity] using ho
  rw [getElem?_gather hlt]
  cases hi : o[i]? with
  | none => rfl
  | some k =>
    rw [Option.bind_some, getElem?_identity, if_pos (ho k (List.mem_of_getElem? hi))]

/-- An order that leaves a list without repetitions as it is does nothing. -/
theorem eq_identity_of_gather (hl : l.Nodup) (ho : IsOrder l.length o) (h : gather o l = l) :
    o = identity l.length := by
  refine List.ext_getElem? fun i ↦ ?_
  rw [getElem?_identity]
  by_cases hi : i < l.length
  · have hi' : i < o.length := ho.length ▸ hi
    have hget : (gather o l)[i]? = l[o[i]]? := by
      rw [getElem?_gather fun k hk ↦ ho.lt hk, List.getElem?_eq_getElem hi', Option.bind_some]
    rw [h] at hget
    rw [if_pos hi, List.getElem?_eq_getElem hi', ← (List.getElem?_inj hi hl).1 hget]
  · rw [if_neg hi, List.getElem?_eq_none (ho.length ▸ Nat.le_of_not_lt hi)]

theorem forall₂_gather {R : α → β → Prop} {l : List α} {l' : List β} (h : List.Forall₂ R l l')
    (o : AxisOrder) : List.Forall₂ R (gather o l) (gather o l') := by
  induction o with
  | nil => exact .nil
  | cons k rest ih =>
    by_cases hk : k < l.length
    · have hk' : k < l'.length := h.length_eq ▸ hk
      rw [gather_cons hk, gather_cons hk']
      exact .cons (h.get hk hk') ih
    · have hk' : ¬ k < l'.length := h.length_eq ▸ hk
      rw [gather, gather, List.filterMap_cons_none (List.getElem?_eq_none (Nat.le_of_not_lt hk)),
        List.filterMap_cons_none (List.getElem?_eq_none (Nat.le_of_not_lt hk'))]
      exact ih

theorem gather_perm (hl : l.length = rank) (ho : IsOrder rank o) : (gather o l).Perm l := by
  have hperm : (gather o l).Perm (gather (identity rank) l) := ho.filterMap _
  rwa [identity_gather hl] at hperm

theorem isOrder_gather (ho₁ : IsOrder rank o₁) (ho₂ : IsOrder rank o₂) :
    IsOrder rank (gather o₂ o₁) := (gather_perm ho₁.length ho₂).trans ho₁

theorem getElem?_inverse (ho : IsOrder rank o) (i : Nat) :
    (inverse o)[i]? = if i < rank then some (o.idxOf i) else none := by
  rw [inverse, ho.length, List.getElem?_map]
  by_cases hi : i < rank <;> simp [hi]

theorem isOrder_inverse (ho : IsOrder rank o) : IsOrder rank (inverse o) := by
  have hmem : ∀ i ∈ List.range o.length, i ∈ o := fun i hi ↦
    ho.mem (ho.length ▸ List.mem_range.1 hi)
  refine isOrder_of_nodup (.map_on (fun i hi j hj hij ↦ ?_) List.nodup_range) (fun k hk ↦ ?_) ?_
  · exact (List.idxOf_inj (hmem i hi)).1 hij
  · obtain ⟨i, hi, rfl⟩ := List.mem_map.1 hk
    rw [← ho.length]
    exact List.idxOf_lt_length_of_mem (hmem i hi)
  · rw [inverse, List.length_map, List.length_range, ho.length]

/-- An order that is applied after its inverse puts everything back. -/
theorem gather_inverse (ho : IsOrder rank o) : gather o (inverse o) = identity rank := by
  refine List.ext_getElem? fun i ↦ ?_
  have hlt : ∀ k ∈ o, k < (inverse o).length := by
    intro k hk
    simpa [inverse, ho.length] using ho.lt hk
  rw [getElem?_gather hlt, getElem?_identity]
  by_cases hi : i < o.length
  · have hlt : o[i] < rank := ho.lt (List.getElem_mem hi)
    rw [List.getElem?_eq_getElem hi, Option.bind_some, getElem?_inverse ho, if_pos hlt,
      ho.nodup.idxOf_getElem i hi, if_pos (ho.length ▸ hi)]
  · rw [List.getElem?_eq_none (Nat.le_of_not_lt hi), if_neg (ho.length ▸ hi)]
    rfl

theorem inverse_gather (ho : IsOrder rank o) : gather (inverse o) o = identity rank := by
  refine List.ext_getElem? fun i ↦ ?_
  have hlt : ∀ k ∈ inverse o, k < o.length := fun k hk ↦ ho.length ▸ (isOrder_inverse ho).lt hk
  rw [getElem?_gather hlt, getElem?_inverse ho, getElem?_identity]
  by_cases hi : i < rank
  · rw [if_pos hi, if_pos hi, Option.bind_some]
    exact List.getElem?_idxOf (ho.mem hi)
  · rw [if_neg hi, if_neg hi]
    rfl

theorem eq_gather_of_mapM {f : Nat → Except ε α} {r : List α}
    (hf : ∀ i a, f i = .ok a → l[i]? = some a) (h : o.mapM f = .ok r) : r = gather o l := by
  replace h := Except.mapM_eq_ok.1 h
  induction h with
  | nil => rfl
  | cons ha _ ih =>
    rw [gather, List.filterMap_cons_some (hf _ _ ha), ih]
    rfl

theorem eq_gather_of_compose {r : AxisOrder} (h : compose rank o₁ o₂ = .ok r) :
    r = gather o₂ o₁ := by
  refine eq_gather_of_mapM (fun i a ha ↦ ?_) h
  split at ha
  next hi => rwa [← Except.ok.inj ha]
  next => cases ha

theorem mapM_eq_gather {f : Nat → Except ε α} (hf : ∀ i a, l[i]? = some a → f i = .ok a)
    (ho : ∀ k ∈ o, k < l.length) : o.mapM f = .ok (gather o l) := by
  refine Except.mapM_eq_ok.2 ?_
  induction o with
  | nil => exact .nil
  | cons k rest ih =>
    have hk : k < l.length := ho k List.mem_cons_self
    rw [gather_cons hk]
    refine .cons (hf k _ (List.getElem?_eq_getElem hk)) (ih fun j hj ↦ ?_)
    exact ho j (List.mem_cons_of_mem k hj)

theorem compose_eq_ok (ho : ∀ k ∈ o₂, k < o₁.length) :
    compose rank o₁ o₂ = .ok (gather o₂ o₁) := by
  refine mapM_eq_gather (fun i a ha ↦ ?_) ho
  rw [ha]

theorem resolve?_lt {axis : Word} {i : Nat} (h : resolve? rank axis = some i) : i < rank := by
  simp only [resolve?, Option.ite_none_right_eq_some, Option.some.injEq] at h
  obtain ⟨⟨hnonneg, hlt⟩, rfl⟩ := h
  exact (Int.toNat_lt hnonneg).2 hlt

theorem isOrder_of_read {found missing : Nat} {axes : List Word} {r : AxisOrder}
    (hnodup : o.Nodup) (hlt : ∀ k ∈ o, k < rank) (hlength : o.length + missing = rank)
    (h : read rank found missing axes o = .ok r) : IsOrder rank r := by
  fun_induction read rank found missing axes o with
  | case1 =>
    cases h
    exact isOrder_of_nodup hnodup hlt hlength
  | case2 => cases h
  | case3 => cases h
  | case4 => cases h
  | case5 n axis rest o i hi hmem ih =>
    refine ih ?_ (fun k hk ↦ ?_) ?_ h
    · exact List.nodup_append'.2 ⟨hnodup, List.nodup_singleton i, by simpa using hmem⟩
    · rcases List.mem_append.1 hk with hk | hk
      · exact hlt k hk
      · cases List.mem_singleton.1 hk
        exact resolve?_lt hi
    · rw [List.length_append, List.length_singleton]
      omega

theorem isOrder_ofAxes {axes : List Word} (h : ofAxes rank axes = .ok o) : IsOrder rank o := by
  simp only [ofAxes] at h
  split at h
  next =>
    cases h
    exact isOrder_reversal rank
  next => exact isOrder_of_read List.nodup_nil nofun (Nat.zero_add rank) h

theorem resolve?_eq_some {axis : Word} {i : Nat} (hi : i < rank)
    (haxis : axis.toInt = i ∨ axis.toInt = (i : Int) - rank) : resolve? rank axis = some i := by
  have hneg : axis < 0 ↔ axis.toInt < 0 := Int64.lt_iff_toInt_lt
  have hcount : (if axis < 0 then axis.toInt + rank else axis.toInt) = i := by
    split
    next h =>
      rw [hneg] at h
      omega
    next h =>
      rw [hneg] at h
      omega
  simp only [resolve?, hcount]
  rw [if_pos (by omega), Int.toNat_natCast]

theorem read_of_resolve (found : Nat) {axes : List Word} (more : List Word) {rest : AxisOrder}
    (haxes : List.Forall₂ (fun axis i ↦ resolve? rank axis = some i) axes rest)
    (hnodup : (o ++ rest).Nodup) :
    read rank found rest.length (axes ++ more) o = .ok (o ++ rest) := by
  induction haxes generalizing o with
  | nil => simp [read]
  | @cons axis i _ rest haxis _ ih =>
    have hi : i ∉ o := fun hi ↦ (List.nodup_append'.1 hnodup).2.2 hi List.mem_cons_self
    rw [List.length_cons, List.cons_append, read, haxis]
    simp only [if_neg hi]
    have hsplit : o ++ i :: rest = (o ++ [i]) ++ rest := by simp
    rw [hsplit] at hnodup ⊢
    exact ih hnodup

/-- An order that a list of axes stands for: one axis after the other, each by its number or counted
from the last one, and what goes beyond the rank being left out. No axes stand for the reversal. -/
inductive Names (rank : Nat) : List Word → AxisOrder → Prop
  | reversed : Names rank [] (reversal rank)
  | listed {axes : List Word} {o : AxisOrder} (hne : axes ≠ []) (ho : IsOrder rank o)
    (haxes : List.Forall₂ (fun (axis : Word) (i : Nat) ↦
      axis.toInt = i ∨ axis.toInt = (i : Int) - rank) (axes.take rank) o) : Names rank axes o

theorem Names.isOrder {axes : List Word} (h : Names rank axes o) : IsOrder rank o := by
  cases h with
  | reversed => exact isOrder_reversal rank
  | listed _ ho _ => exact ho

theorem ofAxes_of_names {axes : List Word} (h : Names rank axes o) : ofAxes rank axes = .ok o := by
  cases h with
  | reversed => rfl
  | listed hne ho haxes =>
    have hresolve : List.Forall₂ (fun axis i ↦ resolve? rank axis = some i) (axes.take rank) o := by
      refine List.forall₂_iff_zip.2 ⟨haxes.length_eq, fun hmem ↦ ?_⟩
      exact resolve?_eq_some (ho.lt (List.of_mem_zip hmem).2)
        ((List.forall₂_iff_zip.1 haxes).2 hmem)
    have hread := read_of_resolve (o := []) axes.length (axes.drop rank) hresolve ho.nodup
    rw [ofAxes, if_neg (by simpa using hne)]
    rwa [ho.length, List.take_append_drop] at hread

theorem names_ofNat (ho : IsOrder rank o) (hrank : rank ≤ 2 ^ 63) :
    Names rank (o.map Int64.ofNat) o := by
  cases o with
  | nil =>
    obtain rfl : 0 = rank := ho.length
    exact .reversed
  | cons k rest =>
    refine .listed (by simp) ho ?_
    rw [List.take_of_length_le (by simp [← ho.length]), List.forall₂_map_left_iff]
    refine List.forall₂_same.2 fun i hi ↦ .inl (Int64.toInt_ofNat_of_lt ?_)
    exact Nat.lt_of_lt_of_le (ho.lt hi) hrank

/-- An order that is written down as a list of axes is read as itself. -/
theorem ofAxes_ofNat (ho : IsOrder rank o) (hrank : rank ≤ 2 ^ 63) :
    ofAxes rank (o.map Int64.ofNat) = .ok o :=
  ofAxes_of_names (names_ofNat ho hrank)

end AxisOrder

end TensorOpt
