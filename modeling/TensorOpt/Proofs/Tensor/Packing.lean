import Mathlib.Algebra.BigOperators.Group.List.Basic
import Mathlib.Algebra.GroupWithZero.Nat
import TensorOpt.Proofs.Tensor.Labelled

namespace TensorOpt

namespace Layout

variable {l l' : Layout} {i : Axis → Nat} {x y extents : Char → Nat} {a : Axis} {c : Char} {n : Nat}

def blocks (l : Layout) (c : Char) : List Axis :=
  l.axes.filter fun a ↦ a.factor.isSome ∧ a.letter.toUpper = c

def blockSize (l : Layout) (c : Char) : Nat := ((l.blocks c).map fun a ↦ a.factor.getD 1).prod

/-- The position along an axis of the tensor, given the coordinates along what is left of the axis
and along its blocks. -/
def merge (l : Layout) (i : Axis → Nat) (c : Char) : Nat :=
  i ⟨none, c⟩ * l.blockSize c + ((l.blocks c).map i).sum

/-- The coordinate along an axis of the layout, given the positions along the axes of the tensor. -/
def split (l : Layout) (x : Char → Nat) (a : Axis) : Nat :=
  match a.factor with
  | none => x a.letter / l.blockSize a.letter
  | some n => x a.letter.toUpper % n

def splitExtent (l : Layout) (extents : Char → Nat) (a : Axis) : Nat :=
  a.factor.getD (extents a.letter / l.blockSize a.letter)

structure Splits (l : Layout) : Prop where
  nodup : l.axes.Nodup
  pos : ∀ a ∈ l.axes, ∀ n ∈ a.factor, 0 < n
  primal : ∀ a ∈ l.axes, a.factor.isSome → ⟨none, a.letter.toUpper⟩ ∈ l.axes
  alone : ∀ a ∈ l.axes, a.factor.isSome → l.blocks a.letter.toUpper = [a]

instance (l : Layout) : Decidable l.Splits :=
  decidable_of_iff
    (l.axes.Nodup ∧ (∀ a ∈ l.axes, ∀ n ∈ a.factor, 0 < n) ∧
      (∀ a ∈ l.axes, a.factor.isSome → ⟨none, a.letter.toUpper⟩ ∈ l.axes) ∧
      ∀ a ∈ l.axes, a.factor.isSome → l.blocks a.letter.toUpper = [a])
    ⟨fun h ↦ ⟨h.1, h.2.1, h.2.2.1, h.2.2.2⟩, fun h ↦ ⟨h.nodup, h.pos, h.primal, h.alone⟩⟩

theorem mem_blocks : a ∈ l.blocks c ↔ a ∈ l.axes ∧ a.factor.isSome ∧ a.letter.toUpper = c := by
  simp [blocks]

section Perm

variable (h : l.axes.Perm l'.axes)

include h

theorem blocks_perm (c : Char) : (l.blocks c).Perm (l'.blocks c) := h.filter _

theorem blockSize_perm : l.blockSize = l'.blockSize :=
  funext fun c ↦ ((blocks_perm h c).map _).prod_eq

theorem merge_perm : l.merge = l'.merge := by
  funext i c
  rw [merge, merge, blockSize_perm h, ((blocks_perm h c).map i).sum_eq]

theorem split_perm : l.split = l'.split := by
  funext x a
  rw [split, split, blockSize_perm h]

theorem splitExtent_perm : l.splitExtent = l'.splitExtent := by
  funext x a
  rw [splitExtent, splitExtent, blockSize_perm h]

theorem Splits.perm (hl : l.Splits) : l'.Splits where
  nodup := h.nodup_iff.1 hl.nodup
  pos a ha := hl.pos a (h.mem_iff.2 ha)
  primal a ha hblock := h.mem_iff.1 (hl.primal a (h.mem_iff.2 ha) hblock)
  alone a ha hblock := by
    have hperm := blocks_perm h a.letter.toUpper
    rw [hl.alone a (h.mem_iff.2 ha) hblock] at hperm
    exact List.perm_singleton.1 hperm.symm

end Perm

namespace Splits

theorem blocks_cases (hl : l.Splits) (c : Char) : l.blocks c = [] ∧ l.blockSize c = 1 ∨
    ∃ a n, a ∈ l.axes ∧ a.factor = some n ∧ a.letter.toUpper = c ∧ 0 < n ∧ l.blocks c = [a] ∧
      l.blockSize c = n := by
  cases hblocks : l.blocks c with
  | nil => exact .inl ⟨rfl, by rw [blockSize, hblocks]; rfl⟩
  | cons a rest =>
    obtain ⟨ha, hblock, rfl⟩ := mem_blocks.1 (hblocks ▸ List.mem_cons_self)
    obtain ⟨n, hn⟩ := Option.isSome_iff_exists.1 hblock
    have halone := hl.alone a ha hblock
    rw [← hblocks]
    refine .inr ⟨a, n, ha, hn, rfl, hl.pos a ha n hn, halone, ?_⟩
    simp [blockSize, halone, hn]

theorem blockSize_pos (hl : l.Splits) (c : Char) : 0 < l.blockSize c := by
  rcases hl.blocks_cases c with ⟨-, hsize⟩ | ⟨a, n, -, -, -, hpos, -, hsize⟩
  · rw [hsize]
    exact Nat.one_pos
  · rwa [hsize]

/-- Coordinates split off a position merge to it. -/
theorem merge_split (hl : l.Splits) (x : Char → Nat) (c : Char) : l.merge (l.split x) c = x c := by
  have hfirst : l.split x ⟨none, c⟩ = x c / l.blockSize c := rfl
  rcases hl.blocks_cases c with ⟨hblocks, hsize⟩ | ⟨a, n, -, hn, rfl, -, hblocks, hsize⟩
  · rw [merge, hfirst, hblocks, hsize]
    simp
  · have hblock : l.split x a = x a.letter.toUpper % n := by rw [split, hn]
    rw [merge, hfirst, hblocks, hsize, List.map_singleton, List.sum_singleton, hblock]
    exact Nat.div_add_mod' _ n

theorem splitExtent_block (hn : a.factor = some n) : l.splitExtent extents a = n := by
  rw [splitExtent, hn, Option.getD_some]

/-- Coordinates within the extents are split off the position that they merge to. -/
theorem split_merge (hl : l.Splits) (hi : ∀ a ∈ l.axes, i a < l.splitExtent extents a)
    (ha : a ∈ l.axes) : l.split (l.merge i) a = i a := by
  obtain ⟨factor, c⟩ := a
  cases factor with
  | none =>
    change l.merge i c / l.blockSize c = _
    rcases hl.blocks_cases c with ⟨hblocks, hsize⟩ | ⟨b, n, hb, hn, -, hpos, hblocks, hsize⟩
    · rw [merge, hblocks, hsize]
      simp
    · have hlt := hi b hb
      rw [splitExtent_block hn] at hlt
      rw [merge, hblocks, hsize, List.map_singleton, List.sum_singleton, Nat.add_comm,
        Nat.add_mul_div_right _ _ hpos, Nat.div_eq_of_lt hlt, Nat.zero_add]
  | some n =>
    have hblocks := hl.alone _ ha rfl
    have hlt := hi _ ha
    rw [splitExtent_block rfl] at hlt
    change l.merge i c.toUpper % n = _
    rw [merge, blockSize, hblocks, List.map_singleton, List.map_singleton, List.prod_singleton,
      List.sum_singleton, Option.getD_some, Nat.mul_add_mod_self_right, Nat.mod_eq_of_lt hlt]

theorem merge_lt (hl : l.Splits) (hi : ∀ a ∈ l.axes, i a < l.splitExtent extents a)
    (hc : ⟨none, c⟩ ∈ l.axes) (hdvd : l.blockSize c ∣ extents c) : l.merge i c < extents c := by
  obtain ⟨k, hk⟩ := hdvd
  have hfirst : i ⟨none, c⟩ < k := by
    have hlt := hi _ hc
    rwa [splitExtent, Option.getD_none, hk, Nat.mul_div_cancel_left _ (hl.blockSize_pos c)] at hlt
  rw [hk]
  rcases hl.blocks_cases c with ⟨hblocks, hsize⟩ | ⟨b, n, hb, hn, -, hpos, hblocks, hsize⟩
  · rw [merge, hblocks, hsize]
    simpa using hfirst
  · have hlt := hi b hb
    rw [splitExtent_block hn] at hlt
    rw [merge, hblocks, hsize, List.map_singleton, List.sum_singleton]
    calc i ⟨none, c⟩ * n + i b < i ⟨none, c⟩ * n + n := Nat.add_lt_add_left hlt _
      _ = n * (i ⟨none, c⟩ + 1) := by rw [Nat.mul_comm, Nat.mul_succ]
      _ ≤ n * k := Nat.mul_le_mul_left n hfirst

theorem split_lt (hl : l.Splits) (hdvd : ∀ c, ⟨none, c⟩ ∈ l.axes → l.blockSize c ∣ extents c)
    (hx : ∀ c, ⟨none, c⟩ ∈ l.axes → x c < extents c) (ha : a ∈ l.axes) :
    l.split x a < l.splitExtent extents a := by
  obtain ⟨factor, c⟩ := a
  cases factor with
  | none => exact Nat.div_lt_div_of_lt_of_dvd (hdvd c ha) (hx c ha)
  | some n => exact Nat.mod_lt _ (hl.pos _ ha n rfl)

theorem merge_label (hc : ⟨none, c⟩ ∈ l.axes) :
    l.merge (l.label (l.axes.map i)) c = l.merge i c := by
  have hblocks : (l.blocks c).map (l.label (l.axes.map i)) = (l.blocks c).map i :=
    List.map_congr_left fun a ha ↦ label_map i (mem_blocks.1 ha).1
  rw [merge, label_map i hc, hblocks, merge]

/-- Only the axes that are there count. -/
theorem split_congr (hl : l.Splits) (h : ∀ c, ⟨none, c⟩ ∈ l.axes → x c = y c) :
    l.axes.map (l.split x) = l.axes.map (l.split y) := by
  refine List.map_congr_left fun a ha ↦ ?_
  obtain ⟨factor, c⟩ := a
  cases factor with
  | none => exact congrArg (· / l.blockSize c) (h c ha)
  | some n => exact congrArg (· % n) (h _ (hl.primal _ ha rfl))

end Splits

theorem splitExtent_congr (h : ∀ c, ⟨none, c⟩ ∈ l.axes → x c = y c) :
    l.axes.map (l.splitExtent x) = l.axes.map (l.splitExtent y) := by
  refine List.map_congr_left fun a ha ↦ ?_
  obtain ⟨factor, c⟩ := a
  cases factor with
  | none => exact congrArg (· / l.blockSize c) (h c ha)
  | some n => rfl

end Layout

open Layout (Splits)

namespace Tensor

variable {V : Type} [Inhabited V] {src mid dst src' dst' l : Layout} {t t' u : Tensor V}

def wholes (l : Layout) (t : Tensor V) (c : Char) : Nat :=
  l.label t.shape ⟨none, c⟩ * l.blockSize c

/-- The tensor can be taken from one layout to the other: both have the same axes but for blocks,
and the blocks are full. -/
structure Packs (src dst : Layout) (t : Tensor V) : Prop where
  srcSplits : src.Splits
  dstSplits : dst.Splits
  rank : t.shape.length = src.rank
  axes : (src.axes.filter Axis.isPrimal).Perm (dst.axes.filter Axis.isPrimal)
  full : ∀ a ∈ src.axes, ∀ n ∈ a.factor, src.label t.shape a = n
  divides : ∀ a ∈ dst.axes, a.factor = none → dst.blockSize a.letter ∣ t.wholes src a.letter

instance (src dst : Layout) (t : Tensor V) : Decidable (Packs src dst t) :=
  decidable_of_iff
    (src.Splits ∧ dst.Splits ∧ t.shape.length = src.rank ∧
      (src.axes.filter Axis.isPrimal).Perm (dst.axes.filter Axis.isPrimal) ∧
      (∀ a ∈ src.axes, ∀ n ∈ a.factor, src.label t.shape a = n) ∧
      ∀ a ∈ dst.axes, a.factor = none → dst.blockSize a.letter ∣ t.wholes src a.letter)
    ⟨fun h ↦ ⟨h.1, h.2.1, h.2.2.1, h.2.2.2.1, h.2.2.2.2.1, h.2.2.2.2.2⟩,
      fun h ↦ ⟨h.srcSplits, h.dstSplits, h.rank, h.axes, h.full, h.divides⟩⟩

def pack (src dst : Layout) (t : Tensor V) : Tensor V :=
  .ofFn t.dtype (dst.axes.map (dst.splitExtent (t.wholes src))) fun p ↦
    t.get (src.axes.map (src.split (dst.merge (dst.label p))))

theorem inBounds_map {i e : Axis → Nat} {axes : List Axis} :
    InBounds (axes.map i) (axes.map e) ↔ ∀ a ∈ axes, i a < e a := by
  rw [InBounds, List.forall₂_map_left_iff, List.forall₂_map_right_iff, List.forall₂_same]

theorem wholes_of_agree (h : Agree src t src' t') {c : Char} (hc : ⟨none, c⟩ ∈ src.axes) :
    t.wholes src c = t'.wholes src' c := by
  rw [wholes, wholes, h.label hc, Layout.blockSize_perm h.axes]

namespace Packs

theorem mem_axes (h : Packs src dst t) {c : Char} :
    ⟨none, c⟩ ∈ src.axes ↔ ⟨none, c⟩ ∈ dst.axes := by
  have hmem (l : Layout) : ⟨none, c⟩ ∈ l.axes.filter Axis.isPrimal ↔ ⟨none, c⟩ ∈ l.axes := by
    simp [Axis.isPrimal]
  rw [← hmem, h.axes.mem_iff, hmem]

/-- The element at a coordinate is the one at the same positions along the axes of the tensor. -/
theorem get_pack (h : Packs src dst t) {i : Axis → Nat}
    (hi : ∀ a ∈ dst.axes, i a < dst.splitExtent (t.wholes src) a) :
    (t.pack src dst).get (dst.axes.map i) = t.get (src.axes.map (src.split (dst.merge i))) := by
  rw [pack, get_ofFn (inBounds_map.2 hi)]
  congr 1
  exact h.srcSplits.split_congr fun c hc ↦ Splits.merge_label (h.mem_axes.1 hc)

theorem of_agree (h : Packs src dst t) (hagree : Agree src t src' t') : Packs src' dst t' where
  srcSplits := h.srcSplits.perm hagree.axes
  dstSplits := h.dstSplits
  rank := by
    obtain ⟨extent, -, hshape⟩ := hagree.shape
    rw [hshape, List.length_map, Layout.rank]
  axes := (hagree.axes.filter _).symm.trans h.axes
  full a ha n hn := by
    have ha' := hagree.axes.mem_iff.2 ha
    rw [← hagree.label ha', h.full a ha' n hn]
  divides a ha hfactor := by
    have ha' : ⟨none, a.letter⟩ ∈ src.axes := h.mem_axes.2 (hfactor ▸ ha)
    rw [← wholes_of_agree hagree ha']
    exact h.divides a ha hfactor

theorem pack_of_agree (h : Packs src dst t) (hagree : Agree src t src' t') :
    t.pack src dst = t'.pack src' dst := by
  have hshape : dst.axes.map (dst.splitExtent (t.wholes src)) =
      dst.axes.map (dst.splitExtent (t'.wholes src')) := by
    refine Layout.splitExtent_congr fun c hc ↦ wholes_of_agree hagree (h.mem_axes.2 hc)
  rw [pack, pack, hagree.dtype, hshape]
  congr 1
  funext p
  rw [hagree.get, Layout.split_perm hagree.axes]

theorem of_perm (h : Packs src dst t) (hperm : dst.axes.Perm dst'.axes) : Packs src dst' t where
  srcSplits := h.srcSplits
  dstSplits := h.dstSplits.perm hperm
  rank := h.rank
  axes := h.axes.trans (hperm.filter _)
  full := h.full
  divides a ha := by
    rw [← Layout.blockSize_perm hperm]
    exact h.divides a (hperm.mem_iff.2 ha)

theorem agree_pack (h : Packs src dst t) (hperm : dst.axes.Perm dst'.axes) :
    Agree dst (t.pack src dst) dst' (t.pack src dst') where
  dtype := rfl
  axes := hperm
  shape := ⟨dst.splitExtent (t.wholes src), rfl, by rw [Layout.splitExtent_perm hperm]; rfl⟩
  get i := by
    by_cases hi : ∀ a ∈ dst.axes, i a < dst.splitExtent (t.wholes src) a
    · have hi' : ∀ a ∈ dst'.axes, i a < dst'.splitExtent (t.wholes src) a := by
        intro a ha
        rw [← Layout.splitExtent_perm hperm]
        exact hi a (hperm.mem_iff.2 ha)
      rw [h.get_pack hi, (h.of_perm hperm).get_pack hi', Layout.merge_perm hperm]
    · have hi' : ¬∀ a ∈ dst'.axes, i a < dst'.splitExtent (t.wholes src) a := by
        rw [← Layout.splitExtent_perm hperm]
        exact fun h ↦ hi fun a ha ↦ h a (hperm.mem_iff.1 ha)
      rw [get_outside _ _ (mt inBounds_map.1 hi), get_outside _ _ (mt inBounds_map.1 hi')]

/-- Between a layout and itself nothing moves. -/
theorem pack_self (h : Packs l l t) : t.pack l l = t := by
  have hlabel : l.axes.map (l.splitExtent (t.wholes l)) = t.shape := by
    rw [← Layout.map_label h.srcSplits.nodup h.rank]
    refine List.map_congr_left fun a ha ↦ ?_
    obtain ⟨factor, c⟩ := a
    cases factor with
    | none => exact Nat.mul_div_cancel _ (h.srcSplits.blockSize_pos c)
    | some n => exact (h.full _ ha n rfl).symm
  refine ext_inBounds rfl hlabel fun p hp ↦ ?_
  have hlength : p.length = l.rank := hp.length_eq.trans (List.length_map _)
  rw [← Layout.map_label h.srcSplits.nodup hlength] at hp ⊢
  have hi := inBounds_map.1 hp
  rw [h.get_pack hi]
  exact congrArg t.get (List.map_congr_left fun a ha ↦ h.srcSplits.split_merge hi ha)

theorem wholes_pack (h : Packs src dst t) {c : Char} (hc : ⟨none, c⟩ ∈ dst.axes) :
    (t.pack src dst).wholes dst c = t.wholes src c := by
  change dst.label (dst.axes.map _) ⟨none, c⟩ * _ = _
  rw [Layout.label_map _ hc]
  exact Nat.div_mul_cancel (h.divides _ hc rfl)

theorem trans (h : Packs src mid t) (h' : Packs mid dst (t.pack src mid)) : Packs src dst t where
  srcSplits := h.srcSplits
  dstSplits := h'.dstSplits
  rank := h.rank
  axes := h.axes.trans h'.axes
  full := h.full
  divides a ha hfactor := by
    have ha' : ⟨none, a.letter⟩ ∈ mid.axes := h'.mem_axes.2 (hfactor ▸ ha)
    rw [← h.wholes_pack ha']
    exact h'.divides a ha hfactor

theorem pack_pack (h : Packs src mid t) (h' : Packs mid dst (t.pack src mid)) :
    (t.pack src mid).pack mid dst = t.pack src dst := by
  have hwholes {c : Char} (hc : ⟨none, c⟩ ∈ dst.axes) :
      (t.pack src mid).wholes mid c = t.wholes src c := h.wholes_pack (h'.mem_axes.2 hc)
  have hshape : dst.axes.map (dst.splitExtent ((t.pack src mid).wholes mid)) =
      dst.axes.map (dst.splitExtent (t.wholes src)) :=
    Layout.splitExtent_congr fun c hc ↦ hwholes hc
  refine ext_inBounds rfl hshape fun p hp ↦ ?_
  have hlength : p.length = dst.rank := hp.length_eq.trans (List.length_map _)
  rw [← Layout.map_label h'.dstSplits.nodup hlength] at hp ⊢
  have hi := inBounds_map.1 hp
  have hi' : ∀ a ∈ dst.axes, dst.label p a < dst.splitExtent (t.wholes src) a := by
    rw [← inBounds_map, ← hshape]
    exact hp
  -- the positions along the axes of the tensor are within its extents
  have hdvd (c : Char) (hc : ⟨none, c⟩ ∈ mid.axes) : mid.blockSize c ∣ t.wholes src c :=
    h.divides _ hc rfl
  have hx (c : Char) (hc : ⟨none, c⟩ ∈ mid.axes) : dst.merge (dst.label p) c < t.wholes src c := by
    have hc' := h'.mem_axes.1 hc
    exact h'.dstSplits.merge_lt hi' hc' ((h.trans h').divides _ hc' rfl)
  rw [h'.get_pack hi, h.get_pack fun a ha ↦ h.dstSplits.split_lt hdvd hx ha,
    (h.trans h').get_pack hi']
  congr 1
  exact h.srcSplits.split_congr fun c _ ↦ h.dstSplits.merge_split _ c

end Packs

end Tensor

def Relayout.packing (V : Type) [Inhabited V] : Relayout V where
  move src dst t := if t.Packs src dst then some (t.pack src dst) else none
  rank h := by
    obtain ⟨hpacks, h⟩ := Option.ite_none_right_eq_some.1 h
    cases h
    exact ⟨hpacks.rank, List.length_map _⟩
  reads {src src' dst t t'} hagree := by
    by_cases h : Tensor.Packs src dst t
    · rw [if_pos h, if_pos (h.of_agree hagree), h.pack_of_agree hagree]
    · rw [if_neg h, if_neg fun h' ↦ h (h'.of_agree hagree.symm)]
  writes hperm h := by
    obtain ⟨hpacks, h⟩ := Option.ite_none_right_eq_some.1 h
    cases h
    exact ⟨_, if_pos (hpacks.of_perm hperm), hpacks.agree_pack hperm⟩
  same h := by
    obtain ⟨hpacks, h⟩ := Option.ite_none_right_eq_some.1 h
    cases h
    exact hpacks.pack_self
  trans h h' := by
    obtain ⟨hpacks, h⟩ := Option.ite_none_right_eq_some.1 h
    cases h
    obtain ⟨hpacks', h'⟩ := Option.ite_none_right_eq_some.1 h'
    cases h'
    rw [if_pos (hpacks.trans hpacks'), hpacks.pack_pack hpacks']

end TensorOpt
