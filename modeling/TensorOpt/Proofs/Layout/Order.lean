import TensorOpt.Proofs.Layout.RoundTrip
import TensorOpt.Proofs.Rule.AxisOrder

namespace TensorOpt

open AxisOrder

variable {rank : Nat} {o : AxisOrder} {src dst l : Layout}

namespace AxisOrder

theorem ofLayouts_eq_ok : ofLayouts rank src dst = .ok o ↔
    List.Forall₂ (fun i j ↦ dst.axes[i]?.bind src.indexOf? = some j) (List.range rank) o := by
  rw [ofLayouts, Except.mapM_eq_ok]
  constructor
  · refine .imp fun i j h ↦ ?_
    split at h
    next k hk =>
      cases h
      exact hk
    next => cases h
  · refine .imp fun i j h ↦ ?_
    rw [h]

theorem gather_ofLayouts (hsrc : (src.axes.map Axis.letter).Nodup)
    (hperm : src.axes.Perm dst.axes) (hrank : dst.rank = rank)
    (h : ofLayouts rank src dst = .ok o) : IsOrder rank o ∧ gather o src.axes = dst.axes := by
  have horder := ofLayouts_eq_ok.1 h
  have hlength : o.length = rank := horder.length_eq.symm.trans List.length_range
  have hget {i : Nat} (hi : i < rank) : dst.axes[i]? = o[i]?.bind (src.axes[·]?) := by
    have hi' : i < o.length := hlength ▸ hi
    have hfound : dst.axes[i]?.bind src.indexOf? = some o[i] := by
      simpa using horder.get (i := i) (by simpa using hi) hi'
    obtain ⟨a, ha, hindex⟩ := Option.bind_eq_some_iff.1 hfound
    have hmem : a ∈ src.axes := hperm.mem_iff.2 (List.mem_of_getElem? ha)
    rw [ha, List.getElem?_eq_getElem hi', Option.bind_some,
      (Layout.indexOf?_eq_some hsrc hmem).1 hindex]
  have hlt : ∀ k ∈ o, k < src.axes.length := by
    intro k hk
    obtain ⟨i, hi, rfl⟩ := List.mem_iff_getElem.1 hk
    have hi' : i < rank := hlength ▸ hi
    have hsome := hget hi'
    rw [List.getElem?_eq_getElem hi, Option.bind_some,
      List.getElem?_eq_getElem (hrank.symm ▸ hi' : i < dst.rank)] at hsome
    exact (List.getElem?_eq_some_iff.1 hsome.symm).1
  have haxes : gather o src.axes = dst.axes := by
    refine List.ext_getElem? fun i ↦ ?_
    rw [getElem?_gather hlt]
    by_cases hi : i < rank
    · rw [hget hi]
    · rw [List.getElem?_eq_none (by omega), List.getElem?_eq_none (by rw [← Layout.rank]; omega)]
      rfl
  have hnodup : (gather o src.axes).Nodup := by
    rw [haxes]
    exact hperm.nodup_iff.1 (.of_map _ hsrc)
  have hsrcRank : src.axes.length = rank := hperm.length_eq.trans hrank
  exact ⟨isOrder_of_nodup (nodup_of_gather hlt hnodup) (hsrcRank ▸ hlt) hlength, haxes⟩

theorem ofLayouts_of_gather (hsrc : (src.axes.map Axis.letter).Nodup) (hrank : src.rank = rank)
    (ho : IsOrder rank o) (h : gather o src.axes = dst.axes) : ofLayouts rank src dst = .ok o := by
  refine ofLayouts_eq_ok.2 (List.forall₂_iff_get.2 ⟨by simp [ho.length], fun i hi hi' ↦ ?_⟩)
  have hlt : ∀ k ∈ o, k < src.axes.length := fun k hk ↦ Nat.lt_of_lt_of_eq (ho.lt hk) hrank.symm
  have hk : o[i] < src.axes.length := hlt _ (List.getElem_mem hi')
  have hget : dst.axes[i]? = some src.axes[o[i]] := by
    rw [← h, getElem?_gather hlt, List.getElem?_eq_getElem hi', Option.bind_some,
      List.getElem?_eq_getElem hk]
  simp only [List.get_eq_getElem, List.getElem_range, hget, Option.bind_some]
  exact (Layout.indexOf?_eq_some hsrc (List.getElem_mem hk)).2 (List.getElem?_eq_getElem hk)

end AxisOrder

namespace Layout

theorem axes_of_permute (h : l.permute o = .ok dst) :
    dst = ofAxes (gather o l.axes) := by
  obtain ⟨axes, haxes, h⟩ := Except.bind_eq_ok.1 h
  cases h
  rw [eq_gather_of_mapM (fun i a ha ↦ ?_) haxes]
  split at ha
  next hi => rwa [← Except.ok.inj ha]
  next => cases ha

theorem permute_of_lt (ho : ∀ k ∈ o, k < l.rank) :
    l.permute o = .ok (ofAxes (gather o l.axes)) := by
  refine Except.bind_eq_ok.2 ⟨_, mapM_eq_gather (fun i a ha ↦ ?_) ho, rfl⟩
  rw [ha]

theorem permute_eq_ok (ho : IsOrder l.rank o) : l.permute o = .ok (ofAxes (gather o l.axes)) :=
  permute_of_lt fun _ hk ↦ ho.lt hk

/-- Some of the axes of a layout, in whatever order, have different letters again. -/
theorem WellFormed.gather (hl : l.WellFormed) (ho : o.Nodup) :
    (ofAxes (gather o l.axes)).WellFormed where
  readable a ha := by
    obtain ⟨k, -, hk⟩ := List.mem_filterMap.1 ha
    exact hl.readable a (List.mem_of_getElem? hk)
  letters := by
    rw [ofAxes, ← gather_map]
    exact nodup_gather ho hl.letters

/-- Reordering the axes of a layout that can be read gives one that can be read. -/
theorem parse_permute (hl : l.WellFormed) (ho : IsOrder l.rank o) (h : l.permute o = .ok dst) :
    parse dst.name = .ok dst := by
  rw [axes_of_permute h]
  exact parse_ofAxes (hl.gather ho.nodup)

/-- If a layout has been read, any choice of its axes gives a layout that is read again as itself.
Permuting twice is permuting once by the order that the second order makes of the first, so that an
order and its inverse give back the axes. -/
theorem permute_reads_back_and_acts (l : Layout) :
    (∀ text order, parse text = .ok l → order.Nodup → (∀ i ∈ order, i < l.rank) →
      ∃ m, l.permute order = .ok m ∧ m.axes = gather order l.axes ∧ parse m.name = .ok m) ∧
    (∀ p q, (∀ i ∈ p, i < l.rank) → (∀ i ∈ q, i < p.length) →
      ∃ m n, l.permute p = .ok m ∧ m.permute q = .ok n ∧ l.permute (gather q p) = .ok n) ∧
    ∀ p, IsOrder l.rank p →
      ∃ m n, l.permute p = .ok m ∧ m.permute (inverse p) = .ok n ∧ n.axes = l.axes := by
  -- A second order is in range for the axes that the first one leaves.
  have hagain (p q : AxisOrder) (hp : ∀ i ∈ p, i < l.rank) (hq : ∀ i ∈ q, i < p.length) :
      (ofAxes (gather p l.axes)).permute q = .ok (ofAxes (gather (gather q p) l.axes)) := by
    rw [← gather_gather hp]
    refine permute_of_lt fun i hi ↦ ?_
    exact Nat.lt_of_lt_of_eq (hq i hi) (length_gather hp).symm
  refine ⟨fun text order htext hnodup hlt ↦ ?_, fun p q hp hq ↦ ?_, fun p hp ↦ ?_⟩
  · exact ⟨_, permute_of_lt hlt, rfl, parse_ofAxes ((wellFormed_of_parse htext).2.gather hnodup)⟩
  · refine ⟨_, _, permute_of_lt hp, hagain p q hp hq, permute_of_lt fun i hi ↦ ?_⟩
    obtain ⟨j, -, hj⟩ := List.mem_filterMap.1 hi
    exact hp i (List.mem_of_getElem? hj)
  · have hlt : ∀ i ∈ inverse p, i < p.length := fun i hi ↦ hp.length ▸ (isOrder_inverse hp).lt hi
    refine ⟨_, _, permute_eq_ok hp, hagain p (inverse p) (fun i hi ↦ hp.lt hi) hlt, ?_⟩
    rw [inverse_gather hp]
    exact identity_gather rfl

-- A selection drops the leading zeros of a block, and reads back under the name without them.
theorem permute_reads_back_and_acts_blocked :
    let l : Layout := ⟨"N008cHW", [⟨none, 'N'⟩, ⟨some 8, 'c'⟩, ⟨none, 'H'⟩, ⟨none, 'W'⟩]⟩
    (∃ m, l.permute [3, 1] = .ok m ∧ m.axes = [⟨none, 'W'⟩, ⟨some 8, 'c'⟩] ∧
      parse m.name = .ok m) ∧
    (∃ m n, l.permute [3, 1, 1] = .ok m ∧ m.permute [2, 0] = .ok n ∧
      l.permute [1, 3] = .ok n) ∧
    ∃ m n, l.permute [1, 2, 3, 0] = .ok m ∧ m.permute [3, 0, 1, 2] = .ok n ∧ n.axes = l.axes := by
  intro l
  obtain ⟨hread, htwice, hinverse⟩ := permute_reads_back_and_acts l
  have horder : IsOrder l.rank [1, 2, 3, 0] := isOrder_of_nodup (by decide) (by decide) rfl
  exact ⟨hread "N008cHW" [3, 1] (by decide) (by decide) (by decide),
    htwice [3, 1, 1] [2, 0] (by decide) (by decide), hinverse [1, 2, 3, 0] horder⟩

end Layout

end TensorOpt
