import TensorOpt.Proofs.Rule.AxisErrors
import TensorOpt.Proofs.Rule.Labels

namespace TensorOpt

open AxisOrder (Follows IsOrder Names)

variable {g : Graph} {call outer inner pre post : NodeId} {rank : Nat} {o o₁ o₂ : AxisOrder}
  {before after : List Axis} {src dst : Layout} {τ : TensorType} {axes : List Word} {b : Bindings}

theorem Attribute.eq_ints_of_ints? {a : Attribute} (h : a.ints? = some axes) :
    a = .ints axes := by
  cases a with
  | list items =>
    refine congrArg Attribute.list ?_
    rw [ints?] at h
    induction items generalizing axes with
    | nil =>
      cases h
      rfl
    | cons item rest ih =>
      rw [List.mapM_cons] at h
      obtain ⟨axis, hitem, h⟩ := Option.bind_eq_some_iff.1 h
      obtain ⟨axes, hrest, ⟨⟩⟩ := Option.bind_eq_some_iff.1 h
      simp only [int?] at hitem
      split at hitem
      next =>
        cases hitem
        rw [List.map_cons, ← ih hrest]
      next => cases hitem
  | _ => cases h

namespace AxisOrder

theorem toInt_of_resolve? {axis : Word} {i : Nat} (h : resolve? rank axis = some i) :
    axis.toInt = i ∨ axis.toInt = (i : Int) - rank := by
  simp only [resolve?, Option.ite_none_right_eq_some, Option.some.injEq] at h
  obtain ⟨⟨hnonneg, -⟩, rfl⟩ := h
  rw [Int.toNat_of_nonneg hnonneg]
  split
  next => exact .inr (by omega)
  next => exact .inl rfl

/-- What has been read extends what had been read before by one axis for each entry. -/
theorem resolve_of_read {found missing : Nat} (h : read rank found missing axes o₁ = .ok o) :
    ∃ rest, o = o₁ ++ rest ∧ List.Forall₂ (fun axis i ↦ resolve? rank axis = some i)
      (axes.take missing) rest := by
  fun_induction read rank found missing axes o₁ with
  | case1 =>
    cases h
    exact ⟨[], by simp, by simp⟩
  | case2 => cases h
  | case3 => cases h
  | case4 => cases h
  | case5 n axis axes o₁ i hi hmem ih =>
    obtain ⟨rest, rfl, hrest⟩ := ih h
    exact ⟨i :: rest, by simp, .cons hi hrest⟩

theorem ofAxes_eq_ok : ofAxes rank axes = .ok o ↔ Names rank axes o := by
  refine ⟨fun h ↦ ?_, ofAxes_of_names⟩
  have hisOrder := isOrder_ofAxes h
  cases axes with
  | nil =>
    cases h
    exact .reversed
  | cons axis rest =>
    obtain ⟨_, rfl, haxes⟩ := resolve_of_read h
    exact .listed (List.cons_ne_nil _ _) hisOrder (haxes.imp fun _ _ ↦ toInt_of_resolve?)

theorem names_nil : Names rank [] o ↔ o = reversal rank := by
  constructor
  · intro h
    cases h with
    | reversed => rfl
    | listed hne => exact absurd rfl hne
  · rintro rfl
    exact .reversed

/-- Stores the position of each axis under the axis, the first position being `next`. -/
def scatter : (next : Nat) → (order : AxisOrder) → (filled : AxisOrder) → Option AxisOrder
  | _, [], filled => some filled
  | i, axis :: rest, filled =>
    if axis < filled.length then scatter (i + 1) rest (filled.set axis i) else none

theorem getElem?_scatter (next : Nat) (filled : AxisOrder) (hnodup : o.Nodup)
    (hlt : ∀ k ∈ o, k < filled.length) : ∃ r, scatter next o filled = some r ∧
      ∀ k, r[k]? = if k ∈ o then some (next + o.idxOf k) else filled[k]? := by
  induction o generalizing next filled with
  | nil => exact ⟨filled, rfl, fun k ↦ by simp⟩
  | cons axis rest ih =>
    obtain ⟨hnew, hnodup⟩ := List.nodup_cons.1 hnodup
    obtain ⟨haxis, hrest⟩ := List.forall_mem_cons.1 hlt
    obtain ⟨r, hr, hget⟩ := ih (next + 1) (filled.set axis next) hnodup (by simpa using hrest)
    refine ⟨r, by rw [scatter, if_pos haxis, hr], fun k ↦ ?_⟩
    rw [hget k]
    by_cases hk : k = axis
    · subst hk
      simp [hnew, haxis]
    · have hne : axis ≠ k := Ne.symm hk
      simp only [List.mem_cons, hk, false_or, List.getElem?_set_ne hne, List.idxOf_cons_ne _ hne]
      congr 2
      omega

/-- Every axis of a permutation is given its position, by one entry. -/
theorem scatter_eq_inverse (ho : IsOrder rank o) :
    scatter 0 o (List.replicate o.length 0) = some o.inverse := by
  have hlt : ∀ k ∈ o, k < (List.replicate o.length 0).length := by
    intro k hk
    rw [List.length_replicate, ho.length]
    exact ho.lt hk
  obtain ⟨r, hr, hget⟩ := getElem?_scatter 0 (List.replicate o.length 0) ho.nodup hlt
  rw [hr]
  refine congrArg some (List.ext_getElem? fun k ↦ ?_)
  rw [hget k, getElem?_inverse ho]
  by_cases hk : k < rank
  · rw [if_pos (ho.mem hk), if_pos hk, Nat.zero_add]
  · rw [if_neg (mt ho.lt hk), if_neg hk, List.getElem?_eq_none]
    rw [List.length_replicate, ho.length]
    exact Nat.le_of_not_lt hk

theorem Follows.lt (h : Follows o before after) {k : Nat} (hk : k ∈ o) : k < before.length := by
  obtain ⟨i, hi⟩ := List.getElem?_of_mem hk
  obtain ⟨a, -, ha, -⟩ := h i k hi
  exact (List.getElem?_eq_some_iff.1 ha).1

/-- Positions with different letters come from different axes. -/
theorem Follows.nodup (h : Follows o before after) (hletters : (after.map Axis.letter).Nodup) :
    o.Nodup := by
  refine List.nodup_iff_getElem?_ne_getElem?.2 fun i j hij hj heq ↦ ?_
  have hk : o[j]? = some o[j] := List.getElem?_eq_getElem hj
  obtain ⟨a, c, ha, hc, hac⟩ := h i o[j] (heq.trans hk)
  obtain ⟨a', d, ha', hd, had⟩ := h j o[j] hk
  cases ha.symm.trans ha'
  have hi : i < (after.map Axis.letter).length := by
    rw [List.length_map]
    exact (List.getElem?_eq_some_iff.1 hc).1
  have hletter : (after.map Axis.letter)[i]? = (after.map Axis.letter)[j]? := by
    rw [List.getElem?_map, List.getElem?_map, hc, hd, Option.map_some, Option.map_some, ← hac, had]
  exact Nat.ne_of_lt hij ((List.getElem?_inj hi hletters).1 hletter)

def Exceeds (rank : Nat) (o : AxisOrder) : Prop := ∃ k ∈ o, rank ≤ k

end AxisOrder

open AxisOrder (Exceeds)

def ReadsBeyond {α : Type} (x : Except RuleError α) : Prop :=
  ∃ axis rank, x = .error (.axisBeyondRank axis rank)

theorem not_readsBeyond {α : Type} {x : Except RuleError α}
    (h : Except.FailsWith RuleError.OfCall x) : ¬ReadsBeyond x := by
  rintro ⟨axis, rank, hx⟩
  exact h _ hx

theorem readsBeyond_bind {α β : Type} {x : Except RuleError α} {f : α → Except RuleError β} :
    ReadsBeyond (x >>= f) ↔ ReadsBeyond x ∨ ∃ a, x = .ok a ∧ ReadsBeyond (f a) := by
  cases x with
  | error err => simp [ReadsBeyond, bind, Except.bind]
  | ok a => simp [ReadsBeyond, bind, Except.bind]

/-- What is left to do if there is no result yet is all that can read beyond the end. -/
theorem readsBeyond_bind_option {α β : Type} {x : Except RuleError (Option α)}
    {f : Option α → Except RuleError β} (hx : Except.FailsWith RuleError.OfCall x)
    (hsome : ∀ a, ¬ReadsBeyond (f (some a))) :
    ReadsBeyond (x >>= f) ↔ x = .ok none ∧ ReadsBeyond (f none) := by
  rw [readsBeyond_bind]
  constructor
  · rintro (hbeyond | ⟨result, hresult, hbeyond⟩)
    · exact absurd hbeyond (not_readsBeyond hx)
    · cases result with
      | some a => exact absurd hbeyond (hsome a)
      | none => exact ⟨hresult, hbeyond⟩
  · rintro ⟨hresult, hbeyond⟩
    exact .inr ⟨none, hresult, hbeyond⟩

namespace AxisOrder

theorem readsBeyond_compose : ReadsBeyond (compose rank o₁ o₂) ↔ Exceeds o₁.length o₂ := by
  constructor
  · rintro ⟨axis, r, h⟩
    exact compose_failsWith (P := fun _ ↦ Exceeds o₁.length o₂) (fun i hi hle ↦ ⟨i, hi, hle⟩) _ h
  · rintro ⟨k, hk, hle⟩
    cases h : compose rank o₁ o₂ with
    | error err =>
      exact compose_failsWith (P := fun err ↦ ReadsBeyond (Except.error err : Except _ AxisOrder))
        (fun i _ _ ↦ ⟨i, rank, rfl⟩) err h
    | ok r =>
      obtain ⟨i, hi, rfl⟩ := List.mem_iff_getElem.1 hk
      have hall := forall₂_of_compose h
      have hsome : o₁[o₂[i]]? = some _ := hall.get hi (hall.length_eq ▸ hi)
      rw [List.getElem?_eq_none hle] at hsome
      cases hsome

theorem compose_identity {r : AxisOrder} :
    compose rank (identity rank) o = .ok r ↔ (∀ k ∈ o, k < rank) ∧ r = o := by
  constructor
  · intro h
    have hlt : ∀ k ∈ o, k < rank := by
      refine fun k hk ↦ Nat.lt_of_not_le fun hle ↦ ?_
      obtain ⟨axis, r', herror⟩ := readsBeyond_compose.2
        ⟨k, hk, Nat.le_trans (Nat.le_of_eq List.length_range) hle⟩
      cases h.symm.trans herror
    exact ⟨hlt, (eq_gather_of_compose h).trans (gather_identity hlt)⟩
  · rintro ⟨hlt, rfl⟩
    rw [compose_eq_ok (by simpa [identity] using hlt), gather_identity hlt]

end AxisOrder

namespace Graph

/-- The order of a transpose is a permutation that its axes name, or the reversal if there is no
list of axes. -/
theorem axisOrder_transpose_iff (hcall : g.IsCallTo call Op.transpose) :
    g.axisOrder call rank = .ok o ↔
      (∀ axes, g.attr? call Key.axes = some (.ints axes) → axes = []) ∧
        o = AxisOrder.reversal rank ∨
      ∃ axes, g.attr? call Key.axes = some (.ints axes) ∧ axes ≠ [] ∧ Names rank axes o := by
  have hattr (axes : List Word) : (g.attr? call Key.axes).bind Attribute.ints? = some axes ↔
      g.attr? call Key.axes = some (.ints axes) := by
    rw [Option.bind_eq_some_iff]
    constructor
    · rintro ⟨a, ha, haxes⟩
      rw [ha, Attribute.eq_ints_of_ints? haxes]
    · exact fun h ↦ ⟨_, h, Interpretation.ints?_ints axes⟩
  rw [axisOrder, if_pos hcall, Except.mapError_eq_ok, AxisOrder.ofAxes_eq_ok]
  simp only [← hattr]
  cases (g.attr? call Key.axes).bind Attribute.ints? with
  | none => simp [AxisOrder.names_nil]
  | some axes =>
    by_cases hnil : axes = []
    · subst hnil
      simp [AxisOrder.names_nil]
    · simp [hnil]

theorem length_of_axisOrder (h : g.axisOrder call rank = .ok o) : o.length = rank := by
  rcases axisOrder_cases h with ⟨-, hisOrder⟩ | ⟨-, src, dst, -, ho⟩
  · exact hisOrder.length
  · exact (AxisOrder.follows_ofLayouts ho).2

theorem axisOrder_layouts (hcall : g.IsCallTo call Op.layoutTransform)
    (hlayouts : g.layouts call = .ok (src, dst)) (h : g.axisOrder call rank = .ok o) :
    Follows o src.axes dst.axes ∧ o.Nodup := by
  rcases axisOrder_cases h with ⟨htranspose, -⟩ | ⟨-, src', dst', hlayouts', ho⟩
  · exact absurd hcall htranspose.not_layoutTransform
  · cases hlayouts.symm.trans hlayouts'
    have hfollows := (AxisOrder.follows_ofLayouts ho).1
    have hdst := named_of_layoutAttr (layouts_eq_ok.1 hlayouts).2
    exact ⟨hfollows, hfollows.nodup hdst.wellFormed.letters⟩

/-- What is not a layout transform has the order of a transpose. -/
theorem isOrder_of_axisOrder (hcall : ¬g.IsCallTo call Op.layoutTransform)
    (h : g.axisOrder call rank = .ok o) : IsOrder rank o := by
  rcases axisOrder_cases h with ⟨-, hisOrder⟩ | ⟨hcall', -⟩
  · exact hisOrder
  · exact absurd hcall' hcall

theorem isCallTo_of_exceeds (h : g.axisOrder call rank = .ok o) (hexceeds : Exceeds rank o) :
    g.IsCallTo call Op.layoutTransform := by
  obtain ⟨k, hk, hle⟩ := hexceeds
  refine Decidable.by_contra fun hcall ↦ ?_
  exact absurd ((isOrder_of_axisOrder hcall h).lt hk) (Nat.not_lt.2 hle)

end Graph

namespace Rule.Transpose

/-- The first step of fusing two operators, which leaves them as they are if neither changes the
length of a layout. -/
def merge? (g : Graph) (outer inner : NodeId) : Except RuleError (Option Fused) :=
  if g.IsCallTo outer Op.layoutTransform ∧ g.IsCallTo inner Op.layoutTransform then
    fuseLayouts? g outer inner
  else absorb? g outer inner

theorem readsBeyond_composeOrders : ReadsBeyond (composeOrders g outer inner rank) ↔
    (∃ o, g.axisOrder inner rank = .ok o ∧ Exceeds rank o) ∨
      ∃ o, g.axisOrder inner rank = .ok o ∧ (∀ k ∈ o, k < rank) ∧
        ∃ o', g.axisOrder outer rank = .ok o' ∧ Exceeds rank o' := by
  have hnever (call : NodeId) : ¬ReadsBeyond (g.axisOrder call rank) :=
    not_readsBeyond Graph.axisOrder_failsWith
  have hidentity : (AxisOrder.identity rank).length = rank := List.length_range
  simp only [composeOrders, readsBeyond_bind, hnever, false_or, AxisOrder.readsBeyond_compose,
    hidentity, AxisOrder.compose_identity, ← exists_or, ← and_or_left]
  refine exists_congr fun o ↦ and_congr_right fun ho ↦ or_congr_right ?_
  constructor
  · rintro ⟨_, ⟨hlt, rfl⟩, o', ho', hexceeds⟩
    rw [Graph.length_of_axisOrder ho] at hexceeds
    exact ⟨hlt, o', ho', hexceeds⟩
  · rintro ⟨hlt, o', ho', hexceeds⟩
    rw [← Graph.length_of_axisOrder ho] at hexceeds
    exact ⟨o, ⟨hlt, rfl⟩, o', ho', hexceeds⟩

theorem readsBeyond_fuse : ReadsBeyond (fuse g outer inner rank) ↔
    merge? g outer inner = .ok none ∧ ReadsBeyond (composeOrders g outer inner rank) := by
  have hok {α : Type} (a : α) : ¬ReadsBeyond (Except.ok a) := not_readsBeyond (.ok a)
  have haxes : ReadsBeyond (composeOrders g outer inner rank >>= fun o ↦ .ok (Fused.axes o)) ↔
      ReadsBeyond (composeOrders g outer inner rank) := by
    simp only [readsBeyond_bind, hok, and_false, exists_false, or_false]
  rw [fuse, merge?, ← haxes]
  split
  next => exact readsBeyond_bind_option fuseLayouts?_failsWith hok
  next => exact readsBeyond_bind_option absorb?_failsWith hok

theorem FindsPair.readsBeyond_apply (h : FindsPair g pre post inner τ)
    (hfuse : ReadsBeyond (fuse g post inner τ.rank)) :
    ReadsBeyond (exec (Rule.transpose.apply pre post b) g).1 := by
  obtain ⟨axis, rank, herror⟩ := hfuse
  obtain ⟨rest, hpost⟩ := List.head?_eq_some_iff.1 h.arg
  obtain ⟨data, rest', hinner⟩ := List.exists_cons_of_ne_nil h.data
  refine ⟨axis, rank, ?_⟩
  simp only [Rule.transpose, apply, exec_bind, exec_get, hpost, if_pos h.permutes, hinner,
    exec_checkedType h.type, exec_ask, herror]

theorem FindsPair.unique {inner' : NodeId} {τ' : TensorType} (h : FindsPair g pre post inner τ)
    (h' : FindsPair g pre post inner' τ') : inner = inner' ∧ τ = τ' :=
  ⟨Option.some.inj (h.arg.symm.trans h'.arg), Option.some.inj (h.type.symm.trans h'.type)⟩

/-- The orders of `post` and of its argument are composed, since neither has been absorbed in the
layouts of the other. -/
structure Composes (g : Graph) (pre post inner : NodeId) (τ : TensorType) : Prop
    extends FindsPair g pre post inner τ where
  merge? : merge? g post inner = .ok none

theorem readsBeyond_apply : ReadsBeyond (exec (Rule.transpose.apply pre post b) g).1 ↔
    ∃ inner τ, Composes g pre post inner τ ∧
      ReadsBeyond (composeOrders g post inner τ.rank) := by
  constructor
  · rintro ⟨axis, rank, h⟩
    refine apply_failsWith (P := fun err ↦ ReadsBeyond (Except.error err : Except _ Unit) → _)
      ?_ (fun inner τ hpair err herr hbeyond ↦ ?_) _ h ⟨axis, rank, rfl⟩
    · rintro e ⟨_, _, ⟨⟩⟩
    · obtain ⟨_, _, ⟨⟩⟩ := hbeyond
      obtain ⟨hmerge, hcompose⟩ := readsBeyond_fuse.1 ⟨_, _, herr⟩
      exact ⟨inner, τ, ⟨hpair, hmerge⟩, hcompose⟩
  · rintro ⟨inner, τ, hcomposes, hbeyond⟩
    exact hcomposes.readsBeyond_apply (readsBeyond_fuse.2 ⟨hcomposes.merge?, hbeyond⟩)

/-- The layouts into which a transpose is absorbed can be permuted. The inverse of an order is filled
at each position, and once only. -/
theorem absorbed_orders (hboth : ¬(g.IsCallTo outer Op.layoutTransform ∧
      g.IsCallTo inner Op.layoutTransform)) :
    (lengthChange? g outer = .ok (some (src, dst)) → g.axisOrder inner src.rank = .ok o →
      AxisOrder.scatter 0 o (List.replicate o.length 0) = some o.inverse ∧
        (∀ k < o.length, o.count k = 1) ∧ ∃ l, src.permute o.inverse = .ok l) ∧
    (lengthChange? g inner = .ok (some (src, dst)) → g.axisOrder outer dst.rank = .ok o →
      ∃ l, dst.permute o = .ok l) := by
  refine ⟨fun hchange ho ↦ ?_, fun hchange ho ↦ ?_⟩
  · obtain ⟨hcall, -⟩ := lengthChange?_eq_some hchange
    have hisOrder := Graph.isOrder_of_axisOrder (fun hinner ↦ hboth ⟨hcall, hinner⟩) ho
    refine ⟨AxisOrder.scatter_eq_inverse hisOrder, fun k hk ↦ ?_, _,
      Layout.permute_eq_ok (AxisOrder.isOrder_inverse hisOrder)⟩
    rw [hisOrder.length] at hk
    exact List.count_eq_one_of_mem hisOrder.nodup (hisOrder.mem hk)
  · obtain ⟨hcall, -⟩ := lengthChange?_eq_some hchange
    have hisOrder := Graph.isOrder_of_axisOrder (fun houter ↦ hboth ⟨houter, hcall⟩) ho
    exact ⟨_, Layout.permute_eq_ok hisOrder⟩

/-- The order of a transpose is the reversal or the permutation that its axes name. The order of a
layout transform has the letters of the destination, without repetitions, and may go beyond the
rank. So absorbing a transpose never fails to permute a layout, and composing two orders reads
beyond the end of a list if and only if the first, or else the second, goes beyond the rank. -/
theorem axisOrder_confines_reads (g : Graph) :
    (∀ call rank o, g.IsCallTo call Op.transpose → (g.axisOrder call rank = .ok o ↔
      (∀ axes, g.attr? call Key.axes = some (.ints axes) → axes = []) ∧
        o = AxisOrder.reversal rank ∨
      ∃ axes, g.attr? call Key.axes = some (.ints axes) ∧ axes ≠ [] ∧ Names rank axes o)) ∧
    (∀ call rank src dst o, g.IsCallTo call Op.layoutTransform → g.layouts call = .ok (src, dst) →
      g.axisOrder call rank = .ok o →
        o.length = rank ∧ o.Nodup ∧ (∀ k ∈ o, k < src.rank) ∧ Follows o src.axes dst.axes) ∧
    (∀ outer inner src dst o,
      ¬(g.IsCallTo outer Op.layoutTransform ∧ g.IsCallTo inner Op.layoutTransform) →
        (lengthChange? g outer = .ok (some (src, dst)) → g.axisOrder inner src.rank = .ok o →
          AxisOrder.scatter 0 o (List.replicate o.length 0) = some o.inverse ∧
            (∀ k < o.length, o.count k = 1) ∧ ∃ l, src.permute o.inverse = .ok l) ∧
        (lengthChange? g inner = .ok (some (src, dst)) → g.axisOrder outer dst.rank = .ok o →
          ∃ l, dst.permute o = .ok l)) ∧
    (∀ pre post b,
      (ReadsBeyond (exec (Rule.transpose.apply pre post b) g).1 →
        ∃ inner τ, Composes g pre post inner τ) ∧
      ∀ inner τ, Composes g pre post inner τ →
        (ReadsBeyond (exec (Rule.transpose.apply pre post b) g).1 ↔
          (∃ o, g.axisOrder inner τ.rank = .ok o ∧ Exceeds τ.rank o) ∨
            ∃ o, g.axisOrder inner τ.rank = .ok o ∧ (∀ k ∈ o, k < τ.rank) ∧
              ∃ o', g.axisOrder post τ.rank = .ok o' ∧ Exceeds τ.rank o')) ∧
    ∀ call rank o, g.axisOrder call rank = .ok o → Exceeds rank o →
      g.IsCallTo call Op.layoutTransform := by
  refine ⟨fun call rank o ↦ Graph.axisOrder_transpose_iff, ?_,
    fun outer inner src dst o ↦ absorbed_orders, fun pre post b ↦ ⟨?_, ?_⟩,
    fun call rank o ↦ Graph.isCallTo_of_exceeds⟩
  · intro call rank src dst o hcall hlayouts ho
    obtain ⟨hfollows, hnodup⟩ := Graph.axisOrder_layouts hcall hlayouts ho
    exact ⟨Graph.length_of_axisOrder ho, hnodup, fun k hk ↦ hfollows.lt hk, hfollows⟩
  · intro hbeyond
    obtain ⟨inner, τ, hcomposes, -⟩ := readsBeyond_apply.1 hbeyond
    exact ⟨inner, τ, hcomposes⟩
  · intro inner τ hcomposes
    rw [readsBeyond_apply, ← readsBeyond_composeOrders]
    constructor
    · rintro ⟨inner', τ', hcomposes', hbeyond⟩
      obtain ⟨rfl, rfl⟩ := hcomposes.unique hcomposes'.toFindsPair
      exact hbeyond
    · exact fun hbeyond ↦ ⟨inner, τ, hcomposes, hbeyond⟩

def transposedBlocks : Graph where
  nodes := #[.var "x" (blocked 2 32 1 1 4),
    .transpose 0 (some [1, 2, 0, 4, -2]) (blocked 32 1 2 4 1),
    .layoutTransform 1 "NCHW4c" "NC128c" (.ofStatic [32, 1, 128] ⟨.float, 32, 1⟩),
    .layoutTransform 1 "NCHW4c" "NCHW" (.ofStatic [32, 4, 2, 4] ⟨.float, 32, 1⟩)]

theorem axisOrder_confines_reads_transposedBlocks :
    let g := transposedBlocks
    let src : Layout := ⟨"NCHW4c", [batch, channels, height, width, block 4]⟩
    let dst : Layout := ⟨"NC128c", [batch, channels, block 128]⟩
    let order : AxisOrder := [1, 2, 0, 4, 3]
    g.axisOrder 1 5 = .ok order ∧
      AxisOrder.scatter 0 order (List.replicate 5 0) = some [2, 0, 1, 4, 3] ∧
      (∃ l, src.permute [2, 0, 1, 4, 3] = .ok l) ∧
      g.axisOrder 1 3 = .ok [1, 2, 0] ∧ g.axisOrder 2 3 = .ok [0, 1, 4] ∧
      Follows [0, 1, 4] src.axes dst.axes ∧ Exceeds 3 [0, 1, 4] ∧
      ReadsBeyond (exec (Rule.transpose.apply 2 2 {}) g).1 ∧
      g.IsCallTo 2 Op.layoutTransform := by
  intro g src dst order
  obtain ⟨htranspose, hlayouts, habsorb, happly, honly⟩ := axisOrder_confines_reads g
  have hnames : Names 5 [1, 2, 0, 4, -2] order :=
    .listed (by simp) (AxisOrder.isOrder_of_nodup (by decide) (by decide) rfl) (by decide)
  have horder : g.axisOrder 1 5 = .ok order :=
    (htranspose 1 5 order rfl).2 (.inr ⟨_, rfl, by simp, hnames⟩)
  have hchange : lengthChange? g 3 =
      .ok (some (src, ⟨"NCHW", [batch, channels, height, width]⟩)) := by decide +kernel
  obtain ⟨hscatter, -, hpermute⟩ := (habsorb 3 1 src _ order (by decide)).1 hchange horder
  have hinner : g.axisOrder 1 3 = .ok [1, 2, 0] := by decide +kernel
  have houter : g.axisOrder 2 3 = .ok [0, 1, 4] := by decide +kernel
  obtain ⟨-, -, -, hfollows⟩ := hlayouts 2 3 src dst [0, 1, 4] rfl (by decide +kernel) houter
  have hexceeds : Exceeds 3 [0, 1, 4] := ⟨4, by decide, by decide⟩
  have hcomposes : Composes g 2 2 1 (.ofStatic [32, 1, 128] ⟨.float, 32, 1⟩) :=
    ⟨⟨rfl, .inl rfl, by decide, rfl⟩, by decide +kernel⟩
  have hbeyond := ((happly 2 2 {}).2 1 _ hcomposes).2
    (.inr ⟨[1, 2, 0], hinner, by decide, [0, 1, 4], houter, hexceeds⟩)
  exact ⟨horder, hscatter, hpermute, hinner, houter, hfollows, hexceeds, hbeyond,
    honly 2 3 [0, 1, 4] houter hexceeds⟩

end Rule.Transpose

end TensorOpt
