import TensorOpt.Proofs.Rule.Preserves
import TensorOpt.Proofs.Tensor.Interpretation
import TensorOpt.Rule.Fill

namespace TensorOpt

variable {V : Type} [Inhabited V] {c : Catalog} {I : Interpretation V c} {g₀ g g' : Graph}
  {pre post e x fill : NodeId} {b : Bindings} {log : List (Label × NodeId)}

namespace Rule.Fill

def fillPart : Pattern :=
  .alt 18 [
    .alt 7 [.call 4 (.op 3 Op.full) [.const 2],
      .call 6 (.op 5 Op.fullLike) [.wildcard 1, .const 2]],
    .alt 12 [.call 9 (.op 8 Op.ones) [], .call 11 (.op 10 Op.onesLike) [.wildcard 1]],
    .alt 17 [.call 14 (.op 13 Op.zeros) [], .call 16 (.op 15 Op.zerosLike) [.wildcard 1]]]

def opPart : Pattern :=
  .attrs 20 (.wildcard 19) (.ofList [(Key.fusion, .int Fusion.broadcast.code)])

theorem pattern_eq : pattern = (.alt 23 [.call 21 opPart [fillPart, .wildcard 0],
    .call 22 opPart [.wildcard 0, fillPart]], ⟨0, 2, 7, 12, 17⟩) := rfl

inductive Found (g : Graph) (fill : NodeId) (b : Bindings) : Prop
  | operand {n : Node} {v : NodeId} (hn : g.node? fill = some n)
    (hv : n.fillOperand? n.args = some v) (hfull : b.all pattern.2.full = [fill])
    (hvalue : b.all pattern.2.value = [v])
  | ones {n : Node} (hn : g.node? fill = some n) (hw : n.fillWord? n.args = some 1)
    (hfull : b.all pattern.2.full = []) (hones : b.all pattern.2.ones = [fill])
  | zeros {n : Node} (hn : g.node? fill = some n) (hw : n.fillWord? n.args = some 0)
    (hfull : b.all pattern.2.full = []) (hones : b.all pattern.2.ones = [])
    (hzeros : b.all pattern.2.zeros = [fill])

theorem trace?_callTo {l l' : Label} {op : String} {params : List Pattern}
    (h : (Pattern.call l (.op l' op) params).trace? g e = some log) :
    ∃ args attrs type? log', g.node? e = some ⟨.call op args attrs, type?⟩ ∧
      args.length = params.length ∧ Pattern.traceEach? g params args = some log' ∧
        log' ++ [(l, e)] = log := by
  obtain ⟨op', args, attrs, type?, log', hn, hlength, hop, hargs, hlog⟩ :=
    Pattern.trace?_call_eq_some.1 h
  obtain rfl : op = op' := of_decide_eq_true hop
  exact ⟨args, attrs, type?, log', hn, hlength.symm, hargs, hlog⟩

theorem trace?_const {l : Label} (h : (Pattern.const l).trace? g e = some log) :
    log = [(l, e)] := by
  simp only [Pattern.trace?, Option.ite_none_right_eq_some, Option.some.injEq] at h
  exact h.2.symm

/-- A fill whose value is fixed: it has no argument, or one whose shape it takes. -/
theorem trace?_fixed {l l₁ l₂ l₃ l₄ : Label} {op opLike : String}
    (h : (Pattern.alt l [.call l₁ (.op l₂ op) [],
      .call l₃ (.op l₄ opLike) [.wildcard 1]]).trace? g fill = some log) :
    ∃ attrs type?, (g.node? fill = some ⟨.call op [] attrs, type?⟩ ∧
        log = [(l₁, fill), (l, fill)]) ∨
      ∃ d, g.node? fill = some ⟨.call opLike [d] attrs, type?⟩ ∧
        log = [(1, d), (l₃, fill), (l, fill)] := by
  obtain ⟨p, hp, _, hcall, rfl⟩ := Pattern.trace?_alt_eq_some h
  simp only [List.mem_cons, List.not_mem_nil, or_false] at hp
  rcases hp with rfl | rfl
  · obtain ⟨args, attrs, type?, _, hn, hlength, hargs, rfl⟩ := trace?_callTo hcall
    obtain rfl := List.length_eq_zero_iff.1 hlength
    cases hargs
    exact ⟨attrs, type?, .inl ⟨hn, rfl⟩⟩
  · obtain ⟨args, attrs, type?, _, hn, hlength, hargs, rfl⟩ := trace?_callTo hcall
    obtain ⟨d, rfl⟩ := List.length_eq_one_iff.1 hlength
    cases hargs
    exact ⟨attrs, type?, .inr ⟨d, hn, rfl⟩⟩

theorem trace?_fillPart (h : fillPart.trace? g fill = some log) :
    Bindings.all ⟨log⟩ pattern.2.other = [] ∧ Found g fill ⟨log⟩ := by
  obtain ⟨p, hp, _, hpart, rfl⟩ := Pattern.trace?_alt_eq_some h
  simp only [List.mem_cons, List.not_mem_nil, or_false] at hp
  rcases hp with rfl | rfl | rfl
  · obtain ⟨p, hp, _, hcall, rfl⟩ := Pattern.trace?_alt_eq_some hpart
    simp only [List.mem_cons, List.not_mem_nil, or_false] at hp
    rcases hp with rfl | rfl
    · obtain ⟨args, attrs, type?, _, hn, hlength, hargs, rfl⟩ := trace?_callTo hcall
      obtain ⟨v, rfl⟩ := List.length_eq_one_iff.1 hlength
      obtain ⟨_, _, hv, hnil, rfl⟩ := Pattern.traceEach?_cons_eq_some.1 hargs
      obtain rfl := trace?_const hv
      cases hnil
      exact ⟨rfl, .operand hn rfl rfl rfl⟩
    · obtain ⟨args, attrs, type?, _, hn, hlength, hargs, rfl⟩ := trace?_callTo hcall
      obtain ⟨d, v, rfl⟩ := List.length_eq_two.1 hlength
      obtain ⟨_, _, hd, hrest, rfl⟩ := Pattern.traceEach?_cons_eq_some.1 hargs
      obtain ⟨_, _, hv, hnil, rfl⟩ := Pattern.traceEach?_cons_eq_some.1 hrest
      cases hd
      obtain rfl := trace?_const hv
      cases hnil
      exact ⟨rfl, .operand hn rfl rfl rfl⟩
  · obtain ⟨attrs, type?, ⟨hn, rfl⟩ | ⟨d, hn, rfl⟩⟩ := trace?_fixed hpart
    · exact ⟨rfl, .ones hn rfl rfl rfl⟩
    · exact ⟨rfl, .ones hn rfl rfl rfl⟩
  · obtain ⟨attrs, type?, ⟨hn, rfl⟩ | ⟨d, hn, rfl⟩⟩ := trace?_fixed hpart
    · exact ⟨rfl, .zeros hn rfl rfl rfl rfl⟩
    · exact ⟨rfl, .zeros hn rfl rfl rfl rfl⟩

theorem fusion?_of_matchesOp {op : String} (h : opPart.matchesOp c op) :
    c.fusion? op = some .broadcast := by
  have hincluded : (Table.ofList [(Key.fusion, Attribute.int Fusion.broadcast.code)]).Included
      (c.attrs op) := of_decide_eq_true h
  have hget : (c.attrs op).get? Key.fusion = some (.int Fusion.broadcast.code) :=
    hincluded _ List.mem_cons_self
  rw [Catalog.fusion?, hget]
  rfl

theorem all_eq_nil {log : List (Label × NodeId)} {l : Label} (h : l ∉ log.map Prod.fst) :
    Bindings.all ⟨log⟩ l = [] := by
  refine List.filterMap_eq_nil_iff.2 fun q hq ↦ if_neg ?_
  rintro rfl
  exact h (List.mem_map_of_mem hq)

/-- What is recorded under other labels does not matter. -/
theorem Found.embed {before log after : List (Label × NodeId)} (h : Found g fill ⟨log⟩)
    (hlabels : ∀ l ∈ [pattern.2.full, pattern.2.value, pattern.2.ones, pattern.2.zeros],
      l ∉ before.map Prod.fst ∧ l ∉ after.map Prod.fst) :
    Found g fill ⟨before ++ log ++ after⟩ := by
  have hall {l : Label}
      (hl : l ∈ [pattern.2.full, pattern.2.value, pattern.2.ones, pattern.2.zeros]) :
      Bindings.all ⟨before ++ log ++ after⟩ l = Bindings.all ⟨log⟩ l := by
    obtain ⟨hbefore, hafter⟩ := hlabels l hl
    rw [Bindings.all_append, Bindings.all_append, all_eq_nil hbefore, all_eq_nil hafter,
      List.nil_append, List.append_nil]
  have hfull := hall (l := pattern.2.full) (by simp)
  have hvalue := hall (l := pattern.2.value) (by simp)
  have hones := hall (l := pattern.2.ones) (by simp)
  have hzeros := hall (l := pattern.2.zeros) (by simp)
  cases h with
  | operand hn hv h₁ h₂ => exact .operand hn hv (hfull.trans h₁) (hvalue.trans h₂)
  | ones hn hw h₁ h₂ => exact .ones hn hw (hfull.trans h₁) (hones.trans h₂)
  | zeros hn hw h₁ h₂ h₃ =>
    exact .zeros hn hw (hfull.trans h₁) (hones.trans h₂) (hzeros.trans h₃)

/-- What the pattern matches: a broadcasting operator on a fill and another operand. -/
theorem match?_pattern (h : pattern.1.match? g e = some b) :
    ∃ op attrs type? fill x, g.catalog.fusion? op = some .broadcast ∧
      (g.node? e = some ⟨.call op [fill, x] attrs, type?⟩ ∨
        g.node? e = some ⟨.call op [x, fill] attrs, type?⟩) ∧
      b.all pattern.2.other = [x] ∧ Found g fill b := by
  have htrace := Pattern.trace?_of_match? h
  rw [pattern_eq] at htrace
  obtain ⟨p, hp, _, hcall, hb⟩ := Pattern.trace?_alt_eq_some htrace
  simp only [List.mem_cons, List.not_mem_nil, or_false] at hp
  rcases hp with rfl | rfl
  · obtain ⟨op, args, attrs, type?, _, hn, hlength, hop, hargs, rfl⟩ :=
      Pattern.trace?_call_eq_some.1 hcall
    obtain ⟨fill, x, rfl⟩ := List.length_eq_two.1 hlength.symm
    obtain ⟨log, _, hfill, hx, rfl⟩ := Pattern.traceEach?_cons_eq_some.1 hargs
    cases hx
    obtain ⟨hother, hfound⟩ := trace?_fillPart hfill
    obtain rfl : b = ⟨[] ++ log ++ [(0, x), (21, e), (23, e)]⟩ :=
      congrArg Bindings.mk (by simp [← hb])
    refine ⟨op, attrs, type?, fill, x, fusion?_of_matchesOp hop, .inl hn, ?_, ?_⟩
    · rw [Bindings.all_append, Bindings.all_append, hother]
      rfl
    · exact hfound.embed (by simp [pattern_eq])
  · obtain ⟨op, args, attrs, type?, _, hn, hlength, hop, hargs, rfl⟩ :=
      Pattern.trace?_call_eq_some.1 hcall
    obtain ⟨x, fill, rfl⟩ := List.length_eq_two.1 hlength.symm
    obtain ⟨_, _, hx, hrest, rfl⟩ := Pattern.traceEach?_cons_eq_some.1 hargs
    obtain ⟨log, _, hfill, hnil, rfl⟩ := Pattern.traceEach?_cons_eq_some.1 hrest
    cases hx
    cases hnil
    obtain ⟨hother, hfound⟩ := trace?_fillPart hfill
    obtain rfl : b = ⟨[(0, x)] ++ log ++ [(22, e), (23, e)]⟩ :=
      congrArg Bindings.mk (by simp [← hb])
    refine ⟨op, attrs, type?, fill, x, fusion?_of_matchesOp hop, .inr hn, ?_, ?_⟩
    · rw [Bindings.all_append, Bindings.all_append, hother]
      rfl
    · exact hfound.embed (by simp [pattern_eq])

variable {dtype : DType} {v : NodeId} {o : Option NodeId}

theorem contains_eq {l : Label} : b.contains l = true ↔ b.all l ≠ [] := by
  simp [Bindings.contains]

theorem exec_value?_operand (hfull : b.all pattern.2.full = [fill])
    (hvalue : b.all pattern.2.value = [v])
    (h : exec (value? b dtype) g = (.ok o, g')) : o = some v ∧ g' = g ∧ g.isScalarConst v := by
  have hcontains : b.contains pattern.2.full := contains_eq.2 (by simp [hfull])
  have hfirst : b.first? pattern.2.value = some v := by rw [Bindings.first?, hvalue]; rfl
  simp only [value?, if_pos hcontains, hfirst, exec_bind_ok, exec_get] at h
  obtain ⟨_, _, hget, h⟩ := h
  cases hget
  split at h
  next hscalar =>
    cases h
    exact ⟨rfl, rfl, hscalar⟩
  next => cases h

theorem exec_value?_word {w : Word} (hfull : b.all pattern.2.full = [])
    (hw : b.all pattern.2.ones = [fill] ∧ w = 1 ∨
      b.all pattern.2.ones = [] ∧ b.all pattern.2.zeros = [fill] ∧ w = 0)
    (h : exec (value? b dtype) g = (.ok o, g')) :
    o = some g.size ∧ g' = g.push (.const (.ofWord dtype w)) := by
  have hcontains : ¬ b.contains pattern.2.full := by simp [contains_eq, hfull]
  rcases hw with ⟨hones, rfl⟩ | ⟨hones, hzeros, rfl⟩
  · have hcontains' : b.contains pattern.2.ones := contains_eq.2 (by simp [hones])
    simp only [value?, if_neg hcontains, if_pos hcontains', exec_bind_ok, exec_push] at h
    obtain ⟨_, _, hpush, h⟩ := h
    cases hpush
    cases h
    exact ⟨rfl, rfl⟩
  · have hones' : ¬ b.contains pattern.2.ones := by simp [contains_eq, hones]
    have hzeros' : b.contains pattern.2.zeros := contains_eq.2 (by simp [hzeros])
    simp only [value?, if_neg hcontains, if_neg hones', if_pos hzeros', exec_bind_ok,
      exec_push] at h
    obtain ⟨_, _, hpush, h⟩ := h
    cases hpush
    cases h
    exact ⟨rfl, rfl⟩

/-- The value is what the fill was given, or a number that has been made for it. -/
theorem value?_cases {f : NodeId → NodeId} (hfound : Found g fill b)
    (h : exec (value? (b.map f) dtype) g = (.ok o, g')) : ∃ n, g.node? fill = some n ∧
      ((∃ v, n.fillOperand? n.args = some v ∧ o = some (f v) ∧ g' = g ∧ g.isScalarConst (f v)) ∨
        ∃ w, n.fillWord? n.args = some w ∧ o = some g.size ∧
          g' = g.push (.const (.ofWord dtype w))) := by
  have hall {l : Label} {es : List NodeId} (hes : b.all l = es) : (b.map f).all l = es.map f := by
    rw [Bindings.all_map, hes]
  cases hfound with
  | operand hn hv hfull hvalue =>
    exact ⟨_, hn, .inl ⟨_, hv, exec_value?_operand (hall hfull) (hall hvalue) h⟩⟩
  | ones hn hw hfull hones =>
    exact ⟨_, hn, .inr ⟨1, hw, exec_value?_word (hall hfull) (.inl ⟨hall hones, rfl⟩) h⟩⟩
  | zeros hn hw hfull hones hzeros =>
    exact ⟨_, hn, .inr ⟨0, hw,
      exec_value?_word (hall hfull) (.inr ⟨hall hones, hall hzeros, rfl⟩) h⟩⟩

theorem hasArg_of_fillOperand? {n : Node} (hn : g.node? fill = some n)
    (hv : n.fillOperand? n.args = some v) : g.HasArg fill v := by
  obtain ⟨_, -, hmem⟩ := Node.fillOperand?_forall₂ (R := fun a _ ↦ a ∈ n.args)
    (List.forall₂_same.2 fun _ ha ↦ ha) hv
  exact (Graph.hasArg_iff hn).2 hmem

theorem exec_apply {op : String} {lhs rhs : NodeId} {attrs : Attrs} {type? : Option TensorType}
    {τ : TensorType} (hx : b.first? pattern.2.other = some x)
    (hn : g.node? pre = some ⟨.call op [lhs, rhs] attrs, type?⟩) (htype : g.type? pre = some τ)
    (h : exec (Rule.fill.apply pre post b) g = (.ok e, g')) :
    e = post ∧ g' = g ∨ g.type? (if (g.args post)[1]? = some x then rhs else lhs) = some τ ∧
      ∃ o g₁, exec (value? b τ.dtype) g = (.ok o, g₁) ∧ ∀ v, o = some v → e = g₁.size ∧
        let args := if (g.args post)[1]? = some x then [v, x] else [x, v]
        g' = g₁.push ⟨.call op args attrs, some τ⟩ := by
  simp only [Rule.fill, apply, hx, exec_bind_ok, exec_get] at h
  obtain ⟨τ', g₁, hchecked, _, _, hget, h⟩ := h
  obtain ⟨htype', rfl⟩ := exec_of_checkedType hchecked
  obtain rfl : τ = τ' := Option.some.inj (htype.symm.trans htype')
  cases hget
  simp only [hn, exec_bind_ok] at h
  obtain ⟨τ', g₁, hchecked', h⟩ := h
  obtain ⟨hother, rfl⟩ := exec_of_checkedType hchecked'
  split at h
  next =>
    cases h
    exact .inl ⟨rfl, rfl⟩
  next hτ =>
    obtain rfl : τ' = τ := Decidable.not_not.1 hτ
    simp only [exec_bind_ok] at h
    obtain ⟨o, g₁, hvalue, h⟩ := h
    refine .inr ⟨hother, o, g₁, hvalue, ?_⟩
    rintro v rfl
    cases h
    exact ⟨rfl, rfl⟩

end Rule.Fill

namespace Interpretation

variable {n : Node} {ms : List (TensorType × Tensor V)} {φ σ σ' υ τ : TensorType}
  {y s w t : Tensor V}

/-- `y`, of type `φ`, repeats the scalar `s`, of type `υ`. -/
structure Repeats (I : Interpretation V c) (φ : TensorType) (y : Tensor V) (υ : TensorType)
    (s : Tensor V) : Prop where
  shape : υ.shape = []
  dtype : υ.dtype = φ.dtype
  eq : y = .constant φ.dtype (φ.extents I.extent) (s.get [])

theorem repeats_operand (h : I.typed n ms = some (φ, y)) (hv : n.fillOperand? ms = some (υ, s))
    (hs : s.HasType I.extent υ) (hshape : υ.shape = []) : I.Repeats φ y υ s := by
  obtain ⟨hconsistent, rfl⟩ := typed_eq_some.1 h
  have htype : n.fillOperand? (ms.map Prod.fst) = some υ := by rw [Node.fillOperand?_map, hv]; rfl
  have htensor : n.fillOperand? (ms.map Prod.snd) = some s := by rw [Node.fillOperand?_map, hv]; rfl
  have hdtype := hconsistent.fill htype hshape
  refine ⟨hshape, hdtype, I.fillOperand htensor hconsistent.type? ?_ (hs.1.trans hdtype)⟩
  rw [hs.2, TensorType.extents, hshape, List.map_nil]

theorem typed_const (l : Literal) :
    I.typed (.const l) [] = some (l.type, I.denote (.const l) []) := by
  refine typed_eq_some.2 ⟨⟨rfl, ?_, ?_, ?_, ?_, ?_, ?_⟩, rfl⟩
  · rintro _ ⟨⟩
    rfl
  all_goals simp [Node.Reshapes, Node.Permutes, Node.Broadcasts, Node.fillOperand?, Node.callee?,
    Node.const]

theorem repeats_word {word : Word} (h : I.typed n ms = some (φ, y))
    (hw : n.fillWord? ms = some word) :
    I.Repeats φ y (Literal.ofWord φ.dtype word).type
      (I.denote (.const (.ofWord φ.dtype word)) []) := by
  obtain ⟨hconsistent, rfl⟩ := typed_eq_some.1 h
  have hw' : n.fillWord? (ms.map Prod.snd) = some word := by
    rw [← hw]
    exact Node.fillWord?_forall₂ (R := fun m t ↦ m.2 = t)
      (List.forall₂_map_right_iff.2 (List.forall₂_same.2 fun _ _ ↦ rfl)) n
  exact ⟨rfl, rfl, I.fillWord hw' hconsistent.type?⟩

theorem consistent_operands (h : n.Consistent I.extent c τ [φ, υ]) (hdtype : σ.dtype = σ'.dtype)
    (hbroadcast : Extents.broadcast? (σ.extents I.extent) (σ'.extents I.extent) =
      some (τ.extents I.extent)) (hfill : σ'.dtype = τ.dtype) :
    n.Consistent I.extent c τ [σ, σ'] where
  type? := h.type?
  literal := h.literal
  reshape _ := nofun
  permute hp := by
    obtain ⟨_, _, hargs, _⟩ := h.permute hp
    cases hargs
  layouts := h.layouts
  fill hv _ := by
    obtain ⟨-, ⟨⟩⟩ := Option.ite_none_right_eq_some.1 hv
    exact hfill
  broadcast _ := by
    rintro _ _ ⟨⟩
    exact ⟨hdtype, hbroadcast⟩

theorem typed_broadcast (hn : n.Broadcasts c) (hy : y.HasType I.extent φ)
    (hw : w.HasType I.extent σ) : I.typed n [(φ, y), (σ, w)] = some (τ, t) ↔
      n.Consistent I.extent c τ [φ, σ] ∧
        Tensor.combine (I.pointwise n φ.dtype) τ.dtype (τ.extents I.extent) y w = t := by
  refine typed_eq_some.trans (and_congr_right fun hconsistent ↦ ?_)
  obtain ⟨hdtype, hbroadcast⟩ := hconsistent.broadcast hn rfl
  have hdenote := I.broadcast hn hconsistent.type? (hy.1.trans (hdtype.trans hw.1.symm))
    (by rwa [hy.2, hw.2])
  rw [hy.1] at hdenote
  exact iff_of_eq (congrArg (· = t) hdenote)

theorem Repeats.hasType (h : I.Repeats φ y υ s) : y.HasType I.extent φ := by
  rw [h.eq]
  exact ⟨rfl, rfl⟩

theorem Repeats.extents (h : I.Repeats φ y υ s) : υ.extents I.extent = [] := by
  rw [TensorType.extents, h.shape, List.map_nil]

theorem Repeats.get_align {i : Position} (h : I.Repeats φ y υ s) (hs : s.HasType I.extent υ)
    {r u : Extents} (hbroadcast : Extents.broadcast? (φ.extents I.extent) r = some u)
    (hi : InBounds i u) :
    y.get (Extents.align y.shape i) = s.get (Extents.align s.shape i) := by
  rw [h.eq]
  exact Tensor.get_constant_align hbroadcast hi (hs.2.trans h.extents) rfl

theorem typed_scalar_left (hn : n.Broadcasts c) (hy : I.Repeats φ y υ s)
    (hs : s.HasType I.extent υ) (hw : w.HasType I.extent τ)
    (h : I.typed n [(φ, y), (τ, w)] = some (τ, t)) : I.typed n [(υ, s), (τ, w)] = some (τ, t) := by
  obtain ⟨hconsistent, rfl⟩ := (typed_broadcast hn hy.hasType hw).1 h
  obtain ⟨hdtype, hbroadcast⟩ := hconsistent.broadcast hn rfl
  refine (typed_broadcast hn hs hw).2 ⟨?_, ?_⟩
  · refine consistent_operands hconsistent (hy.dtype.trans hdtype) ?_ rfl
    rw [hy.extents, Extents.broadcast?_nil]
  · rw [hy.dtype]
    refine Tensor.ofFn_congr fun i hi ↦ ?_
    rw [hy.get_align hs hbroadcast hi]

theorem typed_scalar_right (hn : n.Broadcasts c) (hy : I.Repeats φ y υ s)
    (hs : s.HasType I.extent υ) (hw : w.HasType I.extent τ)
    (h : I.typed n [(τ, w), (φ, y)] = some (τ, t)) : I.typed n [(τ, w), (υ, s)] = some (τ, t) := by
  obtain ⟨hconsistent, rfl⟩ := (typed_broadcast hn hw hy.hasType).1 h
  obtain ⟨hdtype, hbroadcast⟩ := hconsistent.broadcast hn rfl
  rw [Extents.broadcast?_comm] at hbroadcast
  have hdtype' : υ.dtype = τ.dtype := hy.dtype.trans hdtype.symm
  refine (typed_broadcast hn hw hs).2 ⟨?_, ?_⟩
  · refine consistent_operands hconsistent hdtype'.symm ?_ hdtype'
    rw [hy.extents, Extents.broadcast?_comm, Extents.broadcast?_nil]
  · refine Tensor.ofFn_congr fun i hi ↦ ?_
    rw [hy.get_align hs hbroadcast hi]

end Interpretation

theorem Interpretation.shape_of_isScalarConst {v : NodeId} {υ : TensorType} {s : Tensor V}
    (hv : Means I.typed g v (υ, s)) (hscalar : g.isScalarConst v) : υ.shape = [] := by
  obtain ⟨⟨kind, type?⟩, ms, hn, -, hm⟩ := means_iff.1 hv
  rw [Graph.isScalarConst, Graph.literal?, hn] at hscalar
  cases kind with
  | const l =>
    obtain ⟨hconsistent, -⟩ := Interpretation.typed_eq_some.1 hm
    have hshape : l.shape = [] := List.isEmpty_iff.1 hscalar
    rw [hconsistent.literal rfl, Literal.type, TensorType.ofStatic, hshape, List.map_nil]
  | _ => cases hscalar

theorem Graph.reaches_args {a : NodeId} {n : Node} (hn : g.node? e = some n) (ha : a ∈ n.args) :
    g.Reaches e a :=
  .single ((Graph.hasArg_iff hn).2 ha)

namespace Rule.Fill

variable {φ : TensorType} {y : Tensor V} {f : NodeId → NodeId} {o : Option NodeId} {n : Node}

theorem means_ofWord {w : Word} (hn : g.node? fill = some n) (hw : n.fillWord? n.args = some w)
    (hfill : Means I.typed g fill (φ, y)) : ∃ υ s,
      Means I.typed (g.push (.const (.ofWord φ.dtype w))) g.size (υ, s) ∧ I.Repeats φ y υ s := by
  obtain ⟨ms, hargs, hm⟩ := (means_of_node? hn).1 hfill
  have hw' : n.head.fillWord? ms = some w := by
    rw [Node.fillWord?_head, Node.fillWord?_forall₂ hargs, hw]
  refine ⟨_, _, ?_, Interpretation.repeats_word hm hw'⟩
  exact .push .nil (Interpretation.typed_const _)

/-- The value is a scalar that the fill repeats. -/
theorem value?_means (hfound : Found g fill b) (hfill : Means I.typed g fill (φ, y))
    (hreach : g.Reaches pre fill) (hf : Replaces I.typed g pre post f)
    (h : exec (value? (b.map f) φ.dtype) g = (.ok o, g')) :
    ∃ v υ s, o = some v ∧ g.Grows g' ∧ Means I.typed g' v (υ, s) ∧ I.Repeats φ y υ s := by
  obtain ⟨n, hn, ⟨v, hv, rfl, rfl, hscalar⟩ | ⟨w, hw, rfl, rfl⟩⟩ := value?_cases hfound h
  · obtain ⟨ms, hargs, hm⟩ := (means_of_node? hn).1 hfill
    obtain ⟨⟨υ, s⟩, hs, hmeans⟩ := Node.fillOperand?_forall₂ hargs hv
    have hmeans' := hf.means (hreach.tail (hasArg_of_fillOperand? hn hv)) hmeans
    refine ⟨f v, υ, s, rfl, .refl _, hmeans', ?_⟩
    have hshape := Interpretation.shape_of_isScalarConst hmeans' hscalar
    exact Interpretation.repeats_operand hm ((Node.fillOperand?_head n ms).trans hs)
      (Interpretation.type?_of_means hmeans).2 hshape
  · obtain ⟨υ, s, hmeans, hrepeats⟩ := means_ofWord hn hw hfill
    exact ⟨g.size, υ, s, rfl, .push _ _, hmeans, hrepeats⟩

section Apply

variable {g₁ : Graph} {op : String} {attrs : Attrs} {v : NodeId} {υ τ : TensorType}
  {s w t : Tensor V}

theorem first?_map (hother : b.all pattern.2.other = [x]) :
    (b.map f).first? pattern.2.other = some (f x) := by
  rw [Bindings.first?, Bindings.all_map, hother]
  rfl

theorem apply_means_left (hop : Node.Broadcasts c ⟨.call op [] attrs, some τ⟩)
    (hn : g.node? pre = some ⟨.call op [fill, x] attrs, some τ⟩)
    (hother : b.all pattern.2.other = [x]) (hfound : Found g fill b)
    (hpre : Means I.typed g pre (τ, t)) (hf : Replaces I.typed g pre post f)
    (h : exec (Rule.fill.apply pre post (b.map f)) g = (.ok e, g')) :
    g.Grows g' ∧ Means I.typed g' e (τ, t) := by
  rcases exec_apply (first?_map hother) hn (Graph.type?_of_node? hn) h with
    ⟨rfl, rfl⟩ | ⟨hσ, o, g₁, hvalue, hpush⟩
  · exact ⟨.refl _, hf.means_post hpre⟩
  obtain ⟨⟨φ, y⟩, ⟨σ, w⟩, hfill, hx, hm⟩ := (means_binary hn).1 hpre
  obtain ⟨hdtype, -⟩ := (Interpretation.typed_eq_some.1 hm).1.broadcast hop rfl
  have hargs : (g.args post)[1]? = some (f x) := by
    rw [Graph.args_of_node? (hf.node? hn)]
    rfl
  rw [if_pos hargs] at hσ
  obtain rfl : σ = τ := Option.some.inj ((Interpretation.type?_of_means hx).1.symm.trans hσ)
  rw [← hdtype] at hvalue
  obtain ⟨v, υ, s, rfl, hgrows, hv, hrepeats⟩ :=
    value?_means hfound hfill (Graph.reaches_args hn List.mem_cons_self) hf hvalue
  obtain ⟨rfl, rfl⟩ := hpush v rfl
  rw [if_pos hargs]
  have hreach : g.Reaches pre x := Graph.reaches_args hn (List.mem_of_getElem? (i := 1) rfl)
  have hx' := hf.means hreach hx
  refine ⟨hgrows.trans (.push _ _), .push (.cons hv (.cons (hx'.grow hgrows) .nil)) ?_⟩
  exact Interpretation.typed_scalar_left hop hrepeats (Interpretation.type?_of_means hv).2
    (Interpretation.type?_of_means hx').2 hm

theorem apply_means_right (hop : Node.Broadcasts c ⟨.call op [] attrs, some τ⟩)
    (hn : g.node? pre = some ⟨.call op [x, fill] attrs, some τ⟩)
    (hother : b.all pattern.2.other = [x]) (hfound : Found g fill b)
    (hpre : Means I.typed g pre (τ, t)) (hf : Replaces I.typed g pre post f)
    (h : exec (Rule.fill.apply pre post (b.map f)) g = (.ok e, g')) :
    g.Grows g' ∧ Means I.typed g' e (τ, t) := by
  rcases exec_apply (first?_map hother) hn (Graph.type?_of_node? hn) h with
    ⟨rfl, rfl⟩ | ⟨hσ, o, g₁, hvalue, hpush⟩
  · exact ⟨.refl _, hf.means_post hpre⟩
  obtain ⟨⟨σ, w⟩, ⟨φ, y⟩, hx, hfill, hm⟩ := (means_binary hn).1 hpre
  obtain ⟨hdtype, -⟩ := (Interpretation.typed_eq_some.1 hm).1.broadcast hop rfl
  have hargs : (g.args post)[1]? = some (f fill) := by
    rw [Graph.args_of_node? (hf.node? hn)]
    rfl
  have hreach : g.Reaches pre fill := Graph.reaches_args hn (List.mem_of_getElem? (i := 1) rfl)
  have hx' := hf.means (Graph.reaches_args hn List.mem_cons_self) hx
  have hfill' := hf.means hreach hfill
  simp only [hargs, Option.some.injEq] at hσ hpush
  by_cases halias : f fill = f x
  · -- both operands have become the same node, and the fill is taken to be the left one
    simp only [if_pos halias] at hσ hpush
    obtain ⟨rfl, rfl⟩ := Prod.mk.inj (hx'.unique (halias ▸ hfill'))
    obtain rfl : σ = τ := Option.some.inj ((Interpretation.type?_of_means hfill).1.symm.trans hσ)
    obtain ⟨v, υ, s, rfl, hgrows, hv, hrepeats⟩ := value?_means hfound hfill hreach hf hvalue
    obtain ⟨rfl, rfl⟩ := hpush v rfl
    refine ⟨hgrows.trans (.push _ _), .push (.cons hv (.cons (hx'.grow hgrows) .nil)) ?_⟩
    exact Interpretation.typed_scalar_left hop hrepeats (Interpretation.type?_of_means hv).2
      (Interpretation.type?_of_means hx').2 hm
  · simp only [if_neg halias] at hσ hpush
    obtain rfl : σ = τ := Option.some.inj ((Interpretation.type?_of_means hx).1.symm.trans hσ)
    rw [hdtype] at hvalue
    obtain ⟨v, υ, s, rfl, hgrows, hv, hrepeats⟩ := value?_means hfound hfill hreach hf hvalue
    obtain ⟨rfl, rfl⟩ := hpush v rfl
    refine ⟨hgrows.trans (.push _ _), .push (.cons (hx'.grow hgrows) (.cons hv .nil)) ?_⟩
    exact Interpretation.typed_scalar_right hop hrepeats (Interpretation.type?_of_means hv).2
      (Interpretation.type?_of_means hx').2 hm

end Apply

end Rule.Fill

theorem preserves_fill (hc : g₀.catalog = c) : Rule.fill.Preserves I.typed g₀ := by
  intro g g' pre post e ⟨τ, t⟩ b f hg hmatch hpre hf hexec
  obtain ⟨op, attrs, type?, fill, x, hfusion, hn, hother, hfound⟩ := Rule.Fill.match?_pattern hmatch
  rw [hg.catalog, hc] at hfusion
  have hop : Node.Broadcasts c ⟨.call op [] attrs, some τ⟩ := ⟨op, rfl, hfusion⟩
  have htype := (Interpretation.type?_of_means hpre).1
  rcases hn with hn | hn
  · obtain rfl : type? = some τ := (Graph.type?_of_node? hn).symm.trans htype
    exact Rule.Fill.apply_means_left hop hn hother hfound hpre hf hexec
  · obtain rfl : type? = some τ := (Graph.type?_of_node? hn).symm.trans htype
    exact Rule.Fill.apply_means_right hop hn hother hfound hpre hf hexec

end TensorOpt
