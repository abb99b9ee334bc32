import TensorOpt.Proofs.Rule.Fill

namespace TensorOpt

variable {g g' h : Graph} {pre post e v x fill l r : NodeId} {b : Bindings} {f : NodeId → NodeId}
  {o : Option NodeId} {op : String} {attrs : Attrs} {τ : TensorType} {δ dtype : DType} {n : Node}

namespace Graph

def dtype? (g : Graph) (e : NodeId) : Option DType := (g.type? e).map TensorType.dtype

def fillValue? (g : Graph) (e : NodeId) : Option NodeId :=
  (g.node? e).bind fun n ↦ n.fillOperand? n.args

theorem dtype?_of_node? (hn : g.node? e = some n) : g.dtype? e = n.type?.map TensorType.dtype := by
  rw [dtype?, type?_of_node? hn]

theorem fillValue?_of_node? (hn : g.node? e = some n) :
    g.fillValue? e = n.fillOperand? n.args := by
  rw [fillValue?, hn, Option.bind_some]

theorem Grows.dtype?_of_node? (hgh : g.Grows h) (hn : g.node? e = some n) :
    h.dtype? e = g.dtype? e := by
  rw [Graph.dtype?_of_node? hn, Graph.dtype?_of_node? (hgh.node? hn)]

theorem Grows.dtype? (hgh : g.Grows h) (he : g.dtype? e = some δ) : h.dtype? e = some δ := by
  obtain ⟨τ, htype, rfl⟩ := Option.map_eq_some_iff.1 he
  obtain ⟨n, hn, -⟩ := Option.bind_eq_some_iff.1 htype
  rw [hgh.dtype?_of_node? hn, he]

theorem node?_of_isScalarConst (he : g.isScalarConst e) : ∃ n, g.node? e = some n := by
  cases hn : g.node? e with
  | none => simp [isScalarConst, literal?, hn] at he
  | some n => exact ⟨n, rfl⟩

end Graph

namespace Rule.Fill

/-- The value of a fill has the element type that is asked for, unless the fill was given it. -/
theorem value?_dtype (hfound : Found g fill b)
    (hvalue : exec (value? (b.map f) dtype) g = (.ok o, h)) :
    ∃ v, o = some v ∧ g.Grows h ∧ ∃ m, h.node? v = some m ∧
      (h.dtype? v = some dtype ↔
        ∀ c, g.fillValue? fill = some c → g.dtype? (f c) = some dtype) := by
  obtain ⟨n, hn, ⟨v, hv, rfl, rfl, hscalar⟩ | ⟨w, hw, rfl, rfl⟩⟩ := value?_cases hfound hvalue
  · obtain ⟨m, hm⟩ := Graph.node?_of_isScalarConst hscalar
    refine ⟨f v, rfl, .refl _, m, hm, ?_⟩
    rw [Graph.fillValue?_of_node? hn, hv]
    simp
  · have hmade := Graph.node?_push_size g (.const (.ofWord dtype w))
    refine ⟨g.size, rfl, .push _ _, _, hmade, ?_⟩
    rw [Graph.fillValue?_of_node? hn, Node.fillOperand?_of_fillWord? hw]
    exact iff_of_true (Graph.dtype?_of_node? hmade) nofun

/-- What stands in the place of an operator on a fill, if it is not what stood there before. -/
theorem exec_apply_of_ne (hn : g.node? pre = some ⟨.call op [l, r] attrs, some τ⟩)
    (hother : b.all pattern.2.other = [x]) (hfound : Found g fill b)
    (hexec : exec (Rule.fill.apply pre post (b.map f)) g = (.ok e, g')) (hne : e ≠ post) :
    ∃ v args, (args = [v, f x] ∨ args = [f x, v]) ∧
      g'.node? e = some ⟨.call op args attrs, some τ⟩ ∧ g.Grows g' ∧
      (g'.dtype? v = some τ.dtype ↔
        ∀ c, g.fillValue? fill = some c → g.dtype? (f c) = some τ.dtype) := by
  rcases exec_apply (first?_map hother) hn (Graph.type?_of_node? hn) hexec with
    ⟨he, -⟩ | ⟨-, o, h, hvalue, hpush⟩
  · exact absurd he hne
  obtain ⟨v, rfl, hgrows, m, hm, hdtype⟩ := value?_dtype hfound hvalue
  obtain ⟨rfl, rfl⟩ := hpush v rfl
  refine ⟨v, _, ?_, Graph.node?_push_size _ _, hgrows.trans (.push _ _), ?_⟩
  · by_cases hleft : (g.args post)[1]? = some (f x)
    · exact .inl (if_pos hleft)
    · exact .inr (if_neg hleft)
  · rw [(Graph.Grows.push h _).dtype?_of_node? hm, hdtype]

/-- Where both operands have the element type of the result, they have it also after the fill has
been replaced by its value, if and only if the constant has it that the fill was given. A fill that
was given none needs nothing. -/
theorem absorption_keeps_dtypes_iff (hmatch : Rule.fill.pattern.match? g pre = some b)
    (hn : g.node? pre = some ⟨.call op [l, r] attrs, some τ⟩) (hl : g.dtype? l = some τ.dtype)
    (hr : g.dtype? r = some τ.dtype)
    (hexec : exec (Rule.fill.apply pre post (b.map f)) g = (.ok e, g')) (hne : e ≠ post) :
    ∃ fill other value args, (fill = l ∧ other = r ∨ fill = r ∧ other = l) ∧
      (args = [value, f other] ∨ args = [f other, value]) ∧
      g'.node? e = some ⟨.call op args attrs, some τ⟩ ∧
      (g.dtype? (f other) = g.dtype? other → ((∀ a ∈ args, g'.dtype? a = some τ.dtype) ↔
        ∀ c, g.fillValue? fill = some c → g.dtype? (f c) = some τ.dtype)) := by
  obtain ⟨op', attrs', type?, fill, x, -, hpre, hother, hfound⟩ := match?_pattern hmatch
  have hsides : fill = l ∧ x = r ∨ fill = r ∧ x = l := by
    rw [hn] at hpre
    rcases hpre with hpre | hpre
    · cases hpre
      exact .inl ⟨rfl, rfl⟩
    · cases hpre
      exact .inr ⟨rfl, rfl⟩
  have hx : g.dtype? x = some τ.dtype := by
    rcases hsides with ⟨-, rfl⟩ | ⟨-, rfl⟩
    · exact hr
    · exact hl
  obtain ⟨v, args, hargs, hnode, hgrows, hdtype⟩ := exec_apply_of_ne hn hother hfound hexec hne
  refine ⟨fill, x, v, args, hsides, hargs, hnode, fun hkept ↦ ?_⟩
  have hfx : g'.dtype? (f x) = some τ.dtype := hgrows.dtype? (hkept.trans hx)
  rw [← hdtype]
  rcases hargs with rfl | rfl
  · simp [hfx]
  · simp [hfx]

section Added

def float32 : DType := ⟨.float, 32, 1⟩

def added (dtype : DType) : Graph where
  nodes := #[.var "x" (.ofStatic [2] float32), .const (.ofWord dtype 3), .full 1 [2] float32,
    .binary Op.add 2 0 (.ofStatic [2] float32)]

def addedBindings : Bindings := ⟨[(2, 1), (4, 2), (7, 2), (18, 2), (0, 0), (21, 3), (23, 3)]⟩

def addedAbsorbed (dtype : DType) : Graph :=
  (added dtype).push (.binary Op.add 1 0 (.ofStatic [2] float32))

theorem absorption_keeps_dtypes_iff_added :
    Rule.fill.pattern.match? (added float32) 3 = some addedBindings ∧
      exec (Rule.fill.apply 3 3 (addedBindings.map id)) (added float32) =
        (.ok 4, addedAbsorbed float32) ∧
      ∃ args, (addedAbsorbed float32).node? 4 =
          some ⟨.call Op.add args .empty, some (.ofStatic [2] float32)⟩ ∧
        ∀ a ∈ args, (addedAbsorbed float32).dtype? a = some float32 := by
  have hmatch : Rule.fill.pattern.match? (added float32) 3 = some addedBindings := by decide +kernel
  have hexec : exec (Rule.fill.apply 3 3 (addedBindings.map id)) (added float32) =
      (.ok 4, addedAbsorbed float32) := rfl
  obtain ⟨fill, other, value, args, hsides, -, hnode, hiff⟩ :=
    absorption_keeps_dtypes_iff hmatch rfl rfl rfl hexec (by decide)
  refine ⟨hmatch, hexec, args, hnode, (hiff rfl).2 fun c hc ↦ ?_⟩
  rcases hsides with ⟨rfl, -⟩ | ⟨rfl, -⟩
  · cases hc
    rfl
  · cases hc

/-- A constant of another type than the fill takes its place all the same. -/
theorem absorption_changes_dtype_added :
    Rule.fill.pattern.match? (added ⟨.int, 32, 1⟩) 3 = some addedBindings ∧
      (added ⟨.int, 32, 1⟩).dtype? 2 = some float32 ∧
      (added ⟨.int, 32, 1⟩).dtype? 0 = some float32 ∧
      exec (Rule.fill.apply 3 3 (addedBindings.map id)) (added ⟨.int, 32, 1⟩) =
        (.ok 4, addedAbsorbed ⟨.int, 32, 1⟩) ∧
      (addedAbsorbed ⟨.int, 32, 1⟩).node? 4 =
        some (.binary Op.add 1 0 (.ofStatic [2] float32)) ∧
      (addedAbsorbed ⟨.int, 32, 1⟩).dtype? 1 = some ⟨.int, 32, 1⟩ := by
  refine ⟨?_, rfl, rfl, rfl, rfl, rfl⟩
  decide +kernel

end Added

end Rule.Fill

end TensorOpt
