import TensorOpt.Graph.Operators
import TensorOpt.Graph.Printer
import TensorOpt.Proofs.Graph.DepthFirst

namespace TensorOpt.Graph

variable {g : Graph} {a e root : NodeId} {listed order : List NodeId} {lines : Lines} {n : Node}
  {names names' : NodeId → String} {i : Nat}

def nameIn (listed : List NodeId) (a : NodeId) : String :=
  if a ∈ listed then lineName (listed.idxOf a) else "%?"

def line (g : Graph) (names : NodeId → String) (number : Nat) (e : NodeId) : String :=
  (g.node? e).elim "" (renderLine number names)

structure Numbers (lines : Lines) (listed : List NodeId) : Prop where
  size : lines.size = listed.length
  get? : ∀ a, lines[a]? = if a ∈ listed then some (listed.idxOf a) else none

theorem numbers_nil : Numbers {} [] := ⟨rfl, fun a ↦ by simp⟩

theorem Numbers.render (h : Numbers lines listed) : Lines.render lines = nameIn listed := by
  funext a
  rw [Lines.render, nameIn, h.get?]
  by_cases ha : a ∈ listed
  · rw [if_pos ha, if_pos ha]
  · rw [if_neg ha, if_neg ha]

theorem Numbers.concat (h : Numbers lines listed) (he : e ∉ listed) :
    Numbers (lines.insert e lines.size) (listed ++ [e]) := by
  have hcontains : lines.contains e = false := by
    rw [Std.TreeMap.contains_eq_isSome_getElem?, h.get?, if_neg he]
    rfl
  refine ⟨?_, fun a ↦ ?_⟩
  · rw [Std.TreeMap.size_insert, hcontains, h.size, List.length_append]
    rfl
  · rw [Std.TreeMap.getElem?_insert, List.idxOf_append]
    by_cases hea : e = a
    · subst hea
      rw [if_pos (Std.compare_eq_iff_eq.2 rfl), h.size]
      simp [he]
    · have hmem : a ∈ listed ++ [e] ↔ a ∈ listed := by simp [Ne.symm hea]
      rw [if_neg (mt Std.compare_eq_iff_eq.1 hea), h.get?]
      simp only [hmem]
      split
      next => rfl
      next => rfl

theorem renderNode_eq (hn : g.node? e = some n) (h : Numbers lines listed) (he : e ∉ listed)
    (text : String) : g.renderNode (text, lines) e =
      (text ++ g.line (nameIn (listed ++ [e])) listed.length e, lines.insert e lines.size) := by
  rw [line, hn, Option.elim_some, ← (h.concat he).render, ← h.size]
  simp only [renderNode, hn]

theorem foldl_renderNode (hnodup : listed.Nodup) (hmade : ∀ e ∈ listed, e < g.size) :
    ∃ lines, Numbers lines listed ∧ listed.foldl g.renderNode ("", {}) =
      (String.join (listed.mapIdx fun i e ↦ g.line (nameIn (listed.take (i + 1))) i e), lines) := by
  -- Lines are added at the end, and those before the end do not see what comes after them.
  induction listed using List.reverseRecOn with
  | nil => exact ⟨{}, numbers_nil, rfl⟩
  | append_singleton listed e ih =>
    obtain ⟨hnodup', -, hdisjoint⟩ := List.nodup_append.1 hnodup
    have he : e ∉ listed := fun he ↦ hdisjoint e he e (List.mem_singleton_self e) rfl
    obtain ⟨lines, hnumbers, hfold⟩ :=
      ih hnodup' fun a ha ↦ hmade a (List.mem_append_left [e] ha)
    obtain ⟨n, hn⟩ := node?_of_lt (hmade e List.mem_concat_self)
    have hbefore : listed.mapIdx (fun i a ↦ g.line (nameIn ((listed ++ [e]).take (i + 1))) i a) =
        listed.mapIdx fun i a ↦ g.line (nameIn (listed.take (i + 1))) i a := by
      refine List.mapIdx_eq_mapIdx_iff.2 fun i hi ↦ ?_
      rw [List.take_append_of_le_length hi]
    refine ⟨_, hnumbers.concat he, ?_⟩
    rw [List.foldl_append, hfold, List.foldl_cons, List.foldl_nil, renderNode_eq hn hnumbers he,
      List.mapIdx_concat, hbefore, String.join_append, List.take_of_length_le (by simp)]
    simp

/-- A line names an argument by its number if that stands on the same or an earlier line. -/
theorem render_eq (g : Graph) (root : NodeId) : g.render root =
    String.join ((g.postOrder root).mapIdx fun i e ↦
      g.line (nameIn ((g.postOrder root).take (i + 1))) i e) := by
  obtain ⟨lines, -, hfold⟩ := foldl_renderNode (nodup_postOrder g root)
    fun e he ↦ (mem_postOrder.1 he).2
  rw [render, hfold]

theorem nameIn_take (ha : order.idxOf a < i) (hmem : a ∈ order) :
    nameIn (order.take i) a = lineName (order.idxOf a) := by
  have hidx : order.idxOf a = (order.take i ++ order.drop i).idxOf a := by
    rw [List.take_append_drop]
  have htake : a ∈ order.take i := by
    by_contra hnot
    rw [List.idxOf_append, if_neg hnot, List.length_take] at hidx
    have hlt : order.idxOf a < order.length := List.idxOf_lt_length_iff.2 hmem
    omega
  rw [nameIn, if_pos htake, hidx, List.idxOf_append, if_pos htake]

theorem renderLine_congr (h : ∀ a ∈ n.args, names a = names' a) :
    renderLine i names n = renderLine i names' n := by
  have hkind : renderKind names n.kind = renderKind names' n.kind := by
    obtain ⟨kind, type?⟩ := n
    cases kind with
    | var name => rw [renderKind, renderKind]
    | const l => rw [renderKind, renderKind]
    | call op args attrs =>
      have hmap : args.map names = args.map names' := List.map_congr_left h
      rw [renderKind, renderKind, hmap]
  rw [renderLine, renderLine, hkind]

theorem line_congr (h : ∀ a, g.HasArg e a → names a = names' a) :
    g.line names i e = g.line names' i e := by
  rw [line, line]
  cases hn : g.node? e with
  | none => rw [Option.elim_none, Option.elim_none]
  | some n => exact renderLine_congr fun a ha ↦ h a ((hasArg_iff hn).2 ha)

/-- Where nothing depends on itself, every argument is named by its number. -/
theorem render_of_acyclic (hclosed : g.Closed root) (hacyclic : g.Acyclic root) :
    g.render root = String.join ((g.postOrder root).mapIdx
      (g.line fun a ↦ lineName ((g.postOrder root).idxOf a))) := by
  rw [render_eq]
  refine congrArg String.join (List.mapIdx_eq_mapIdx_iff.2 fun i hi ↦ line_congr fun a ha ↦ ?_)
  obtain ⟨hreach, -⟩ := mem_postOrder.1 (List.getElem_mem hi)
  have hlt := idxOf_lt_idxOf hclosed hacyclic hreach ha
  rw [(nodup_postOrder g root).idxOf_getElem i hi] at hlt
  exact nameIn_take (Nat.lt_succ_of_lt hlt)
    (mem_postOrder.2 ⟨hreach.tail ha, hclosed a (hreach.tail ha)⟩)

/-- The listing of what a root reaches holds each of its nodes once, the root last, in the order in
which the recursive depth-first search leaves them. Where nothing depends on itself the arguments
of a node come before it, and its line calls them by the numbers of their lines. -/
theorem postOrder_finishes_depthFirst (hclosed : g.Closed root) :
    (g.postOrder root).Nodup ∧ (∀ e, e ∈ g.postOrder root ↔ g.Reaches root e) ∧
      (g.postOrder root).getLast? = some root ∧ g.postOrder root = g.finishing [] [root] ∧
      (g.Acyclic root →
        (∀ e a, g.Reaches root e → g.HasArg e a →
          (g.postOrder root).idxOf a < (g.postOrder root).idxOf e) ∧
        g.render root = String.join ((g.postOrder root).mapIdx
          (g.line fun a ↦ lineName ((g.postOrder root).idxOf a)))) := by
  refine ⟨nodup_postOrder g root, fun e ↦ ?_, getLast?_postOrder (hclosed root .refl),
    postOrder_eq_finishing g root, fun hacyclic ↦ ⟨?_, render_of_acyclic hclosed hacyclic⟩⟩
  · rw [mem_postOrder]
    exact ⟨And.left, fun he ↦ ⟨he, hclosed e he⟩⟩
  · intro e a he ha
    exact idxOf_lt_idxOf hclosed hacyclic he ha

section Sums

def floatPair : TensorType := .ofStatic [2] ⟨.float, 32, 1⟩

def doubledProduct : Graph where
  nodes := #[.var "x" floatPair, .var "y" floatPair, .binary Op.add 1 0 floatPair,
    .binary Op.multiply 2 1 floatPair, .binary Op.add 3 3 floatPair]

def crossedSums : Graph where
  nodes := #[.binary Op.add 1 0 floatPair, .binary Op.add 0 1 floatPair]

theorem closed_crossedSums : crossedSums.Closed 0 := by
  intro e he
  induction he with
  | refl => decide
  | @tail b c _ hbc ih =>
    have hargs : ∀ b < crossedSums.size, ∀ c ∈ crossedSums.args b, c < crossedSums.size := by decide
    exact hargs b ih c hbc

theorem postOrder_finishes_depthFirst_sums :
    doubledProduct.postOrder 4 = [1, 0, 2, 3, 4] ∧
      doubledProduct.render 4 = String.join ([1, 0, 2, 3, 4].mapIdx
        (doubledProduct.line fun a ↦ lineName ([1, 0, 2, 3, 4].idxOf a))) ∧
      (∀ e, e ∈ crossedSums.postOrder 0 ↔ crossedSums.Reaches 0 e) ∧
      (crossedSums.postOrder 0).getLast? = some 0 := by
  have hascending : doubledProduct.Ascending := by decide
  have horder : doubledProduct.postOrder 4 = [1, 0, 2, 3, 4] := by
    simp [postOrder, walk, doubledProduct, node?, Node.args, Node.var, Node.binary, Node.call]
  obtain ⟨-, -, -, -, hacyclic⟩ :=
    postOrder_finishes_depthFirst (hascending.closed (show 4 < doubledProduct.size by decide))
  obtain ⟨-, hrender⟩ := hacyclic (hascending.acyclic 4)
  obtain ⟨-, hmem, hlast, -⟩ := postOrder_finishes_depthFirst closed_crossedSums
  rw [horder] at hrender
  exact ⟨horder, hrender, hmem, hlast⟩

end Sums

end TensorOpt.Graph
