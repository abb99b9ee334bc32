import Mathlib.Data.Finset.Card
import TensorOpt.Proofs.Graph.Traversal

namespace TensorOpt.Graph

variable {g : Graph} {a e root : NodeId} {es opened opened' : List NodeId} {rest : List Task}
  {seen : Std.TreeSet NodeId} {order : Array NodeId}

def unopened (g : Graph) (opened : List NodeId) : Finset NodeId :=
  {e ∈ Finset.range g.size | e ∉ opened}

theorem mem_unopened : e ∈ g.unopened opened ↔ e < g.size ∧ e ∉ opened := by
  rw [unopened, Finset.mem_filter, Finset.mem_range]

theorem unopened_subset (h : opened ⊆ opened') : g.unopened opened' ⊆ g.unopened opened := by
  intro e he
  obtain ⟨hlt, hnot⟩ := mem_unopened.1 he
  exact mem_unopened.2 ⟨hlt, fun hmem ↦ hnot (h hmem)⟩

theorem card_unopened_cons_lt (he : ¬ (e ∈ opened ∨ g.size ≤ e)) :
    (g.unopened (e :: opened)).card < (g.unopened opened).card := by
  obtain ⟨hopened, hlt⟩ := not_or.1 he
  refine Finset.card_lt_card ((Finset.ssubset_iff_of_subset ?_).2 ⟨e, ?_, ?_⟩)
  · exact unopened_subset (List.subset_cons_self e opened)
  · exact mem_unopened.2 ⟨Nat.lt_of_not_le hlt, hopened⟩
  · intro hmem
    exact (mem_unopened.1 hmem).2 List.mem_cons_self

/-- The nodes in the order in which a depth-first search leaves them that visits `es` from left to
right: a visit to a node opens it, visits its arguments and leaves it. What has been opened before
is passed over, and so is what has not been made. -/
def finishing (g : Graph) (opened : List NodeId) : List NodeId → List NodeId
  | [] => []
  | e :: es =>
    if e ∈ opened ∨ g.size ≤ e then g.finishing opened es
    else
      let below := g.finishing (e :: opened) (g.args e)
      below ++ e :: g.finishing (below ++ e :: opened) es
termination_by es => ((g.unopened opened).card, es.length)
decreasing_by
  · exact Prod.Lex.right _ (Nat.lt_succ_self _)
  · exact Prod.Lex.left _ _ (card_unopened_cons_lt ‹_›)
  · refine Prod.Lex.left _ _ (Nat.lt_of_le_of_lt (Finset.card_le_card ?_)
      (card_unopened_cons_lt ‹_›))
    exact unopened_subset (List.subset_append_right _ _)

/-- What the search leaves was not open, has been made and is reached from what is visited. -/
theorem of_mem_finishing (ha : a ∈ g.finishing opened es) :
    a ∉ opened ∧ a < g.size ∧ ∃ e ∈ es, g.Reaches e a := by
  fun_induction finishing g opened es with
  | case1 => cases ha
  | case2 opened e es _ ih =>
    obtain ⟨hnot, hlt, b, hb, hreach⟩ := ih ha
    exact ⟨hnot, hlt, b, List.mem_cons_of_mem e hb, hreach⟩
  | case3 opened e es hnew below ihbelow ihrest =>
    rcases List.mem_append.1 ha with ha | ha
    · obtain ⟨hnot, hlt, b, hb, hreach⟩ := ihbelow ha
      exact ⟨fun h ↦ hnot (List.mem_cons_of_mem e h), hlt, e, List.mem_cons_self, .head hb hreach⟩
    rcases List.mem_cons.1 ha with rfl | ha
    · obtain ⟨hnot, hlt⟩ := not_or.1 hnew
      exact ⟨hnot, Nat.lt_of_not_le hlt, a, List.mem_cons_self, .refl⟩
    · obtain ⟨hnot, hlt, b, hb, hreach⟩ := ihrest ha
      exact ⟨fun h ↦ hnot (List.mem_append_right below (List.mem_cons_of_mem e h)), hlt, b,
        List.mem_cons_of_mem e hb, hreach⟩

/-- What is visited and has been made is opened by the end, and so are the arguments of what is
left. -/
theorem mem_finishing_append (g : Graph) (opened es : List NodeId) :
    (∀ a ∈ es, a < g.size → a ∈ g.finishing opened es ++ opened) ∧
      ∀ e ∈ g.finishing opened es, ∀ a, g.HasArg e a → a < g.size →
        a ∈ g.finishing opened es ++ opened := by
  fun_induction finishing g opened es with
  | case1 opened => exact ⟨nofun, nofun⟩
  | case2 opened e es hold ih =>
    refine ⟨fun a ha hlt ↦ ?_, ih.2⟩
    rcases List.mem_cons.1 ha with rfl | ha
    · exact List.mem_append_right _ (hold.resolve_right (Nat.not_le_of_lt hlt))
    · exact ih.1 a ha hlt
  | case3 opened e es hnew below ihbelow ihrest =>
    have hmono {b : NodeId} (hb : b ∈ below ++ e :: opened) :
        b ∈ (below ++ e :: g.finishing (below ++ e :: opened) es) ++ opened := by
      grind
    have hrest {b : NodeId}
        (hb : b ∈ g.finishing (below ++ e :: opened) es ++ (below ++ e :: opened)) :
        b ∈ (below ++ e :: g.finishing (below ++ e :: opened) es) ++ opened := by
      grind
    constructor
    · intro a ha hlt
      rcases List.mem_cons.1 ha with rfl | ha
      · exact List.mem_append_left _ (List.mem_append_right _ List.mem_cons_self)
      · exact hrest (ihrest.1 a ha hlt)
    · intro b hb a ha hlt
      rcases List.mem_append.1 hb with hb | hb
      · exact hmono (ihbelow.2 b hb a ha hlt)
      · rcases List.mem_cons.1 hb with rfl | hb
        · exact hmono (ihbelow.1 a ha hlt)
        · exact hrest (ihrest.2 b hb a ha hlt)

/-- An argument that is left after its node depends on that node. -/
theorem pairwise_finishing (g : Graph) (opened es : List NodeId) :
    (g.finishing opened es).Pairwise fun e a ↦ g.HasArg e a → g.Reaches a e := by
  fun_induction finishing g opened es with
  | case1 opened => exact .nil
  | case2 opened e es _ ih => exact ih
  | case3 opened e es hnew below ihbelow ihrest =>
    -- What comes after `e` was not open when `e` was left, unlike the arguments of all before.
    have hafter {b a : NodeId} (hb : ∀ c, g.HasArg b c → c < g.size → c ∈ below ++ e :: opened)
        (ha : a ∈ g.finishing (below ++ e :: opened) es) : ¬ g.HasArg b a := by
      obtain ⟨hnot, hlt, -⟩ := of_mem_finishing ha
      exact fun harg ↦ hnot (hb a harg hlt)
    obtain ⟨hargs, hbelow⟩ := mem_finishing_append g (e :: opened) (g.args e)
    refine List.pairwise_append.2 ⟨ihbelow, List.pairwise_cons.2 ⟨?_, ihrest⟩, ?_⟩
    · exact fun a ha harg ↦ absurd harg (hafter hargs ha)
    · intro b hb a ha harg
      rcases List.mem_cons.1 ha with rfl | ha
      · obtain ⟨-, -, c, hc, hreach⟩ := of_mem_finishing hb
        exact .head hc hreach
      · exact absurd harg (hafter (hbelow b hb) ha)

/-- Entering nodes one after the other comes down to searching them recursively. -/
theorem walk_enter (g : Graph) (opened es : List NodeId) :
    ∀ rest seen order, (∀ a, a ∈ seen ↔ a ∈ opened) →
      ∃ seen', (∀ a, a ∈ seen' ↔ a ∈ g.finishing opened es ++ opened) ∧
        g.walk (es.map .enter ++ rest) seen order =
          g.walk rest seen' (order ++ g.finishing opened es) := by
  fun_induction finishing g opened es with
  | case1 opened => exact fun rest seen order hseen ↦ ⟨seen, hseen, by simp⟩
  | case2 opened e es hold ih =>
    intro rest seen order hseen
    obtain ⟨seen', hseen', hwalk⟩ := ih rest seen order hseen
    rw [← hseen] at hold
    exact ⟨seen', hseen', (walk_skip hold).trans hwalk⟩
  | case3 opened e es hnew below ihbelow ihrest =>
    intro rest seen order hseen
    obtain ⟨hopened, hlt⟩ := not_or.1 hnew
    obtain ⟨n, hn⟩ := node?_of_lt (Nat.lt_of_not_le hlt)
    have hinsert (a : NodeId) : a ∈ seen.insert e ↔ a ∈ e :: opened := by
      rw [Std.TreeSet.mem_insert, Std.compare_eq_iff_eq, hseen, List.mem_cons, eq_comm]
    obtain ⟨seen₁, hseen₁, hbelow⟩ :=
      ihbelow (.leave e :: (es.map .enter ++ rest)) (seen.insert e) order hinsert
    obtain ⟨seen₂, hseen₂, hrest⟩ := ihrest rest seen₁ ((order ++ below).push e) hseen₁
    refine ⟨seen₂, fun a ↦ ?_, ?_⟩
    · rw [hseen₂]
      grind
    · calc g.walk ((e :: es).map .enter ++ rest) seen order
          = g.walk ((g.args e).map .enter ++ .leave e :: (es.map .enter ++ rest))
              (seen.insert e) order := by
            rw [args_of_node? hn]
            exact walk_open (fun he ↦ hopened ((hseen e).1 he)) hn
        _ = g.walk (es.map .enter ++ rest) seen₁ ((order ++ below).push e) := by
            rw [hbelow, walk_leave]
        _ = g.walk rest seen₂
              (order ++ (below ++ e :: g.finishing (below ++ e :: opened) es)) := by
            rw [hrest]
            congr 1
            refine Array.toList_inj.1 ?_
            simp

theorem postOrder_eq_finishing (g : Graph) (root : NodeId) :
    g.postOrder root = g.finishing [] [root] := by
  obtain ⟨seen', -, hwalk⟩ := walk_enter g [] [root] [] {} #[] (by simp)
  calc g.postOrder root
      = (g.walk [] seen' (#[] ++ g.finishing [] [root])).toList := congrArg Array.toList hwalk
    _ = g.finishing [] [root] := by simp [walk]

theorem lt_size_of_hasArg (h : g.HasArg e a) : e < g.size := by
  refine Nat.lt_of_not_le fun hle ↦ ?_
  have hnone : g.node? e = none := Array.getElem?_eq_none hle
  simp [HasArg, args, hnone] at h

/-- The nodes listed are those that can be reached and have been made. -/
theorem mem_postOrder : e ∈ g.postOrder root ↔ g.Reaches root e ∧ e < g.size := by
  constructor
  · intro he
    have hlt : e < g.size := (tracks_enter g root).walk.2 e (Array.mem_toList_iff.1 he)
    rw [postOrder_eq_finishing] at he
    obtain ⟨-, -, b, hb, hreach⟩ := of_mem_finishing he
    rw [List.mem_singleton.1 hb] at hreach
    exact ⟨hreach, hlt⟩
  · intro h
    obtain ⟨hreach, hlt⟩ := h
    obtain ⟨hroot, hargs⟩ := mem_finishing_append g [] [root]
    rw [postOrder_eq_finishing]
    rw [List.append_nil] at hroot hargs
    induction hreach with
    | refl => exact hroot root List.mem_cons_self hlt
    | @tail b c _ hbc ih => exact hargs b (ih (lt_size_of_hasArg hbc)) c hbc hlt

theorem finishing_singleton (hroot : root < g.size) :
    g.finishing [] [root] = g.finishing [root] (g.args root) ++ [root] := by
  have hnew : ¬ (root ∈ [] ∨ g.size ≤ root) := by simp [hroot]
  rw [finishing, if_neg hnew]
  simp only [finishing]

theorem getLast?_postOrder (hroot : root < g.size) : (g.postOrder root).getLast? = some root := by
  rw [postOrder_eq_finishing, finishing_singleton hroot, List.getLast?_concat]

/-- Where nothing depends on itself, the arguments come first. -/
theorem idxOf_lt_idxOf (hclosed : g.Closed root) (hacyclic : g.Acyclic root)
    (he : g.Reaches root e) (ha : g.HasArg e a) :
    (g.postOrder root).idxOf a < (g.postOrder root).idxOf e := by
  have hreach : g.Reaches root a := he.tail ha
  have hmem : e ∈ g.postOrder root := mem_postOrder.2 ⟨he, hclosed e he⟩
  have hmem' : a ∈ g.postOrder root := mem_postOrder.2 ⟨hreach, hclosed a hreach⟩
  by_contra hnot
  have hback : g.Reaches a e := by
    rcases Nat.lt_or_eq_of_le (Nat.le_of_not_lt hnot) with hlt | heq
    · have hpairwise := pairwise_finishing g [] [root]
      rw [← postOrder_eq_finishing, List.pairwise_iff_getElem] at hpairwise
      have hrel := hpairwise _ _ (List.idxOf_lt_length_iff.2 hmem)
        (List.idxOf_lt_length_iff.2 hmem') hlt
      rw [List.getElem_idxOf, List.getElem_idxOf] at hrel
      exact hrel ha
    · rw [(List.idxOf_inj hmem).1 heq]
      exact .refl
  exact hacyclic e he (.head' ha hback)

end TensorOpt.Graph
