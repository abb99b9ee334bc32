import TensorOpt.Graph.Traversal
import TensorOpt.Proofs.Graph.Growth

namespace TensorOpt.Graph

variable {g : Graph} {a e root : NodeId} {tasks rest : List Task} {seen : Std.TreeSet NodeId}
  {order : Array NodeId}

def Task.node : Task → NodeId
  | enter e | leave e => e

theorem forall_node_open {P : NodeId → Prop} {args : List NodeId} {p : NodeId → Bool}
    (htasks : ∀ t ∈ .enter e :: rest, P t.node) (hargs : ∀ a ∈ args, P a) :
    ∀ t ∈ (args.filter p).map .enter ++ .leave e :: rest, P t.node := by
  intro t ht
  rcases List.mem_append.1 ht with ht | ht
  · obtain ⟨a, ha, rfl⟩ := List.mem_map.1 ht
    exact hargs a (List.mem_of_mem_filter ha)
  · rcases List.mem_cons.1 ht with rfl | ht
    · exact htasks (.enter e) List.mem_cons_self
    · exact htasks t (List.mem_cons_of_mem _ ht)

theorem walk_enter_new {n : Node} (hseen : e ∉ seen) (hn : g.node? e = some n) :
    g.walk (.enter e :: rest) seen order =
      g.walk ((n.args.filter (· ∉ seen.insert e)).map .enter ++ .leave e :: rest) (seen.insert e)
        order := by
  rw [walk, dif_neg hseen]
  split
  next hnone => cases hn.symm.trans hnone
  next n' hn' =>
    cases hn.symm.trans hn'
    rfl

theorem walk_skip (h : e ∈ seen ∨ g.size ≤ e) :
    g.walk (.enter e :: rest) seen order = g.walk rest seen order := by
  rw [walk]
  split
  next => rfl
  next hseen =>
    have hnone : g.node? e = none := Array.getElem?_eq_none (h.resolve_left hseen)
    split
    next => rfl
    next n hn => cases hn.symm.trans hnone

theorem walk_leave :
    g.walk (.leave e :: rest) seen order = g.walk rest seen (order.push e) := by
  rw [walk]

def Task.admitted (p : NodeId → Bool) : Task → Bool
  | enter e => p e
  | leave _ => true

/-- What has been opened stays opened, so that it does not matter whether it is entered again. -/
theorem walk_filter {p : NodeId → Bool} (hp : ∀ a, a ∉ seen → p a = true) :
    g.walk (tasks.filter (Task.admitted p)) seen order = g.walk tasks seen order := by
  fun_induction Graph.walk g tasks seen order with
  | case1 => rw [List.filter_nil, walk]
  | case2 seen order e rest ih =>
    rw [List.filter_cons_of_pos rfl, walk_leave]
    exact ih hp
  | case3 seen order e rest hseen ih =>
    rw [List.filter_cons]
    split
    next => exact (walk_skip (.inl hseen)).trans (ih hp)
    next => exact ih hp
  | case4 seen order e rest hseen hnone ih =>
    rw [List.filter_cons]
    split
    next => exact (walk_skip (.inr (Array.getElem?_eq_none_iff.1 hnone))).trans (ih hp)
    next => exact ih hp
  | case5 seen order e rest hseen n hn opened ih =>
    have hp' (a : NodeId) (ha : a ∉ opened) : p a = true :=
      hp a fun hmem ↦ ha (Std.TreeSet.mem_insert.2 (.inr hmem))
    have he : Task.admitted p (.enter e) = true := hp e hseen
    -- none of the arguments that are entered has been opened, so that all of them are admitted
    have hargs : ((n.args.filter (· ∉ opened)).map Task.enter).filter (Task.admitted p) =
        (n.args.filter (· ∉ opened)).map Task.enter := by
      refine List.filter_eq_self.2 fun t ht ↦ ?_
      obtain ⟨a, ha, rfl⟩ := List.mem_map.1 ht
      exact hp' a (of_decide_eq_true (List.mem_filter.1 ha).2)
    have hwalk := ih hp'
    rw [List.filter_append, hargs, List.filter_cons_of_pos rfl] at hwalk
    rw [List.filter_cons_of_pos he, walk_enter_new hseen hn]
    exact hwalk

theorem walk_filter_args {p : NodeId → Bool} (hp : ∀ a, a ∉ seen → p a = true)
    (args : List NodeId) : g.walk ((args.filter p).map .enter ++ rest) seen order =
      g.walk (args.map .enter ++ rest) seen order := by
  have hfilter : ((args.filter p).map Task.enter ++ rest).filter (Task.admitted p) =
      (args.map Task.enter ++ rest).filter (Task.admitted p) := by
    have hcomp : Task.admitted p ∘ Task.enter = p := rfl
    rw [List.filter_append, List.filter_append, List.filter_map, List.filter_map, hcomp,
      List.filter_filter]
    simp only [Bool.and_self]
  rw [← walk_filter hp, hfilter, walk_filter hp]

/-- It comes to the same if all arguments are entered, those opened before included. -/
theorem walk_open {n : Node} (hseen : e ∉ seen) (hn : g.node? e = some n) :
    g.walk (.enter e :: rest) seen order =
      g.walk (n.args.map .enter ++ .leave e :: rest) (seen.insert e) order := by
  rw [walk_enter_new hseen hn]
  exact walk_filter_args (fun a ha ↦ decide_eq_true ha) n.args

theorem prefix_walk (g : Graph) (tasks : List Task) (seen : Std.TreeSet NodeId)
    (order : Array NodeId) : order.toList <+: (g.walk tasks seen order).toList := by
  fun_induction Graph.walk g tasks seen order with
  | case1 => exact List.prefix_refl _
  | case2 seen order e rest ih =>
    rw [Array.toList_push] at ih
    exact (List.prefix_append _ _).trans ih
  | case3 _ _ _ _ _ ih | case4 _ _ _ _ _ _ ih | case5 _ _ _ _ _ _ _ _ ih => exact ih

def unfinished (tasks : List Task) : List NodeId :=
  tasks.filterMap fun
    | .leave e => some e
    | .enter _ => none

@[simp]
theorem unfinished_enter : unfinished (.enter e :: rest) = unfinished rest := rfl

@[simp]
theorem unfinished_leave : unfinished (.leave e :: rest) = e :: unfinished rest := rfl

@[simp]
theorem unfinished_enter_append (args : List NodeId) :
    unfinished (args.map .enter ++ rest) = unfinished rest := by
  induction args with
  | nil => rfl
  | cons a args ih => exact ih

theorem mem_unfinished : e ∈ unfinished tasks ↔ .leave e ∈ tasks := by
  constructor
  · intro h
    obtain ⟨t, ht, hte⟩ := List.mem_filterMap.1 h
    cases t with
    | enter a => cases hte
    | leave a =>
      cases hte
      exact ht
  · intro h
    exact List.mem_filterMap.2 ⟨_, h, rfl⟩

/-- What has been opened has been made, and is either listed or still to be left, but not both and
not twice. -/
structure Tracks (g : Graph) (tasks : List Task) (seen : Std.TreeSet NodeId)
    (order : Array NodeId) : Prop where
  made : ∀ e ∈ seen, e < g.size
  mem_iff : ∀ e, e ∈ seen ↔ e ∈ order.toList ++ unfinished tasks
  nodup : (order.toList ++ unfinished tasks).Nodup

theorem Tracks.push (h : Tracks g (.leave e :: rest) seen order) :
    Tracks g rest seen (order.push e) := by
  have hlist : (order.push e).toList ++ unfinished rest =
      order.toList ++ unfinished (.leave e :: rest) := by simp
  exact ⟨h.made, by rw [hlist]; exact h.mem_iff, by rw [hlist]; exact h.nodup⟩

theorem Tracks.open (h : Tracks g (.enter e :: rest) seen order) (hseen : e ∉ seen)
    (he : e < g.size) (args : List NodeId) :
    Tracks g (args.map .enter ++ .leave e :: rest) (seen.insert e) order := by
  have hnew : e ∉ order.toList ++ unfinished rest := fun he ↦ hseen ((h.mem_iff e).2 he)
  refine ⟨fun a ha ↦ ?_, fun a ↦ ?_, ?_⟩
  · rw [Std.TreeSet.mem_insert, Std.compare_eq_iff_eq] at ha
    rcases ha with rfl | ha
    · exact he
    · exact h.made a ha
  · rw [Std.TreeSet.mem_insert, Std.compare_eq_iff_eq, h.mem_iff, unfinished_enter_append]
    simp only [unfinished_enter, unfinished_leave, List.mem_append, List.mem_cons, eq_comm (a := e)]
    exact or_left_comm
  · rw [unfinished_enter_append, unfinished_leave]
    exact List.nodup_middle.2 (List.nodup_cons.2 ⟨hnew, h.nodup⟩)

theorem Tracks.walk (h : Tracks g tasks seen order) :
    (walk g tasks seen order).toList.Nodup ∧ ∀ e ∈ walk g tasks seen order, e < g.size := by
  fun_induction Graph.walk g tasks seen order with
  | case1 seen order =>
    have hnodup := h.nodup
    rw [unfinished, List.filterMap_nil, List.append_nil] at hnodup
    refine ⟨hnodup, fun e he ↦ h.made e ((h.mem_iff e).2 ?_)⟩
    exact List.mem_append_left _ (Array.mem_toList_iff.2 he)
  | case2 seen order e rest ih => exact ih h.push
  | case3 seen order e rest _ ih | case4 seen order e rest _ _ ih =>
    exact ih ⟨h.made, h.mem_iff, h.nodup⟩
  | case5 seen order e rest hseen n hn opened ih =>
    exact ih (h.open hseen (lt_size_of_node? hn) _)

theorem tracks_enter (g : Graph) (root : NodeId) : Tracks g [.enter root] {} #[] :=
  ⟨fun e he ↦ by simp at he, fun e ↦ by simp [unfinished], by simp [unfinished]⟩

theorem nodup_postOrder (g : Graph) (root : NodeId) : (g.postOrder root).Nodup :=
  (tracks_enter g root).walk.1

end TensorOpt.Graph
