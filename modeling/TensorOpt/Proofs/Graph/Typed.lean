import TensorOpt.Proofs.Graph.DepthFirst

namespace TensorOpt

variable {g h k : Graph} {a e root : NodeId} {n : Node}

namespace Graph

def Typed (g : Graph) (root : NodeId) : Prop :=
  ∀ e n, g.Reaches root e → g.node? e = some n → n.type?.isSome

structure Checked (g : Graph) (root : NodeId) : Prop where
  closed : g.Closed root
  acyclic : g.Acyclic root
  typed : g.Typed root

theorem Ascending.checked (hg : g.Ascending) (hroot : root < g.size)
    (htyped : ∀ n ∈ g.nodes, n.type?.isSome) : g.Checked root where
  closed := hg.closed hroot
  acyclic := hg.acyclic root
  typed _ n _ hn := htyped n (Array.mem_of_getElem? hn)

section Descent

-- a number that falls on the way from a node to its arguments
variable {P : Nat → NodeId → Prop} {i : Nat}

theorem exists_lt_of_transGen (harg : ∀ {i e a}, P i e → g.HasArg e a → ∃ j < i, P j a)
    (he : P i e) (ha : Relation.TransGen g.HasArg e a) : ∃ j < i, P j a := by
  induction ha with
  | single ha => exact harg he ha
  | tail _ hb ih =>
    obtain ⟨j, hj, ha⟩ := ih
    obtain ⟨k, hk, hb⟩ := harg ha hb
    exact ⟨k, hk.trans hj, hb⟩

theorem exists_of_reaches (harg : ∀ {i e a}, P i e → g.HasArg e a → ∃ j < i, P j a)
    (he : P i e) (ha : g.Reaches e a) : ∃ j, P j a := by
  rcases Relation.reflTransGen_iff_eq_or_transGen.1 ha with rfl | ha
  · exact ⟨i, he⟩
  · obtain ⟨j, -, ha⟩ := exists_lt_of_transGen harg he ha
    exact ⟨j, ha⟩

/-- Nothing depends on itself where every argument has a smaller number than the node. -/
theorem Checked.of_descent (hnode : ∀ {i e}, P i e → ∃ n, g.node? e = some n ∧ n.type?.isSome)
    (harg : ∀ {i e a}, P i e → g.HasArg e a → ∃ j < i, P j a) (he : P i e) : g.Checked e where
  closed a ha := by
    obtain ⟨j, ha⟩ := exists_of_reaches harg he ha
    obtain ⟨n, hn, -⟩ := hnode ha
    exact lt_size_of_node? hn
  acyclic a ha hcycle := by
    obtain ⟨j, ha⟩ := exists_of_reaches harg he ha
    induction j using Nat.strongRecOn with
    | ind j ih =>
      obtain ⟨k, hk, ha⟩ := exists_lt_of_transGen harg ha hcycle
      exact ih k hk ha
  typed a n ha hn := by
    obtain ⟨j, ha⟩ := exists_of_reaches harg he ha
    obtain ⟨n', hn', htype⟩ := hnode ha
    cases hn.symm.trans hn'
    exact htype

end Descent

namespace Closed

theorem hasArg_of_keep (hclosed : g.Closed root) (hgh : g.Keeps h) (he : g.Reaches root e)
    (ha : h.HasArg e a) : g.HasArg e a := by
  obtain ⟨n, hn⟩ := node?_of_lt (hclosed e he)
  obtain ⟨type?, hn'⟩ := hgh hn
  exact (hasArg_iff hn).2 ((hasArg_iff hn').1 ha)

theorem reaches_of_keep (hclosed : g.Closed root) (hgh : g.Keeps h) (he : h.Reaches root e) :
    g.Reaches root e := by
  induction he with
  | refl => exact .refl
  | tail _ ha ih => exact ih.tail (hclosed.hasArg_of_keep hgh ih ha)

theorem reaches_of_grow (hclosed : g.Closed root) (hgh : g.Grows h) (he : h.Reaches root e) :
    g.Reaches root e := hclosed.reaches_of_keep hgh.keeps he

theorem grow (hclosed : g.Closed root) (hgh : g.Grows h) : h.Closed root := by
  intro e he
  obtain ⟨n, hn⟩ := node?_of_lt (hclosed e (hclosed.reaches_of_grow hgh he))
  exact lt_size_of_node? (hgh.node? hn)

theorem arg (hclosed : g.Closed e) (ha : a ∈ g.args e) : g.Closed a :=
  fun b hb ↦ hclosed b (.head ha hb)

theorem push (hargs : ∀ a ∈ n.args, g.Closed a) : (g.push n).Closed g.size := by
  intro e he
  rcases Relation.ReflTransGen.cases_head he with rfl | ⟨a, ha, he⟩
  · simp
  · exact (hargs a ((hasArg_iff (node?_push_size g n)).1 ha)).grow (.push g n) e he

end Closed

namespace Acyclic

theorem grow (hacyclic : g.Acyclic root) (hclosed : g.Closed root) (hgh : g.Grows h) :
    h.Acyclic root := by
  intro e he hcycle
  have hreach := hclosed.reaches_of_grow hgh he
  have htransfer {a : NodeId} (ha : Relation.TransGen h.HasArg e a) :
      Relation.TransGen g.HasArg e a := by
    induction ha with
    | single ha => exact .single (hclosed.hasArg_of_keep hgh.keeps hreach ha)
    | tail _ hb ih =>
      exact ih.tail (hclosed.hasArg_of_keep hgh.keeps (hreach.trans ih.to_reflTransGen) hb)
  exact hacyclic e hreach (htransfer hcycle)

theorem arg (hacyclic : g.Acyclic e) (ha : a ∈ g.args e) : g.Acyclic a :=
  fun b hb ↦ hacyclic b (.head ha hb)

theorem push (hargs : ∀ a ∈ n.args, g.Acyclic a) (hclosed : ∀ a ∈ n.args, g.Closed a) :
    (g.push n).Acyclic g.size := by
  have harg {a : NodeId} (ha : (g.push n).HasArg g.size a) : a ∈ n.args :=
    (hasArg_iff (node?_push_size g n)).1 ha
  intro e he hcycle
  rcases Relation.ReflTransGen.cases_head he with rfl | ⟨a, ha, he⟩
  · obtain ⟨a, ha, hback⟩ := Relation.TransGen.head'_iff.1 hcycle
    have hsize := (hclosed a (harg ha)).reaches_of_grow (.push g n) hback
    exact Nat.lt_irrefl _ (hclosed a (harg ha) _ hsize)
  · exact (hargs a (harg ha)).grow (hclosed a (harg ha)) (.push g n) e he hcycle

end Acyclic

theorem Typed.arg (htyped : g.Typed e) (ha : a ∈ g.args e) : g.Typed a :=
  fun b n hb hn ↦ htyped b n (.head ha hb) hn

/-- A node that names one that has not been made may reach the new node. -/
theorem Typed.push (htype : n.type?.isSome) (hargs : ∀ a ∈ n.args, g.Typed a)
    (he : e = g.size ∨ g.Typed e) : (g.push n).Typed e := by
  have hreach {b : NodeId} (hb : (g.push n).Reaches e b) : b = g.size ∨ g.Typed b := by
    induction hb with
    | refl => exact he
    | @tail b c _ hc ih =>
      right
      by_cases hsize : b = g.size
      · rw [hsize, hasArg_iff (node?_push_size g n)] at hc
        exact hargs c hc
      · rw [HasArg, args, node?_push, if_neg hsize] at hc
        exact (ih.resolve_left hsize).arg hc
  intro b m hb hm
  rw [node?_push] at hm
  split at hm
  next =>
    cases hm
    exact htype
  next hsize => exact (hreach hb).resolve_left hsize b m .refl hm

theorem untyped?_eq_none_iff : g.untyped? root = none ↔ g.Typed root := by
  simp only [untyped?, List.find?_eq_none, mem_postOrder, Option.isNone_iff_eq_none]
  constructor
  · intro h e n he hn
    rw [← type?_of_node? hn, Option.isSome_iff_ne_none]
    exact h e ⟨he, lt_size_of_node? hn⟩
  · rintro h e ⟨he, hlt⟩
    obtain ⟨n, hn⟩ := node?_of_lt hlt
    rw [type?_of_node? hn, ← ne_eq, ← Option.isSome_iff_ne_none]
    exact h e n he hn

end Graph

/-- A property of nodes that passes to the arguments of a node, and from the arguments to a node
that is typed, and that is kept when such a node is made. -/
structure Lasting (P : Graph → NodeId → Prop) : Prop where
  typed : ∀ {g e n}, P g e → g.node? e = some n → n.type?.isSome
  arg : ∀ {g e a}, P g e → a ∈ g.args e → P g a
  made : ∀ {g n}, n.type?.isSome → (∀ a ∈ n.args, P g a) → P (g.push n) g.size
  push : ∀ {g n e}, n.type?.isSome → (∀ a ∈ n.args, P g a) → P g e → P (g.push n) e

theorem lasting_typed : Lasting Graph.Typed where
  typed htyped hn := htyped _ _ .refl hn
  arg := Graph.Typed.arg
  made htype hargs := .push htype hargs (.inl rfl)
  push htype hargs he := .push htype hargs (.inr he)

theorem lasting_checked : Lasting Graph.Checked where
  typed he hn := he.typed _ _ .refl hn
  arg he ha := ⟨he.closed.arg ha, he.acyclic.arg ha, he.typed.arg ha⟩
  made htype hargs := by
    refine ⟨.push fun a ha ↦ (hargs a ha).closed, ?_, ?_⟩
    · exact .push (fun a ha ↦ (hargs a ha).acyclic) fun a ha ↦ (hargs a ha).closed
    · exact .push htype (fun a ha ↦ (hargs a ha).typed) (.inl rfl)
  push htype hargs he := by
    refine ⟨he.closed.grow (.push _ _), he.acyclic.grow he.closed (.push _ _), ?_⟩
    exact .push htype (fun a ha ↦ (hargs a ha).typed) (.inr he.typed)

inductive Builds (P : Graph → NodeId → Prop) (g : Graph) : Graph → Prop
  | refl : Builds P g g
  | push {h : Graph} {n : Node} (hgh : Builds P g h) (htype : n.type?.isSome)
      (hargs : ∀ a ∈ n.args, P h a) : Builds P g (h.push n)

variable {P : Graph → NodeId → Prop}

theorem Builds.trans (hgh : Builds P g h) (hhk : Builds P h k) : Builds P g k := by
  induction hhk with
  | refl => exact hgh
  | push _ htype hargs ih => exact .push ih htype hargs

namespace Lasting

theorem builds (hP : Lasting P) (hgh : Builds P g h) (he : P g e) : P h e := by
  induction hgh with
  | refl => exact he
  | push _ htype hargs ih => exact hP.push htype hargs ih

theorem reaches (hP : Lasting P) (he : P g e) (ha : g.Reaches e a) : P g a := by
  induction ha with
  | refl => exact he
  | tail _ ha ih => exact hP.arg ih ha

end Lasting

end TensorOpt
