import Mathlib.Data.List.Forall2
import TensorOpt.Proofs.Graph.Growth

namespace TensorOpt

variable {M : Type*} {g h : Graph} {a e post : NodeId} {m m' : M} {n : Node}

namespace Node

def head (n : Node) : Node := n.withArgs []

@[simp]
theorem args_withArgs_map (n : Node) (f : NodeId → NodeId) :
    (n.withArgs (n.args.map f)).args = n.args.map f := by
  obtain ⟨kind, type?⟩ := n
  cases kind <;> rfl

@[simp]
theorem head_withArgs (n : Node) (args : List NodeId) : (n.withArgs args).head = n.head := by
  obtain ⟨kind, type?⟩ := n
  cases kind <;> rfl

@[simp]
theorem withArgs_args (n : Node) : n.withArgs n.args = n := by
  obtain ⟨kind, type?⟩ := n
  cases kind <;> rfl

@[simp]
theorem type?_head (n : Node) : n.head.type? = n.type? := by
  obtain ⟨kind, type?⟩ := n
  cases kind <;> rfl

end Node

abbrev Semantics (M : Type*) := Node → List M → Option M

def Semantics.total (denote : Node → List M → M) : Semantics M := fun n ms ↦ some (denote n ms)

variable {A : Semantics M}

inductive Means (A : Semantics M) (g : Graph) : NodeId → M → Prop
  | node {e : NodeId} {n : Node} {ms : List M} {m : M} (hn : g.node? e = some n)
      (hlength : n.args.length = ms.length) (hargs : ∀ p ∈ n.args.zip ms, Means A g p.1 p.2)
      (hm : A n.head ms = some m) : Means A g e m

theorem means_iff : Means A g e m ↔
    ∃ n ms, g.node? e = some n ∧ List.Forall₂ (Means A g) n.args ms ∧ A n.head ms = some m := by
  constructor
  · rintro ⟨hn, hlength, hargs, hm⟩
    exact ⟨_, _, hn, List.forall₂_iff_zip.2 ⟨hlength, fun h ↦ hargs _ h⟩, hm⟩
  · rintro ⟨n, ms, hn, hargs, hm⟩
    obtain ⟨hlength, hargs⟩ := List.forall₂_iff_zip.1 hargs
    exact .node hn hlength (fun p hp ↦ hargs hp) hm

theorem means_of_node? (hn : g.node? e = some n) :
    Means A g e m ↔ ∃ ms, List.Forall₂ (Means A g) n.args ms ∧ A n.head ms = some m := by
  rw [means_iff]
  constructor
  · rintro ⟨n', ms, hn', hargs, hm⟩
    cases hn.symm.trans hn'
    exact ⟨ms, hargs, hm⟩
  · rintro ⟨ms, hargs, hm⟩
    exact ⟨n, ms, hn, hargs, hm⟩

theorem means_unary {op : String} {attrs : Attrs} {type? : Option TensorType}
    (hn : g.node? e = some ⟨.call op [a] attrs, type?⟩) :
    Means A g e m ↔ ∃ m', Means A g a m' ∧ A ⟨.call op [] attrs, type?⟩ [m'] = some m := by
  rw [means_of_node? hn]
  constructor
  · rintro ⟨ms, hargs, hm⟩
    obtain ⟨m', rest, ha, hrest, rfl⟩ := List.forall₂_cons_left_iff.1 hargs
    cases hrest
    exact ⟨m', ha, hm⟩
  · rintro ⟨m', ha, hm⟩
    exact ⟨[m'], .cons ha .nil, hm⟩

theorem means_binary {b : NodeId} {op : String} {attrs : Attrs} {type? : Option TensorType}
    (hn : g.node? e = some ⟨.call op [a, b] attrs, type?⟩) :
    Means A g e m ↔ ∃ m₁ m₂, Means A g a m₁ ∧ Means A g b m₂ ∧
      A ⟨.call op [] attrs, type?⟩ [m₁, m₂] = some m := by
  rw [means_of_node? hn]
  constructor
  · rintro ⟨ms, hargs, hm⟩
    obtain ⟨m₁, rest, ha, hrest, rfl⟩ := List.forall₂_cons_left_iff.1 hargs
    obtain ⟨m₂, rest', hb, hrest', rfl⟩ := List.forall₂_cons_left_iff.1 hrest
    cases hrest'
    exact ⟨m₁, m₂, ha, hb, hm⟩
  · rintro ⟨m₁, m₂, ha, hb, hm⟩
    exact ⟨[m₁, m₂], .cons ha (.cons hb .nil), hm⟩

namespace Means

theorem exists_node? (he : Means A g e m) : ∃ n, g.node? e = some n := by
  obtain ⟨n, _, hn, _⟩ := means_iff.1 he
  exact ⟨n, hn⟩

theorem unique (he : Means A g e m) (he' : Means A g e m') : m = m' := by
  induction he generalizing m' with
  | @node e n ms m hn hlength hargs hm ih =>
    obtain ⟨ms', hargs', hm'⟩ := (means_of_node? hn).1 he'
    obtain ⟨hlength', hargs'⟩ := List.forall₂_iff_zip.1 hargs'
    have hms : ms = ms' := by
      refine List.ext_getElem (hlength.symm.trans hlength') fun i hi hi' ↦ ?_
      have hi₀ : i < n.args.length := hlength ▸ hi
      refine ih (n.args[i], ms[i]) ?_ (hargs' ?_)
      · exact List.mem_iff_getElem.2 ⟨i, by simp [hi, hi₀], by simp⟩
      · exact List.mem_iff_getElem.2 ⟨i, by simp [hi', hi₀], by simp⟩
    rw [← hms, hm] at hm'
    exact Option.some.inj hm'

theorem iff_eq (he : Means A g e m) : Means A g e m' ↔ m' = m := by
  refine ⟨fun he' ↦ he'.unique he, ?_⟩
  rintro rfl
  exact he

theorem grow (he : Means A g e m) (hgh : g.Grows h) : Means A h e m := by
  induction he with
  | node hn hlength _ hm ih => exact .node (hgh.node? hn) hlength ih hm

theorem push {ms : List M} (hargs : List.Forall₂ (Means A g) n.args ms)
    (hm : A n.head ms = some m) : Means A (g.push n) g.size m := by
  refine (means_of_node? (Graph.node?_push_size g n)).2 ⟨ms, hargs.imp fun _ _ ha ↦ ?_, hm⟩
  exact ha.grow (.push g n)

theorem arg (he : Means A g e m) (ha : a ∈ g.args e) : ∃ m', Means A g a m' := by
  obtain ⟨n, ms, hn, hargs, -⟩ := means_iff.1 he
  rw [Graph.args_of_node? hn] at ha
  obtain ⟨i, hi, rfl⟩ := List.mem_iff_getElem.1 ha
  have hi' : i < ms.length := hargs.length_eq ▸ hi
  exact ⟨ms[i], hargs.get hi hi'⟩

theorem reaches (he : Means A g e m) (hea : g.Reaches e a) : ∃ m', Means A g a m' := by
  induction hea with
  | refl => exact ⟨m, he⟩
  | tail _ hba ih =>
    obtain ⟨m', hb⟩ := ih
    exact hb.arg hba

/-- Growth adds nothing to what can be reached from a node that means something. -/
theorem reaches_of_grow (he : Means A g e m) (hgh : g.Grows h) (hea : h.Reaches e a) :
    g.Reaches e a := by
  induction hea with
  | refl => exact .refl
  | @tail b c _ hbc ih =>
    obtain ⟨m', hb⟩ := he.reaches ih
    obtain ⟨n, hn⟩ := hb.exists_node?
    have hargs : h.args b = g.args b := by
      rw [Graph.args_of_node? hn, Graph.args_of_node? (hgh.node? hn)]
    exact ih.tail (hargs ▸ hbc : c ∈ g.args b)

theorem not_mem_args (he : Means A g e m) : e ∉ g.args e := by
  induction he with
  | @node e n ms m hn hlength _ _ ih =>
    intro he
    have hmem : e ∈ n.args := Graph.args_of_node? hn ▸ he
    obtain ⟨i, hi, hei⟩ := List.mem_iff_getElem.1 hmem
    have hi' : i < ms.length := hlength ▸ hi
    have hzip : (e, ms[i]) ∈ n.args.zip ms :=
      List.mem_iff_getElem.2 ⟨i, by simp [hi, hi'], by simp [hei]⟩
    exact ih _ hzip he

/-- A node over other arguments of the same meanings means the same. -/
theorem withArgs {f : NodeId → NodeId} (he : Means A g e m) (hn : g.node? e = some n)
    (hpost : g.node? post = some (n.withArgs (n.args.map f)))
    (hf : ∀ a ∈ n.args, ∀ m', Means A g a m' → Means A g (f a) m') : Means A g post m := by
  obtain ⟨ms, hargs, hm⟩ := (means_of_node? hn).1 he
  refine (means_of_node? hpost).2 ⟨ms, ?_, by rwa [Node.head_withArgs]⟩
  rw [Node.args_withArgs_map, List.forall₂_map_left_iff]
  obtain ⟨hlength, hargs⟩ := List.forall₂_iff_zip.1 hargs
  exact List.forall₂_iff_zip.2 ⟨hlength, fun hp ↦ hf _ (List.of_mem_zip hp).1 _ (hargs hp)⟩

end Means

theorem exists_forall₂_means {args : List NodeId} (hargs : ∀ a ∈ args, ∃ m, Means A g a m) :
    ∃ ms, List.Forall₂ (Means A g) args ms := by
  induction args with
  | nil => exact ⟨[], .nil⟩
  | cons a rest ih =>
    obtain ⟨m, ha⟩ := hargs a List.mem_cons_self
    obtain ⟨ms, hrest⟩ := ih fun b hb ↦ hargs b (List.mem_cons_of_mem a hb)
    exact ⟨m :: ms, .cons ha hrest⟩

theorem exists_means (denote : Node → List M → M) (hacyclic : g.Acyclic e) (hclosed : g.Closed e) :
    ∃ m, Means (.total denote) g e m := by
  refine hacyclic.induction (P := fun e ↦ ∃ m, Means (.total denote) g e m) hclosed
    (fun e he ih ↦ ?_) .refl
  obtain ⟨n, hn⟩ := Graph.node?_of_lt (hclosed e he)
  rw [Graph.args_of_node? hn] at ih
  obtain ⟨ms, hargs⟩ := exists_forall₂_means ih
  exact ⟨denote n.head ms, (means_of_node? hn).2 ⟨ms, hargs, rfl⟩⟩

end TensorOpt
