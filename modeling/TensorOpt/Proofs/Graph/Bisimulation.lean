import TensorOpt.Graph.Equivalence
import TensorOpt.Proofs.Graph.Printer
import TensorOpt.Proofs.Graph.Typed

namespace TensorOpt.Graph

variable {g : Graph} {a b c : NodeId} {m n k : Node} {R S : NodeId → NodeId → Prop}
  {pending more : List NodePair} {seen : Std.TreeSet NodePair NodePair.compare}

def Compatible (σ? τ? : Option TensorType) : Prop := ∀ σ ∈ σ?, ∀ τ ∈ τ?, σ = τ

instance (σ? τ? : Option TensorType) : Decidable (Compatible σ? τ?) :=
  inferInstanceAs (Decidable (∀ σ ∈ σ?, ∀ τ ∈ τ?, σ = τ))

inductive Alike (R : NodeId → NodeId → Prop) : Node → Node → Prop
  | const {l : Literal} {σ? τ? : Option TensorType} (htypes : Compatible σ? τ?) :
    Alike R ⟨.const l, σ?⟩ ⟨.const l, τ?⟩
  | call {op : String} {args args' : List NodeId} {attrs : Attrs} {σ? τ? : Option TensorType}
    (htypes : Compatible σ? τ?) (hargs : List.Forall₂ R args args') :
    Alike R ⟨.call op args attrs, σ?⟩ ⟨.call op args' attrs, τ?⟩

def Matched (g : Graph) (R : NodeId → NodeId → Prop) (a b : NodeId) : Prop :=
  a = b ∨ ∃ m n, g.node? a = some m ∧ g.node? b = some n ∧ Alike R m n

def IsBisimulation (g : Graph) (R : NodeId → NodeId → Prop) : Prop :=
  ∀ a b, R a b → g.Matched R a b

def Bisimilar (g : Graph) (a b : NodeId) : Prop := ∃ R, g.IsBisimulation R ∧ R a b

namespace Alike

theorem compatible (h : Alike R m n) : Compatible m.type? n.type? := by
  cases h with
  | const htypes | call htypes => exact htypes

theorem imp (hRS : ∀ x ∈ m.args, ∀ y ∈ n.args, R x y → S x y) (h : Alike R m n) :
    Alike S m n := by
  cases h with
  | const htypes => exact .const htypes
  | call htypes hargs =>
    refine .call htypes ?_
    rw [List.forall₂_iff_zip] at hargs ⊢
    refine ⟨hargs.1, fun {x y} hxy ↦ ?_⟩
    exact hRS x (List.of_mem_zip hxy).1 y (List.of_mem_zip hxy).2 (hargs.2 hxy)

theorem symm (h : Alike R m n) : Alike (flip R) n m := by
  cases h with
  | const htypes => exact .const fun σ hσ τ hτ ↦ (htypes τ hτ σ hσ).symm
  | call htypes hargs => exact .call (fun σ hσ τ hτ ↦ (htypes τ hτ σ hσ).symm) hargs.flip

end Alike

theorem compatible_trans {σ? τ? υ? : Option TensorType} (hτ : τ?.isSome) (hστ : Compatible σ? τ?)
    (hτυ : Compatible τ? υ?) : Compatible σ? υ? := by
  obtain ⟨τ, rfl⟩ := Option.isSome_iff_exists.1 hτ
  exact fun σ hσ υ hυ ↦ (hστ σ hσ τ rfl).trans (hτυ τ rfl υ hυ)

/-- An untyped node in the middle would hide that the outer types differ. -/
theorem Alike.trans (htype : n.type?.isSome) (hmn : Alike R m n) (hnk : Alike S n k) :
    Alike (fun x z ↦ ∃ y ∈ n.args, R x y ∧ S y z) m k := by
  have htypes := compatible_trans htype hmn.compatible hnk.compatible
  cases hmn with
  | const => cases hnk with
    | const => exact .const htypes
  | @call op args args' attrs _ _ _ hargs => cases hnk with
    | @call _ _ args'' _ _ _ _ hargs' =>
      refine .call htypes (List.forall₂_iff_get.2 ⟨?_, fun i hi hi'' ↦ ?_⟩)
      · exact hargs.length_eq.trans hargs'.length_eq
      · have hi' : i < args'.length := hargs.length_eq ▸ hi
        exact ⟨args'[i], List.getElem_mem hi', hargs.get hi hi', hargs'.get hi' hi''⟩

theorem not_typesDiffer_iff : ¬ TypesDiffer m n ↔ Compatible m.type? n.type? := by
  rw [TypesDiffer, Compatible]
  cases m.type? <;> cases n.type? <;> simp

theorem alike_const_iff {l l' : Literal} {σ? τ? : Option TensorType} :
    Alike R ⟨.const l, σ?⟩ ⟨.const l', τ?⟩ ↔ Compatible σ? τ? ∧ l = l' := by
  constructor
  · rintro ⟨htypes⟩
    exact ⟨htypes, rfl⟩
  · rintro ⟨htypes, rfl⟩
    exact .const htypes

theorem alike_call_iff {op op' : String} {args args' : List NodeId} {attrs attrs' : Attrs}
    {σ? τ? : Option TensorType} :
    Alike R ⟨.call op args attrs, σ?⟩ ⟨.call op' args' attrs', τ?⟩ ↔
      (Compatible σ? τ? ∧ op = op' ∧ attrs = attrs') ∧ List.Forall₂ R args args' := by
  constructor
  · rintro (_ | ⟨htypes, hargs⟩)
    exact ⟨⟨htypes, rfl, rfl⟩, hargs⟩
  · rintro ⟨⟨htypes, rfl, rfl⟩, hargs⟩
    exact .call htypes hargs

/-- Nodes are alike if what is left to compare is related. -/
theorem alike_iff : Alike R m n ↔ ∃ more, obligations? m n = some more ∧ ∀ p ∈ more, R p.1 p.2 := by
  constructor
  · intro h
    have htypes : ¬ TypesDiffer m n := not_typesDiffer_iff.2 h.compatible
    rw [obligations?, if_neg htypes]
    cases h with
    | const => exact ⟨[], if_pos rfl, nofun⟩
    | @call op args args' attrs _ _ _ hargs =>
      obtain ⟨hlength, hargs⟩ := List.forall₂_iff_zip.1 hargs
      exact ⟨args.zip args', if_pos ⟨rfl, rfl, hlength⟩, fun p hp ↦ hargs hp⟩
  · rintro ⟨more, hmore, hrelated⟩
    obtain ⟨kind, σ?⟩ := m
    obtain ⟨kind', τ?⟩ := n
    rw [obligations?] at hmore
    split at hmore
    next => cases hmore
    next htypes =>
      have htypes := not_typesDiffer_iff.1 htypes
      split at hmore
      next l l' heq heq' =>
        cases heq
        cases heq'
        obtain ⟨rfl, -⟩ := Option.ite_none_right_eq_some.1 hmore
        exact .const htypes
      next op args attrs op' args' attrs' heq heq' =>
        cases heq
        cases heq'
        obtain ⟨⟨rfl, rfl, hlength⟩, hzip⟩ := Option.ite_none_right_eq_some.1 hmore
        cases hzip
        exact .call htypes (List.forall₂_iff_zip.2 ⟨hlength, fun h ↦ hrelated _ h⟩)
      next => cases hmore

theorem Matched.imp (hRS : ∀ x, g.HasArg a x → ∀ y, R x y → S x y) (h : g.Matched R a b) :
    g.Matched S a b := by
  refine h.imp_right ?_
  rintro ⟨m, n, hm, hn, halike⟩
  exact ⟨m, n, hm, hn, halike.imp fun x hx y _ ↦ hRS x ((hasArg_iff hm).2 hx) y⟩

theorem matched_iff (hab : a ≠ b) (hm : g.node? a = some m) (hn : g.node? b = some n) :
    g.Matched R a b ↔ Alike R m n := by
  rw [Matched, or_iff_right hab, hm, hn]
  constructor
  · rintro ⟨m', n', hm', hn', halike⟩
    cases hm'
    cases hn'
    exact halike
  · exact fun halike ↦ ⟨m, n, rfl, rfl, halike⟩

section Comparison

/-- All that has been taken up by the end of a comparison that fails nowhere is related, and what
has been taken up since is related for the reason that it is alike. -/
theorem exists_of_allEqual (h : g.allEqual pending seen = true) :
    ∃ R : NodeId → NodeId → Prop, (∀ a, R a a) ∧ (∀ p ∈ seen, R p.1 p.2) ∧
      (∀ p ∈ pending, R p.1 p.2) ∧ ∀ a b, R a b → (a, b) ∈ seen ∨ g.Matched R a b := by
  fun_induction allEqual g pending seen with
  | case1 seen =>
    refine ⟨fun a b ↦ a = b ∨ (a, b) ∈ seen, fun a ↦ .inl rfl, fun p hp ↦ .inr hp, nofun, ?_⟩
    rintro a b (hab | hab)
    · exact .inr (.inl hab)
    · exact .inl hab
  | case2 seen a rest ih =>
    obtain ⟨R, hrefl, hseen, hrest, hR⟩ := ih h
    exact ⟨R, hrefl, hseen, List.forall_mem_cons.2 ⟨hrefl a, hrest⟩, hR⟩
  | case3 seen a b rest _ hab ih =>
    obtain ⟨R, hrefl, hseen, hrest, hR⟩ := ih h
    exact ⟨R, hrefl, hseen, List.forall_mem_cons.2 ⟨hseen _ hab, hrest⟩, hR⟩
  | case4 seen a b rest hne hnew m n hm hn more hmore ih =>
    obtain ⟨R, hrefl, hseen, hpending, hR⟩ := ih h
    rw [List.forall_mem_append] at hpending
    have hab : R a b := hseen (a, b) (by simp)
    have hmatched : ∀ p ∈ more, R p.1 p.2 := fun p hp ↦ hpending.1 p (List.mem_reverse.2 hp)
    have halike : Alike R m n := alike_iff.2 ⟨more, hmore, hmatched⟩
    refine ⟨R, hrefl, fun p hp ↦ hseen p ?_, List.forall_mem_cons.2 ⟨hab, hpending.2⟩, ?_⟩
    · exact Std.TreeSet.mem_insert.2 (.inr hp)
    · intro x y hxy
      rcases hR x y hxy with hmem | hmatched
      · rw [Std.TreeSet.mem_insert, Std.LawfulEqCmp.compare_eq_iff_eq] at hmem
        rcases hmem with heq | hmem
        · cases heq
          exact .inr (.inr ⟨m, n, hm, hn, halike⟩)
        · exact .inl hmem
      · exact .inr hmatched
  | case5 => cases h
  | case6 => cases h

/-- What a bisimulation relates is not found to differ, whatever has been taken up before. -/
theorem allEqual_of_isBisimulation (hR : g.IsBisimulation R) (hpending : ∀ p ∈ pending, R p.1 p.2) :
    g.allEqual pending seen = true := by
  fun_induction allEqual g pending seen with
  | case1 => rfl
  | case2 seen a rest ih => exact ih (List.forall_mem_cons.1 hpending).2
  | case3 seen a b rest _ _ ih => exact ih (List.forall_mem_cons.1 hpending).2
  | case4 seen a b rest hne _ m n hm hn more hmore ih =>
    obtain ⟨hab, hrest⟩ := List.forall_mem_cons.1 hpending
    obtain ⟨m', n', hm', hn', halike⟩ := (hR a b hab).resolve_left hne
    cases hm.symm.trans hm'
    cases hn.symm.trans hn'
    obtain ⟨more', hmore', hrelated⟩ := alike_iff.1 halike
    cases hmore.symm.trans hmore'
    refine ih (List.forall_mem_append.2 ⟨fun p hp ↦ ?_, hrest⟩)
    exact hrelated p (List.mem_reverse.1 hp)
  | case5 seen a b rest hne _ m n hm hn hnone =>
    obtain ⟨m', n', hm', hn', halike⟩ :=
      (hR a b (hpending _ List.mem_cons_self)).resolve_left hne
    cases hm.symm.trans hm'
    cases hn.symm.trans hn'
    obtain ⟨more, hmore, -⟩ := alike_iff.1 halike
    cases hnone.symm.trans hmore
  | case6 seen a b rest hne _ hnone =>
    obtain ⟨m, n, hm, hn, -⟩ := (hR a b (hpending _ List.mem_cons_self)).resolve_left hne
    exact absurd hn (hnone m n hm)

theorem structuralEq_iff_bisimilar : g.structuralEq a b = true ↔ g.Bisimilar a b := by
  constructor
  · intro h
    obtain ⟨R, -, -, hpending, hR⟩ := exists_of_allEqual h
    refine ⟨R, fun x y hxy ↦ (hR x y hxy).resolve_left ?_, hpending _ (List.mem_singleton_self _)⟩
    exact Std.TreeSet.not_mem_emptyc
  · rintro ⟨R, hR, hab⟩
    exact allEqual_of_isBisimulation hR (List.forall_mem_singleton.2 hab)

end Comparison

namespace Bisimilar

theorem refl (g : Graph) (a : NodeId) : g.Bisimilar a a := ⟨Eq, fun _ _ hab ↦ .inl hab, rfl⟩

theorem matched (h : g.Bisimilar a b) : g.Matched g.Bisimilar a b := by
  obtain ⟨R, hR, hab⟩ := h
  exact (hR a b hab).imp fun x _ y hxy ↦ ⟨R, hR, hxy⟩

theorem of_matched (h : g.Matched g.Bisimilar a b) : g.Bisimilar a b := by
  refine ⟨fun x y ↦ g.Bisimilar x y ∨ x = a ∧ y = b, fun x y hxy ↦ ?_, .inr ⟨rfl, rfl⟩⟩
  have hmatched : g.Matched g.Bisimilar x y := by
    rcases hxy with hxy | ⟨rfl, rfl⟩
    · exact hxy.matched
    · exact h
  exact hmatched.imp fun _ _ _ ↦ .inl

theorem symm (h : g.Bisimilar a b) : g.Bisimilar b a := by
  obtain ⟨R, hR, hab⟩ := h
  refine ⟨flip R, fun x y hyx ↦ ?_, hab⟩
  rcases hR y x hyx with heq | ⟨m, n, hm, hn, halike⟩
  · exact .inl heq.symm
  · exact .inr ⟨n, m, hn, hm, halike.symm⟩

/-- Where all that the node in the middle reaches is typed, bisimulations compose. -/
theorem trans (htyped : g.Typed b) (hab : g.Bisimilar a b) (hbc : g.Bisimilar b c) :
    g.Bisimilar a c := by
  let R (x z : NodeId) : Prop := ∃ y, g.Reaches b y ∧ g.Bisimilar x y ∧ g.Bisimilar y z
  refine ⟨R, fun x z hxz ↦ ?_, b, .refl, hab, hbc⟩
  obtain ⟨y, hy, hxy, hyz⟩ := hxz
  have harg {n : Node} (hn : g.node? y = some n) {v : NodeId} (hv : v ∈ n.args) :
      g.Reaches b v := hy.tail ((hasArg_iff hn).2 hv)
  rcases hxy.matched with rfl | ⟨m, n, hm, hn, hmn⟩
  · rcases hyz.matched with rfl | ⟨n, k, hn, hk, hnk⟩
    · exact .inl rfl
    · exact .inr ⟨n, k, hn, hk, hnk.imp fun v hv w _ hvw ↦ ⟨v, harg hn hv, refl g v, hvw⟩⟩
  rcases hyz.matched with rfl | ⟨n', k, hn', hk, hnk⟩
  · exact .inr ⟨m, n, hm, hn, hmn.imp fun v _ w hw hvw ↦ ⟨w, harg hn hw, hvw, refl g w⟩⟩
  · cases hn.symm.trans hn'
    have hmk := hmn.trans (htyped y n hy hn) hnk
    refine .inr ⟨m, k, hm, hk, hmk.imp fun v _ w _ hvw ↦ ?_⟩
    obtain ⟨u, hu, hvu, huw⟩ := hvw
    exact ⟨u, harg hn hu, hvu, huw⟩

end Bisimilar

section Recursion

open Classical in
noncomputable def descendants (g : Graph) (e : NodeId) : Finset NodeId :=
  {a ∈ Finset.range g.size | Relation.TransGen g.HasArg e a}

theorem mem_descendants :
    a ∈ g.descendants b ↔ a < g.size ∧ Relation.TransGen g.HasArg b a := by
  simp only [descendants, Finset.mem_filter, Finset.mem_range]

theorem card_descendants_lt (hclosed : g.Closed a) (hacyclic : g.Acyclic a) (hb : g.HasArg a b) :
    (g.descendants b).card < (g.descendants a).card := by
  refine Finset.card_lt_card
    ((Finset.ssubset_iff_of_subset fun x hx ↦ ?_).2 ⟨b, ?_, fun hself ↦ ?_⟩)
  · obtain ⟨hlt, hx⟩ := mem_descendants.1 hx
    exact mem_descendants.2 ⟨hlt, .head hb hx⟩
  · exact mem_descendants.2 ⟨hclosed b (.single hb), .single hb⟩
  · exact hacyclic b (.single hb) (mem_descendants.1 hself).2

/-- Compares two nodes, then their arguments from left to right, as often as they occur. This comes
to an end if nothing that `a` reaches depends on itself. -/
def recursiveEq (g : Graph) (a b : NodeId) (hclosed : g.Closed a) (hacyclic : g.Acyclic a) : Bool :=
  if a = b then true
  else
    match hm : g.node? a, g.node? b with
    | some ⟨.const l, σ?⟩, some ⟨.const l', τ?⟩ => Compatible σ? τ? ∧ l = l'
    | some ⟨.call op args attrs, σ?⟩, some ⟨.call op' args' attrs', τ?⟩ =>
      have harg {x : NodeId} (hx : x ∈ args) : g.HasArg a x := (hasArg_iff hm).2 hx
      (Compatible σ? τ? ∧ op = op' ∧ attrs = attrs') && args.length = args'.length &&
        (args.attach.zip args').all fun (x, y) ↦
          recursiveEq g x y (hclosed.arg (harg x.2)) (hacyclic.arg (harg x.2))
    | _, _ => false
termination_by (g.descendants a).card
decreasing_by exact card_descendants_lt hclosed hacyclic (harg x.2)

theorem forall₂_iff_attach {args args' : List NodeId} : List.Forall₂ R args args' ↔
    args.length = args'.length ∧ ∀ p ∈ args.attach.zip args', R p.1 p.2 := by
  calc List.Forall₂ R args args'
      ↔ List.Forall₂ R (args.attach.map Subtype.val) args' := by rw [List.attach_map_subtype_val]
    _ ↔ List.Forall₂ (fun (x : {x // x ∈ args}) y ↦ R x y) args.attach args' :=
      List.forall₂_map_left_iff
    _ ↔ _ := by
      rw [List.forall₂_iff_zip, List.length_attach]
      exact and_congr_right' ⟨fun h p hp ↦ h hp, fun h {x y} hxy ↦ h _ hxy⟩

theorem recursiveEq_iff (hclosed : g.Closed a) (hacyclic : g.Acyclic a) :
    g.recursiveEq a b hclosed hacyclic = true ↔ g.Matched (fun x y ↦
      ∀ hclosed hacyclic, g.recursiveEq x y hclosed hacyclic = true) a b := by
  rw [recursiveEq]
  split
  next hab => simp [Matched, hab]
  next hab =>
    split
    next l σ? l' τ? hm hn =>
      rw [matched_iff hab hm hn, alike_const_iff, decide_eq_true_iff]
    next op args attrs σ? op' args' attrs' τ? hm hn =>
      rw [matched_iff hab hm hn, alike_call_iff, forall₂_iff_attach, Bool.and_eq_true,
        Bool.and_eq_true, decide_eq_true_iff, decide_eq_true_iff, List.all_eq_true, and_assoc]
      have harg {x : NodeId} (hx : x ∈ args) : g.HasArg a x := (hasArg_iff hm).2 hx
      refine and_congr_right' (and_congr_right' (forall₂_congr fun p _ ↦ ?_))
      exact ⟨fun h _ _ ↦ h, fun h ↦ h _ _⟩
    next hconst hcall =>
      refine iff_of_false Bool.false_ne_true fun hmatched ↦ ?_
      obtain ⟨m, n, hm, hn, halike⟩ := hmatched.resolve_left hab
      cases halike with
      | const => exact hconst _ _ _ _ hm hn
      | call => exact hcall _ _ _ _ _ _ _ _ hm hn

theorem recursiveEq_iff_bisimilar (hclosed : g.Closed a) (hacyclic : g.Acyclic a) :
    g.recursiveEq a b hclosed hacyclic = true ↔ g.Bisimilar a b := by
  refine hacyclic.induction (P := fun a ↦ ∀ b (hclosed : g.Closed a) (hacyclic : g.Acyclic a),
    g.recursiveEq a b hclosed hacyclic = true ↔ g.Bisimilar a b) hclosed ?_ .refl b hclosed hacyclic
  intro a _ ih b hclosed hacyclic
  rw [recursiveEq_iff]
  constructor
  · intro h
    refine .of_matched (h.imp fun x hx y hxy ↦ ?_)
    exact (ih x hx y (hclosed.arg hx) (hacyclic.arg hx)).1 (hxy _ _)
  · intro h
    refine h.matched.imp fun x hx y hxy hclosed hacyclic ↦ ?_
    exact (ih x hx y hclosed hacyclic).2 hxy

end Recursion

/-- On every graph, be it cyclic or not typed throughout, the comparison comes to an end and finds
exactly those nodes equal that some bisimulation relates. It is thus reflexive and symmetric, and it
is transitive at a node below which everything is typed. Where nothing depends on itself it is the
plain recursion. -/
theorem structuralEq_decides_bisimilarity (g : Graph) :
    (∀ a b, g.structuralEq a b = true ↔ g.Bisimilar a b) ∧
      (∀ a, g.structuralEq a a = true) ∧
      (∀ a b, g.structuralEq a b = g.structuralEq b a) ∧
      (∀ a b c, g.Typed b → g.structuralEq a b = true → g.structuralEq b c = true →
        g.structuralEq a c = true) ∧
      ∀ a b (hclosed : g.Closed a) (hacyclic : g.Acyclic a),
        g.structuralEq a b = g.recursiveEq a b hclosed hacyclic := by
  refine ⟨fun a b ↦ structuralEq_iff_bisimilar, fun a ↦ ?_, fun a b ↦ ?_, ?_, ?_⟩
  · exact structuralEq_iff_bisimilar.2 (.refl g a)
  · rw [Bool.eq_iff_iff, structuralEq_iff_bisimilar, structuralEq_iff_bisimilar]
    exact ⟨.symm, .symm⟩
  · intro a b c htyped hab hbc
    rw [structuralEq_iff_bisimilar] at hab hbc ⊢
    exact hab.trans htyped hbc
  · intro a b hclosed hacyclic
    rw [Bool.eq_iff_iff, structuralEq_iff_bisimilar, recursiveEq_iff_bisimilar]

section Loops

def negatedLoops : Graph where
  nodes := #[.call Op.negative [0] [] (some floatPair), .call Op.negative [2] [] (some floatPair),
    .call Op.negative [1] [] (some floatPair)]

def twinSums : Graph where
  nodes := #[.var "x" floatPair, .binary Op.add 0 0 floatPair, .binary Op.add 0 0 floatPair]

theorem structuralEq_decides_bisimilarity_loops :
    negatedLoops.Typed 1 ∧ negatedLoops.Bisimilar 0 1 ∧ negatedLoops.structuralEq 0 2 = true ∧
      ∃ (hclosed : twinSums.Closed 1) (hacyclic : twinSums.Acyclic 1),
        twinSums.recursiveEq 1 2 hclosed hacyclic = true := by
  have htyped : negatedLoops.Typed 1 := by
    have hnodes : ∀ n ∈ negatedLoops.nodes, n.type?.isSome := by decide
    exact fun _ n _ hn ↦ hnodes n (Array.mem_of_getElem? hn)
  obtain ⟨hunrolled, hturned⟩ :
      negatedLoops.structuralEq 0 1 = true ∧ negatedLoops.structuralEq 1 2 = true := by
    simp [structuralEq, allEqual, obligations?, TypesDiffer, negatedLoops, node?, Node.call]
  have htwins : twinSums.structuralEq 1 2 = true := by
    simp [structuralEq, allEqual, obligations?, TypesDiffer, twinSums, node?, Node.binary,
      Node.call]
  have hascending : twinSums.Ascending := by decide
  have hclosed : twinSums.Closed 1 := hascending.closed (by decide)
  obtain ⟨hiff, -, -, htrans, -⟩ := structuralEq_decides_bisimilarity negatedLoops
  obtain ⟨-, -, -, -, hrecursive⟩ := structuralEq_decides_bisimilarity twinSums
  refine ⟨htyped, (hiff 0 1).1 hunrolled, htrans 0 1 2 htyped hunrolled hturned, hclosed,
    hascending.acyclic 1, ?_⟩
  rw [← hrecursive, htwins]

-- what is untyped is equal to nodes of different types
example :
    let g : Graph := ⟨#[.call Op.ones [] [] (some (.ofStatic [2] ⟨.float, 32, 1⟩)),
      .call Op.ones [] [] none, .call Op.ones [] [] (some (.ofStatic [3] ⟨.float, 32, 1⟩))], .empty⟩
    (g.structuralEq 0 1, g.structuralEq 1 2, g.structuralEq 0 2) = (true, true, false) := by cbv

end Loops

end TensorOpt.Graph
