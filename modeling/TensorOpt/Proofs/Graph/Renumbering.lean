import Mathlib.Data.Prod.Lex
import Mathlib.Data.String.Basic
import TensorOpt.Proofs.Graph.Meaning
import TensorOpt.Proofs.Graph.Printer

namespace TensorOpt.Graph

variable {g g' : Graph} {root root' e a : NodeId} {f : NodeId → NodeId}
  {es opened listed : List NodeId} {names names' : NodeId → String} {i : Nat}

section Symbols

/-- The entries of a bag by the numbers of their symbols, which follow the order in which the names
have been interned. -/
def interned (symbol : String → Nat) (attrs : Attrs) : List (String × Attribute) :=
  attrs.entries.mergeSort fun p q ↦ symbol p.1 ≤ symbol q.1

def entryText (entry : String × Attribute) : String ×ₗ String := toLex (entry.1, entry.2.render)

def renderEntries (entries : List (String × Attribute)) : String :=
  let texts := ((entries.map entryText).mergeSort (· ≤ ·)).map fun t ↦
    (ofLex t).1 ++ " = " ++ (ofLex t).2
  if texts.isEmpty then "" else " \x7b" ++ ", ".intercalate texts ++ "\x7d"

def renderKindBy (bag : Attrs → String) (names : NodeId → String) : NodeKind → String
  | .call op args attrs => op ++ "(" ++ ", ".intercalate (args.map names) ++ ")" ++ bag attrs
  | kind => renderKind names kind

def lineBy (bag : Attrs → String) (g : Graph) (names : NodeId → String) (number : Nat)
    (e : NodeId) : String :=
  (g.node? e).elim "" fun n ↦
    lineName number ++ " = " ++ renderKindBy bag names n.kind ++ " : " ++ renderType n.type? ++ "\n"

def renderInterned (symbol : String → Nat) (g : Graph) (root : NodeId) : String :=
  String.join ((g.postOrder root).mapIdx fun i e ↦
    lineBy (fun attrs ↦ renderEntries (interned symbol attrs)) g
      (nameIn ((g.postOrder root).take (i + 1))) i e)

/-- The order in which the entries of a bag are listed is lost when they are sorted. -/
theorem renderEntries_of_perm {attrs : Attrs} {entries : List (String × Attribute)}
    (h : entries.Perm attrs.entries) : renderEntries entries = renderAttrs attrs := by
  have hsorted : (attrs.entries.map entryText).Pairwise (· ≤ ·) :=
    List.pairwise_map.2 (attrs.sorted.imp fun {p q} hpq ↦
      (Prod.Lex.toLex_le_toLex.2 (.inl hpq) : entryText p ≤ entryText q))
  have hperm : ((entries.map entryText).mergeSort (· ≤ ·)).Perm (attrs.entries.map entryText) :=
    (List.mergeSort_perm _ _).trans (h.map entryText)
  have hsame := hperm.eq_of_pairwise' (List.pairwise_mergeSort' _ _) hsorted
  rw [renderEntries, renderAttrs, hsame, List.map_map]
  rfl

theorem renderKindBy_renderAttrs (names : NodeId → String) (kind : NodeKind) :
    renderKindBy renderAttrs names kind = renderKind names kind := by
  cases kind <;> rfl

theorem lineBy_renderAttrs (g : Graph) (names : NodeId → String) (number : Nat) (e : NodeId) :
    lineBy renderAttrs g names number e = g.line names number e := by
  rw [lineBy, line]
  cases g.node? e with
  | none => rw [Option.elim_none, Option.elim_none]
  | some n => rw [Option.elim_some, Option.elim_some, renderLine, renderKindBy_renderAttrs]

theorem renderInterned_eq (symbol : String → Nat) (g : Graph) (root : NodeId) :
    g.renderInterned symbol root = g.render root := by
  have hbag : (fun attrs ↦ renderEntries (interned symbol attrs)) = renderAttrs :=
    funext fun attrs ↦ renderEntries_of_perm (List.mergeSort_perm _ _)
  rw [renderInterned, render_eq, hbag]
  simp only [lineBy_renderAttrs]

end Symbols

theorem Reaches.mem {s : List NodeId} (he : g.Reaches root e) (hroot : root ∈ s)
    (hargs : ∀ a ∈ s, ∀ b ∈ g.args a, b ∈ s) : e ∈ s := by
  induction he with
  | refl => exact hroot
  | @tail a b _ hab ih => exact hargs a ih b hab

/-- `f` renumbers what `root` reaches in `g` as what `root'` reaches in `g'`: nothing about a node
changes but the numbers of its arguments. -/
structure Renumbers (f : NodeId → NodeId) (g : Graph) (root : NodeId) (g' : Graph)
    (root' : NodeId) : Prop where
  bijOn : Set.BijOn f {e | g.Reaches root e} {e | g'.Reaches root' e}
  map_root : f root = root'
  node? : ∀ e, g.Reaches root e →
    g'.node? (f e) = (g.node? e).map fun n ↦ n.withArgs (n.args.map f)

theorem renderLine_withArgs_map (f : NodeId → NodeId) (n : Node) :
    renderLine i names (n.withArgs (n.args.map f)) = renderLine i (names ∘ f) n := by
  obtain ⟨kind, type?⟩ := n
  cases kind <;> simp only [renderLine, renderKind, Node.withArgs, Node.args, List.map_map]

namespace Renumbers

variable (h : Renumbers f g root g' root')

include h

theorem args_eq (he : g.Reaches root e) : g'.args (f e) = (g.args e).map f := by
  rw [args, args, h.node? e he]
  cases g.node? e with
  | none => rfl
  | some n => exact Node.args_withArgs_map n f

theorem size_le_iff (he : g.Reaches root e) : g'.size ≤ f e ↔ g.size ≤ e := by
  have hmade (k : Graph) (b : NodeId) : k.size ≤ b ↔ k.node? b = none :=
    Array.getElem?_eq_none_iff.symm
  rw [hmade, hmade, h.node? e he, Option.map_eq_none_iff]

theorem eq_iff (he : g.Reaches root e) (ha : g.Reaches root a) : f e = f a ↔ e = a :=
  h.bijOn.injOn.eq_iff he ha

theorem mem_map_iff (hlisted : ∀ a ∈ listed, g.Reaches root a) (he : g.Reaches root e) :
    f e ∈ listed.map f ↔ e ∈ listed := by
  constructor
  · intro hmem
    obtain ⟨a, ha, hae⟩ := List.mem_map.1 hmem
    rwa [← (h.eq_iff (hlisted a ha) he).1 hae]
  · exact List.mem_map_of_mem

/-- The search goes through corresponding nodes in the same order, whatever it has opened before. -/
theorem finishing_map (hopened : ∀ a ∈ opened, g.Reaches root a)
    (hes : ∀ a ∈ es, g.Reaches root a) :
    g'.finishing (opened.map f) (es.map f) = (g.finishing opened es).map f := by
  fun_induction finishing g opened es with
  | case1 opened => simp [finishing]
  | case2 opened e es hold ih =>
    obtain ⟨he, hes⟩ := List.forall_mem_cons.1 hes
    rw [← h.mem_map_iff hopened he, ← h.size_le_iff he] at hold
    rw [List.map_cons, finishing, if_pos hold, ih hopened hes]
  | case3 opened e es hnew below ihbelow ihrest =>
    obtain ⟨he, hes⟩ := List.forall_mem_cons.1 hes
    have hargs : ∀ a ∈ g.args e, g.Reaches root a := fun a ha ↦ he.tail ha
    have hbelow : ∀ a ∈ below, g.Reaches root a := by
      intro a ha
      obtain ⟨-, -, b, hb, hreach⟩ := of_mem_finishing ha
      exact (hargs b hb).trans hreach
    have hopen : ∀ a ∈ e :: opened, g.Reaches root a := List.forall_mem_cons.2 ⟨he, hopened⟩
    have hbelow' : g'.finishing (f e :: opened.map f) (g'.args (f e)) = below.map f := by
      rw [h.args_eq he]
      exact ihbelow hopen hargs
    have hrest : g'.finishing (below.map f ++ f e :: opened.map f) (es.map f) =
        (g.finishing (below ++ e :: opened) es).map f := by
      have := ihrest (List.forall_mem_append.2 ⟨hbelow, hopen⟩) hes
      rwa [List.map_append, List.map_cons] at this
    rw [← h.mem_map_iff hopened he, ← h.size_le_iff he] at hnew
    rw [List.map_cons, finishing, if_neg hnew]
    simp only [hbelow', hrest, List.map_append, List.map_cons]

theorem postOrder_map : g'.postOrder root' = (g.postOrder root).map f := by
  rw [postOrder_eq_finishing, postOrder_eq_finishing, ← h.map_root]
  exact h.finishing_map (List.forall_mem_nil _) (List.forall_mem_singleton.2 .refl)

theorem idxOf_map (hlisted : ∀ a ∈ listed, g.Reaches root a) (ha : g.Reaches root a) :
    (listed.map f).idxOf (f a) = listed.idxOf a := by
  induction listed with
  | nil => rfl
  | cons b rest ih =>
    obtain ⟨hb, hrest⟩ := List.forall_mem_cons.1 hlisted
    rw [List.map_cons]
    by_cases hba : b = a
    · rw [hba, List.idxOf_cons_self, List.idxOf_cons_self]
    · rw [List.idxOf_cons_ne _ (mt (h.eq_iff hb ha).1 hba), List.idxOf_cons_ne _ hba, ih hrest]

/-- A node is called by the same number, and is known or not known on the same lines. -/
theorem nameIn_map (hlisted : ∀ a ∈ listed, g.Reaches root a) (ha : g.Reaches root a) :
    nameIn (listed.map f) (f a) = nameIn listed a := by
  rw [nameIn, nameIn, h.idxOf_map hlisted ha]
  simp only [h.mem_map_iff hlisted ha]

theorem line_map (he : g.Reaches root e)
    (hnames : ∀ a, g.Reaches root a → names' (f a) = names a) :
    g'.line names' i (f e) = g.line names i e := by
  rw [line, line, h.node? e he]
  cases hn : g.node? e with
  | none => rw [Option.map_none, Option.elim_none, Option.elim_none]
  | some n =>
    rw [Option.map_some, Option.elim_some, Option.elim_some, renderLine_withArgs_map]
    exact renderLine_congr fun a ha ↦ hnames a (he.tail ((hasArg_iff hn).2 ha))

theorem render_eq : g'.render root' = g.render root := by
  rw [Graph.render_eq, Graph.render_eq, h.postOrder_map]
  refine congrArg String.join (List.ext_getElem (by simp) fun i hi hi' ↦ ?_)
  have hlisted : ∀ a ∈ g.postOrder root, g.Reaches root a := fun a ha ↦ (mem_postOrder.1 ha).1
  simp only [List.getElem_mapIdx, List.getElem_map, ← List.map_take]
  refine h.line_map (hlisted _ (List.getElem_mem _)) fun a ha ↦ h.nameIn_map (fun b hb ↦ ?_) ha
  exact hlisted b (List.mem_of_mem_take hb)

end Renumbers

/-- If what two roots reach differs by the numbers of the nodes only, the two are written alike,
whatever else there is in the graphs and whether or not nodes depend on themselves. Nor does it
matter in which order the names have been interned in the one case and in the other. -/
theorem render_of_renumbers (h : Renumbers f g root g' root') :
    g'.render root' = g.render root ∧ ∀ symbol symbol' : String → Nat,
      g.renderInterned symbol root = g.render root ∧
        g'.renderInterned symbol' root' = g.renderInterned symbol root := by
  refine ⟨h.render_eq, fun symbol symbol' ↦ ⟨renderInterned_eq symbol g root, ?_⟩⟩
  rw [renderInterned_eq, renderInterned_eq, h.render_eq]

section Loops

def transformedLoop : Graph where
  nodes := #[.layoutTransform 1 "NC" "CN" floatPair, .call Op.negative [0] [] none]

def movedLoop : Graph where
  nodes := #[.call Op.negative [2] [] none, .var "x" floatPair,
    .layoutTransform 0 "NC" "CN" floatPair]

def moved (e : NodeId) : NodeId := if e = 0 then 2 else 0

theorem reaches_transformedLoop : transformedLoop.Reaches 0 e ↔ e ∈ [0, 1] := by
  refine ⟨fun he ↦ he.mem (by decide) (by decide), fun he ↦ ?_⟩
  rcases List.mem_pair.1 he with rfl | rfl
  · exact .refl
  · exact .single (show 1 ∈ transformedLoop.args 0 by decide)

theorem reaches_movedLoop : movedLoop.Reaches 2 e ↔ e ∈ [0, 2] := by
  refine ⟨fun he ↦ he.mem (by decide) (by decide), fun he ↦ ?_⟩
  rcases List.mem_pair.1 he with rfl | rfl
  · exact .single (show 0 ∈ movedLoop.args 2 by decide)
  · exact .refl

theorem renumbers_loops : Renumbers moved transformedLoop 0 movedLoop 2 := by
  have hmaps : ∀ e ∈ [0, 1], moved e ∈ [0, 2] := by decide
  have hinj : ∀ a ∈ [0, 1], ∀ b ∈ [0, 1], moved a = moved b → a = b := by decide
  have hsurj : ∀ e ∈ [0, 2], ∃ a ∈ [0, 1], moved a = e := by decide
  have hnode : ∀ e ∈ [0, 1], movedLoop.node? (moved e) =
      (transformedLoop.node? e).map fun n ↦ n.withArgs (n.args.map moved) := by decide
  refine ⟨⟨fun e he ↦ ?_, fun a ha b hb hab ↦ ?_, fun e he ↦ ?_⟩, rfl, fun e he ↦ ?_⟩
  · exact reaches_movedLoop.2 (hmaps e (reaches_transformedLoop.1 he))
  · exact hinj a (reaches_transformedLoop.1 ha) b (reaches_transformedLoop.1 hb) hab
  · obtain ⟨a, ha, hae⟩ := hsurj e (reaches_movedLoop.1 he)
    exact ⟨a, reaches_transformedLoop.2 ha, hae⟩
  · exact hnode e (reaches_transformedLoop.1 he)

theorem render_of_renumbers_loops :
    Renumbers moved transformedLoop 0 movedLoop 2 ∧ movedLoop.render 2 = transformedLoop.render 0 ∧
      movedLoop.renderInterned String.length 2 = transformedLoop.renderInterned (fun _ ↦ 0) 0 := by
  obtain ⟨hrender, hinterned⟩ := render_of_renumbers renumbers_loops
  exact ⟨renumbers_loops, hrender, (hinterned (fun _ ↦ 0) String.length).2⟩

end Loops

end TensorOpt.Graph
