import TensorOpt.Index.Normalize

namespace TensorOpt.Index

inductive Folding (node a b : Index) : Index → Prop
  | const (v : Word) : Folding node a b (int v)
  | left : Folding node a b a
  | right : Folding node a b b
  | node : Folding node a b node

theorem folding_intOr {node a b : Index} (v : Option Word) : Folding node a b (intOr node v) := by
  cases v with
  | none => exact .node
  | some v => exact .const v

theorem folding_mkAdd (a b : Index) : Folding (add a b) a b (mkAdd a b) := by
  unfold mkAdd
  split
  · exact folding_intOr _
  · split
    · exact .right
    · exact .node
  · split
    · exact .left
    · exact .node
  · exact .node

theorem folding_mkSub (a b : Index) : Folding (sub a b) a b (mkSub a b) := by
  unfold mkSub
  split
  · exact folding_intOr _
  · exact .node
  · split
    · exact .left
    · exact .node
  · split
    · exact .const 0
    · exact .node

theorem folding_mkMul (a b : Index) : Folding (mul a b) a b (mkMul a b) := by
  unfold mkMul
  split
  · exact folding_intOr _
  · split
    · exact .right
    · split
      · exact .left
      · exact .node
  · split
    · exact .left
    · split
      · exact .right
      · exact .node
  · exact .node

theorem folding_mkFloorDiv (a b : Index) : Folding (floorDiv a b) a b (mkFloorDiv a b) := by
  unfold mkFloorDiv
  split
  · exact folding_intOr _
  · split
    · exact .left
    · exact .node
  · split
    · exact .left
    · exact .node
  · exact .node

theorem folding_mkFloorMod (a b : Index) : Folding (floorMod a b) a b (mkFloorMod a b) := by
  unfold mkFloorMod
  split
  · exact folding_intOr _
  · split
    · exact .left
    · exact .node
  · split
    · exact .const 0
    · exact .node
  · exact .node

def Folded : Index → Prop
  | int _ | var _ => True
  | add a b => Folded a ∧ Folded b ∧ mkAdd a b = add a b
  | sub a b => Folded a ∧ Folded b ∧ mkSub a b = sub a b
  | mul a b => Folded a ∧ Folded b ∧ mkMul a b = mul a b
  | floorDiv a b => Folded a ∧ Folded b ∧ mkFloorDiv a b = floorDiv a b
  | floorMod a b => Folded a ∧ Folded b ∧ mkFloorMod a b = floorMod a b
  | ramp a b n => Folded a ∧ Folded b ∧ mkRamp a b n = ramp a b n

theorem Folding.folded {node a b r : Index} (h : Folding node a b r) (ha : Folded a)
    (hb : Folded b) (hnode : r = node → Folded node) : Folded r := by
  cases h with
  | const v => trivial
  | left => exact ha
  | right => exact hb
  | node => exact hnode rfl

section

variable {a b : Index} (ha : Folded a) (hb : Folded b)

include ha hb

theorem folded_mkAdd : Folded (mkAdd a b) :=
  (folding_mkAdd a b).folded ha hb fun h ↦ ⟨ha, hb, h⟩

theorem folded_mkSub : Folded (mkSub a b) :=
  (folding_mkSub a b).folded ha hb fun h ↦ ⟨ha, hb, h⟩

theorem folded_mkMul : Folded (mkMul a b) :=
  (folding_mkMul a b).folded ha hb fun h ↦ ⟨ha, hb, h⟩

theorem folded_mkFloorDiv : Folded (mkFloorDiv a b) :=
  (folding_mkFloorDiv a b).folded ha hb fun h ↦ ⟨ha, hb, h⟩

theorem folded_mkFloorMod : Folded (mkFloorMod a b) :=
  (folding_mkFloorMod a b).folded ha hb fun h ↦ ⟨ha, hb, h⟩

theorem folded_mkRamp (n : UInt16) : Folded (mkRamp a b n) := by
  unfold mkRamp
  split
  · exact ha
  · next hn => exact ⟨ha, hb, if_neg hn⟩

end

theorem folded_fold (e : Index) : Folded e.fold := by
  induction e with
  | int v => trivial
  | var x => trivial
  | add a b iha ihb => exact folded_mkAdd iha ihb
  | sub a b iha ihb => exact folded_mkSub iha ihb
  | mul a b iha ihb => exact folded_mkMul iha ihb
  | floorDiv a b iha ihb => exact folded_mkFloorDiv iha ihb
  | floorMod a b iha ihb => exact folded_mkFloorMod iha ihb
  | ramp a b n iha ihb => exact folded_mkRamp iha ihb n

theorem fold_of_folded {e : Index} (h : Folded e) : e.fold = e := by
  induction e with
  | int v => rfl
  | var x => rfl
  | add a b iha ihb | sub a b iha ihb | mul a b iha ihb | floorDiv a b iha ihb
  | floorMod a b iha ihb | ramp a b n iha ihb =>
    obtain ⟨ha, hb, hnode⟩ := h
    rw [fold, iha ha, ihb hb, hnode]

theorem folded_mkAddTo {s : Option Index} {e : Index} (hs : ∀ r ∈ s, Folded r) (he : Folded e) :
    Folded (mkAddTo s e) := by
  cases s with
  | none => exact he
  | some s => exact folded_mkAdd (hs s rfl) he

theorem folded_addends {e f : Index} (he : Folded e) (hf : f ∈ e.addends) : Folded f := by
  fun_induction addends e with
  | case1 a b iha ihb =>
    rcases List.mem_append.1 hf with hf | hf
    · exact iha he.1 hf
    · exact ihb he.2.1 hf
  | case2 e =>
    rw [List.mem_singleton.1 hf]
    exact he

theorem folded_stripFactors {factor e : Index} (hf : Folded factor) (he : Folded e) :
    Folded (stripFactors factor e).1 ∧ Folded (stripFactors factor e).2 := by
  fun_induction stripFactors factor e with
  | case1 factor a b ih => exact ih (folded_mkMul he.2.1 hf) he.1
  | case2 factor e => exact ⟨he, hf⟩

theorem folded_complete? {m : Remainder} {outer e r : Index} {inner skipped : Option Index}
    (h : complete? m outer inner skipped e = some r) (hm : Folded m.dividend)
    (ho : Folded outer) (hs : ∀ s ∈ skipped, Folded s) (he : Folded e) : Folded r := by
  fun_induction complete? m outer inner skipped e with
  | case1 inner a b overall hoverall =>
    cases h
    exact folded_mkAdd (folded_mkMul (hs _ rfl) ho) hm
  | case2 inner a b overall =>
    cases h
    exact hm
  | case3 => cases h
  | case4 inner skipped a b ih => exact ih h hs he.1
  | case5 skipped a b ih =>
    refine ih h (fun s hmem ↦ ?_) he.2.1
    cases hmem
    exact folded_mkAddTo hs he.1
  | case6 => cases h

theorem folded_cancel? {p : Product} {m : Remainder} {r : Index} (h : cancel? p m = some r)
    (hp : Folded p.toIndex) (hm : Folded m.toIndex) : Folded r := by
  have hparts := folded_stripFactors hp.2.1 hp.1
  exact folded_complete? h hm.1 hparts.2 (fun _ hs ↦ nomatch hs) hparts.1

end TensorOpt.Index
