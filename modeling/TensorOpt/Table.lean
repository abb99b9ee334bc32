namespace TensorOpt

/-- A finite map, listed by increasing name, so that tables with the same content are equal. -/
structure Table (α : Type) where
  entries : List (String × α)
  sorted : entries.Pairwise fun p q ↦ p.1 < q.1
deriving DecidableEq

namespace Table

variable {α : Type}

def empty : Table α := ⟨[], .nil⟩

instance : Inhabited (Table α) := ⟨empty⟩

def isEmpty (t : Table α) : Bool := t.entries.isEmpty

def get? (t : Table α) (key : String) : Option α := t.entries.lookup key

def place (key : String) (value : α) : List (String × α) → List (String × α)
  | [] => [(key, value)]
  | p :: rest =>
    if key < p.1 then (key, value) :: p :: rest
    else if key = p.1 then (key, value) :: rest
    else p :: place key value rest

theorem mem_place {key : String} {value : α} {entries : List (String × α)} {q : String × α}
    (h : q ∈ place key value entries) : q = (key, value) ∨ q ∈ entries := by
  fun_induction place key value entries <;> simp_all <;> grind

theorem sorted_place (key : String) (value : α) {entries : List (String × α)}
    (h : entries.Pairwise fun p q ↦ p.1 < q.1) :
    (place key value entries).Pairwise fun p q ↦ p.1 < q.1 := by
  fun_induction place key value entries with
  | case1 => simp
  | case2 p rest hlt =>
    obtain ⟨hp, -⟩ := List.pairwise_cons.1 h
    refine List.pairwise_cons.2 ⟨fun q hq ↦ ?_, h⟩
    rcases List.mem_cons.1 hq with rfl | hq
    · exact hlt
    · exact String.lt_trans hlt (hp q hq)
  | case3 p rest _ heq =>
    obtain ⟨hp, hrest⟩ := List.pairwise_cons.1 h
    exact List.pairwise_cons.2 ⟨fun q hq ↦ heq ▸ hp q hq, hrest⟩
  | case4 p rest hlt hne ih =>
    obtain ⟨hp, hrest⟩ := List.pairwise_cons.1 h
    refine List.pairwise_cons.2 ⟨fun q hq ↦ ?_, ih hrest⟩
    rcases mem_place hq with rfl | hq
    · grind
    · exact hp q hq

def insert (t : Table α) (key : String) (value : α) : Table α :=
  ⟨place key value t.entries, sorted_place key value t.sorted⟩

theorem lookup_cons (p : String × α) (rest : List (String × α)) (k : String) :
    (p :: rest).lookup k = if k = p.1 then some p.2 else rest.lookup k := by
  rw [List.lookup_cons]
  by_cases h : k = p.1
  · rw [if_pos h, h, beq_self_eq_true]
  · rw [if_neg h, beq_false_of_ne h]

theorem lookup_place (key : String) (value : α) (entries : List (String × α)) (k : String) :
    (place key value entries).lookup k = if k = key then some value else entries.lookup k := by
  fun_induction place key value entries with
  | case1 => exact lookup_cons _ _ _
  | case2 => exact lookup_cons _ _ _
  | case3 p rest _ heq =>
    subst heq
    rw [lookup_cons, lookup_cons]
    by_cases h : k = p.1
    · rw [if_pos h, if_pos h]
    · rw [if_neg h, if_neg h, if_neg h]
  | case4 p rest _ hne ih =>
    rw [lookup_cons, lookup_cons, ih]
    by_cases h : k = p.1
    · rw [if_pos h, if_pos h, if_neg fun hk ↦ hne (hk.symm.trans h)]
    · rw [if_neg h, if_neg h]

@[simp]
theorem get?_insert (t : Table α) (key : String) (value : α) (k : String) :
    (t.insert key value).get? k = if k = key then some value else t.get? k :=
  lookup_place key value t.entries k

@[simp]
theorem get?_empty (k : String) : (empty : Table α).get? k = none := rfl

/-- The table of a list of entries, the last of those with the same name counting. -/
def ofList (entries : List (String × α)) : Table α :=
  entries.foldl (fun t p ↦ t.insert p.1 p.2) empty

def contains (t : Table α) (key : String) : Bool := (t.get? key).isSome

def Included [DecidableEq α] (t u : Table α) : Prop := ∀ p ∈ t.entries, u.get? p.1 = some p.2

instance [DecidableEq α] (t u : Table α) : Decidable (t.Included u) :=
  inferInstanceAs (Decidable (∀ p ∈ t.entries, u.get? p.1 = some p.2))

end Table

end TensorOpt
