import TensorOpt.Graph.Basic

namespace TensorOpt

abbrev Label := Nat

/-- A pattern of nodes. In the place of an operator the same patterns stand for operators. -/
inductive Pattern
  /-- Anything. -/
  | wildcard (label : Label)
  /-- A call to the operator, or the operator itself. -/
  | op (label : Label) (name : String)
  /-- The first of the options that matches. -/
  | alt (label : Label) (options : List Pattern)
  /-- A call with as many arguments as there are patterns for them. -/
  | call (label : Label) (callee : Pattern) (args : List Pattern)
  /-- What `base` matches, provided it has these attributes: a call its own, an operator those of
  the catalogue. -/
  | attrs (label : Label) (base : Pattern) (expected : Attrs)
  /-- Any constant. -/
  | const (label : Label)

def Pattern.label : Pattern → Label
  | wildcard l | op l _ | alt l _ | call l _ _ | attrs l _ _ | const l => l

/-- What each part of a pattern matched, in the order in which the parts were done. -/
structure Bindings where
  log : List (Label × NodeId) := []
deriving DecidableEq, Repr

namespace Bindings

def all (b : Bindings) (l : Label) : List NodeId :=
  b.log.filterMap fun (l', e) ↦ if l' = l then some e else none

def first? (b : Bindings) (l : Label) : Option NodeId := (b.all l).head?

def contains (b : Bindings) (l : Label) : Bool := !(b.all l).isEmpty

def size (b : Bindings) : Nat := b.log.length

def map (b : Bindings) (f : NodeId → NodeId) : Bindings := ⟨b.log.map fun (l, e) ↦ (l, f e)⟩

theorem all_append (log log' : List (Label × NodeId)) (l : Label) :
    all ⟨log ++ log'⟩ l = all ⟨log⟩ l ++ all ⟨log'⟩ l := List.filterMap_append

theorem all_singleton (l : Label) (e : NodeId) (l' : Label) :
    all ⟨[(l, e)]⟩ l' = if l = l' then [e] else [] := by
  by_cases h : l = l' <;> simp [all, h]

theorem all_map (b : Bindings) (f : NodeId → NodeId) (l : Label) :
    (b.map f).all l = (b.all l).map f := by
  rw [all, all, map, List.filterMap_map, List.map_filterMap]
  congr 1
  funext ⟨l', e⟩
  by_cases h : l' = l <;> simp [h]

end Bindings

namespace Pattern

mutual

def matchesOp (c : Catalog) (name : String) : Pattern → Bool
  | wildcard _ => true
  | op _ expected => expected = name
  | alt _ options => anyMatchesOp c name options
  | attrs _ base expected => base.matchesOp c name && expected.Included (c.attrs name)
  | call .. | const _ => false

def anyMatchesOp (c : Catalog) (name : String) : List Pattern → Bool
  | [] => false
  | p :: ps => p.matchesOp c name || anyMatchesOp c name ps

end

end Pattern

end TensorOpt
