import TensorOpt.Layout.Basic
import TensorOpt.Operator
import TensorOpt.Tensor.Literal

namespace TensorOpt

abbrev NodeId := Nat

def NodeId.render (e : NodeId) : String := "e" ++ toString e

inductive NodeKind
  | var (name : String)
  | const (literal : Literal)
  | call (op : String) (args : List NodeId) (attrs : Attrs)
deriving DecidableEq

structure Node where
  kind : NodeKind
  type? : Option TensorType
deriving DecidableEq

instance : Inhabited Node := ⟨⟨.var "", none⟩⟩

namespace Node

def args (n : Node) : List NodeId :=
  match n.kind with
  | .call _ args _ => args
  | _ => []

/-- The same node over other arguments. A node that takes none stays as it is. -/
def withArgs (n : Node) (args : List NodeId) : Node :=
  match n.kind with
  | .call op _ attrs => { n with kind := .call op args attrs }
  | _ => n

end Node

inductive GraphError
  | untyped (node : NodeId)
  | typeConflict (node : NodeId) (existing new : TensorType)
  | invalidLayout (cause : Layout.Invalid)
deriving DecidableEq, Repr

def GraphError.message : GraphError → String
  | untyped e =>
    "expression " ++ NodeId.render e ++ " has no checked type; type inference must run first"
  | typeConflict e existing new =>
    "expression " ++ NodeId.render e ++ " is already typed " ++ existing.render ++
      ", refusing to retype it as " ++ new.render
  | invalidLayout cause => cause.message

/-- Nodes are numbered in the order in which they are made and refer to their arguments by number.
A node never changes once it is made, except that an untyped one may be given a type. -/
structure Graph where
  nodes : Array Node := #[]
  catalog : Catalog := .standard
deriving DecidableEq

namespace Graph

def size (g : Graph) : Nat := g.nodes.size

/-- A number above every node and every argument that a node names, be it there yet or not. -/
def bound (g : Graph) : Nat :=
  (g.nodes.toList.flatMap Node.args).foldr (fun e b ↦ max (e + 1) b) g.size

theorem size_le_bound (g : Graph) : g.size ≤ g.bound := by
  unfold bound
  induction g.nodes.toList.flatMap Node.args with
  | nil => exact Nat.le_refl _
  | cons e rest ih => exact Nat.le_trans ih (Nat.le_max_right _ _)

theorem lt_bound_of_mem_args {g : Graph} {n : Node} {e : NodeId} (hn : n ∈ g.nodes)
    (he : e ∈ n.args) : e < g.bound := by
  have hmem : e ∈ g.nodes.toList.flatMap Node.args :=
    List.mem_flatMap.2 ⟨n, Array.mem_toList_iff.2 hn, he⟩
  unfold bound
  generalize g.nodes.toList.flatMap Node.args = named at hmem
  induction named with
  | nil => cases hmem
  | cons a rest ih =>
    rcases List.mem_cons.1 hmem with rfl | h
    · exact Nat.le_max_left _ _
    · exact Nat.lt_of_lt_of_le (ih h) (Nat.le_max_right _ _)

def node? (g : Graph) (e : NodeId) : Option Node := g.nodes[e]?

def type? (g : Graph) (e : NodeId) : Option TensorType := (g.node? e).bind Node.type?

def args (g : Graph) (e : NodeId) : List NodeId := ((g.node? e).map Node.args).getD []

def callee? (g : Graph) (e : NodeId) : Option String :=
  match g.node? e with
  | some ⟨.call op _ _, _⟩ => some op
  | _ => none

def attrs? (g : Graph) (e : NodeId) : Option Attrs :=
  match g.node? e with
  | some ⟨.call _ _ attrs, _⟩ => some attrs
  | _ => none

def attr? (g : Graph) (e : NodeId) (key : String) : Option Attribute :=
  (g.attrs? e).bind (·.get? key)

def literal? (g : Graph) (e : NodeId) : Option Literal :=
  match g.node? e with
  | some ⟨.const l, _⟩ => some l
  | _ => none

def isScalarConst (g : Graph) (e : NodeId) : Bool := (g.literal? e).any Literal.isScalar

def IsCallTo (g : Graph) (e : NodeId) (op : String) : Prop := g.callee? e = some op

instance (g : Graph) (e : NodeId) (op : String) : Decidable (g.IsCallTo e op) :=
  inferInstanceAs (Decidable (_ = _))

def checkedType (g : Graph) (e : NodeId) : Except GraphError TensorType :=
  match g.type? e with
  | some t => .ok t
  | none => .error (.untyped e)

def push (g : Graph) (n : Node) : Graph := { g with nodes := g.nodes.push n }

@[simp]
theorem size_push (g : Graph) (n : Node) : (g.push n).size = g.size + 1 := Array.size_push _

theorem node?_push (g : Graph) (n : Node) (e : NodeId) :
    (g.push n).node? e = if e = g.size then some n else g.node? e := Array.getElem?_push

@[simp]
theorem catalog_push (g : Graph) (n : Node) : (g.push n).catalog = g.catalog := rfl

/-- Gives a node its type. A node keeps the first type it is given. -/
def assignType (g : Graph) (e : NodeId) (t : TensorType) : Except GraphError Graph :=
  match g.type? e with
  | none => .ok { g with nodes := g.nodes.modify e fun n ↦ { n with type? := some t } }
  | some existing => if existing = t then .ok g else .error (.typeConflict e existing t)

def setAttr (g : Graph) (op key : String) (value : Attribute) : Graph :=
  { g with catalog := g.catalog.setAttr op key value }

def register (g : Graph) (op : String) (f : Fusion) : Graph :=
  { g with catalog := g.catalog.register op f }

end Graph

end TensorOpt
