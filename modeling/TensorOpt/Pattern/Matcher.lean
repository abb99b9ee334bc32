import Std.Data.TreeMap
import TensorOpt.Pattern.Basic

namespace TensorOpt.Pattern

/-- What the parts that have matched so far are bound to, and in which order they matched. Lists
have their newest member first. -/
structure Trail where
  bound : Std.TreeMap Label (List NodeId) := {}
  log : List Label := []

namespace Trail

def size (t : Trail) : Nat := t.log.length

def all (t : Trail) (l : Label) : List NodeId := (t.bound.getD l []).reverse

def push (t : Trail) (l : Label) (e : NodeId) : Trail :=
  ⟨t.bound.insert l (e :: t.bound.getD l []), l :: t.log⟩

def pop (t : Trail) : Trail :=
  match t.log with
  | [] => t
  | l :: rest => ⟨t.bound.insert l (t.bound.getD l []).tail, rest⟩

def takeBack : Nat → Trail → Trail
  | 0, t => t
  | n + 1, t => takeBack n t.pop

def rollback (t : Trail) (mark : Nat) : Trail := takeBack (t.size - mark) t

/-- The entries, the newest first, read off the labels in the order in which they were added. -/
def entries : List Label → Std.TreeMap Label (List NodeId) → List (Label × NodeId)
  | [], _ => []
  | l :: rest, bound =>
    match bound.getD l [] with
    | [] => entries rest bound
    | e :: es => (l, e) :: entries rest (bound.insert l es)

def bindings (t : Trail) : Bindings := ⟨(entries t.log t.bound).reverse⟩

end Trail

abbrev Matcher := StateM Trail

/-- Binds `e` to a part of a pattern if `x` succeeds, and otherwise takes back what `x` added. -/
def Matcher.part (l : Label) (e : NodeId) (x : Matcher Bool) : Matcher Bool := do
  let mark := (← get).size
  let matched ← x
  if matched then modify (·.push l e) else modify (·.rollback mark)
  return matched

mutual

/-- Matches a pattern against a node. Choices are final: once an option has matched, the later ones
are not tried. -/
def find (g : Graph) : Pattern → NodeId → Matcher Bool
  | wildcard l, e => .part l e (return true)
  | op l name, e => .part l e (return g.callee? e = some name)
  | alt l options, e => .part l e (findFirst g options e)
  | call l callee params, e =>
    .part l e do
      match g.node? e with
      | some ⟨.call name args _, _⟩ =>
        if params.length = args.length ∧ callee.matchesOp g.catalog name then
          findEach g params args
        else return false
      | _ => return false
  | attrs l base expected, e =>
    .part l e do
      if ← base.find g e then return expected.Included ((g.attrs? e).getD .empty) else return false
  | const l, e => .part l e (return (g.literal? e).isSome)

def findFirst (g : Graph) : List Pattern → NodeId → Matcher Bool
  | [], _ => return false
  | p :: ps, e => do if ← p.find g e then return true else findFirst g ps e

def findEach (g : Graph) : List Pattern → List NodeId → Matcher Bool
  | p :: ps, e :: es => do if ← p.find g e then findEach g ps es else return false
  | _, _ => return true

end

def match? (g : Graph) (p : Pattern) (e : NodeId) : Option Bindings :=
  let (matched, t) := (p.find g e).run {}
  if matched then some t.bindings else none

end TensorOpt.Pattern
