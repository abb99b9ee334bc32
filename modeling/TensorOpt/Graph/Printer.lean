import Std.Data.TreeMap
import TensorOpt.Graph.Traversal

namespace TensorOpt.Graph

abbrev Lines := Std.TreeMap NodeId Nat

def lineName (number : Nat) : String := "%" ++ toString number

/-- An argument on a later line has no number yet. -/
def Lines.render (lines : Lines) (e : NodeId) : String :=
  match lines[e]? with
  | some n => lineName n
  | none => "%?"

def renderAttrs (attrs : Attrs) : String :=
  let entries := attrs.entries.map fun (key, value) ↦ key ++ " = " ++ value.render
  if entries.isEmpty then "" else " \x7b" ++ ", ".intercalate entries ++ "\x7d"

def renderKind (names : NodeId → String) : NodeKind → String
  | .var name => "var @" ++ name
  | .const l => "const " ++ l.render
  | .call op args attrs =>
    op ++ "(" ++ ", ".intercalate (args.map names) ++ ")" ++ renderAttrs attrs

def renderType : Option TensorType → String
  | some t => t.render
  | none => "?"

def renderLine (number : Nat) (names : NodeId → String) (n : Node) : String :=
  lineName number ++ " = " ++ renderKind names n.kind ++ " : " ++ renderType n.type? ++ "\n"

def renderNode (g : Graph) (out : String × Lines) (e : NodeId) : String × Lines :=
  let (text, lines) := out
  match g.node? e with
  | none => (text, lines)
  | some n =>
    let number := lines.size
    let lines := lines.insert e number
    (text ++ renderLine number (Lines.render lines) n, lines)

def render (g : Graph) (root : NodeId) : String :=
  ((g.postOrder root).foldl g.renderNode ("", {})).1

end TensorOpt.Graph
