/-!
# Directed graphs as DOT text

A graph is written with one line per node and one per arc, in the order given.  Nodes are numbered
from zero, and nodes and arcs carry labels.
-/

namespace PointerAnalysis.Text.Dot

/-- A character inside a quoted label.  A line break ends a left-justified line. -/
def escape : Char → List Char
  | '"' => ['\\', '"']
  | '\\' => ['\\', '\\']
  | '\n' => ['\\', 'l']
  | c => [c]

/-- A label between quotation marks. -/
def quoted (label : String) : String :=
  String.ofList ('"' :: label.toList.flatMap escape ++ ['"'])

/-- The text of a graph with labelled nodes and labelled arcs between node numbers. -/
def render (nodes : List String) (arcs : List (Nat × Nat × String)) : String :=
  let nodeLine := fun (label, i) => s!"    {i} [ label = {quoted label} ]\n"
  let arcLine := fun (source, target, label) =>
    s!"    {source} -> {target} [ label = {quoted label} ]\n"
  "digraph \x7b\n" ++ String.join (nodes.zipIdx.map nodeLine) ++ String.join (arcs.map arcLine)
    ++ "\x7d\n"

end PointerAnalysis.Text.Dot
