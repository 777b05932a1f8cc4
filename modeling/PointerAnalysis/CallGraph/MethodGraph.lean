import PointerAnalysis.CallGraph.Basic
import PointerAnalysis.Text.Dot

/-!
# Call graphs between methods

The methods of a call graph as the nodes of a directed graph: an edge of the call graph becomes an
arc from the method that contains its site to its callee.  Nodes are numbered in the order they
are first met, the reachable methods before all others.
-/

namespace PointerAnalysis

/-- A directed graph whose nodes are methods and whose arcs are calls. -/
structure MethodGraph (μ : Type) where
  nodes : List μ := []
  /-- The number of each method that has a node. -/
  numbers : List (μ × Nat) := []
  /-- The numbers of both ends, and the kind of the call. -/
  arcs : List (Nat × Nat × CallKind) := []
deriving DecidableEq, Repr

namespace MethodGraph

variable {σ μ : Type} [DecidableEq σ] [DecidableEq μ]

/-- The number of the node for a method, which is added if there is none. -/
def node (g : MethodGraph μ) (m : μ) : Nat × MethodGraph μ :=
  match g.numbers.lookup m with
  | some i => (i, g)
  | none =>
    let i := g.nodes.length
    (i, { g with nodes := g.nodes ++ [m], numbers := (m, i) :: g.numbers })

/-- Adds an arc between the nodes of two methods. -/
def addArc (g : MethodGraph μ) (caller callee : μ) (kind : CallKind) : MethodGraph μ :=
  let (source, g) := g.node caller
  let (target, g) := g.node callee
  { g with arcs := g.arcs ++ [(source, target, kind)] }

/-- The method graph of a call graph; `container` tells the method a call site belongs to. -/
def ofCallGraph (calls : CallGraph σ μ) (container : σ → Outcome μ) : Outcome (MethodGraph μ) :=
  calls.edges.foldlM
    (fun g e => do return g.addArc (← container e.site) e.callee e.kind)
    (calls.reachable.foldl (fun g m => (g.node m).2) {})

/-- The graph as DOT text; `label` tells the text at a node. -/
def toDot (g : MethodGraph μ) (label : μ → Outcome String) : Outcome String := do
  let labels ← g.nodes.mapM label
  return Text.Dot.render labels (g.arcs.map fun (i, j, kind) => (i, j, kind.text))

end MethodGraph

end PointerAnalysis
