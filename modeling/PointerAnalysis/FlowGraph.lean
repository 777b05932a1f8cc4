import PointerAnalysis.Handle
import PointerAnalysis.Multimap

/-!
# Pointer flow graphs

An edge of a pointer flow graph says that whatever its source refers to, its target may refer to as
well.  There is at most one edge between two pointers.
-/

namespace PointerAnalysis

/-- Pointers and the flow of references between them. -/
structure FlowGraph where
  successors : Multimap PointerId PointerId := {}
  /-- The number of edges. -/
  size : Nat := 0
deriving DecidableEq, Repr

namespace FlowGraph

/-- The pointers that references in a pointer flow to, in the order the edges were added. -/
def successorsOf (g : FlowGraph) (source : PointerId) : List PointerId := g.successors.get source

/-- Whether there is an edge. -/
def hasEdge (g : FlowGraph) (source target : PointerId) : Bool := target ∈ g.successorsOf source

/-- Adds an edge unless it is there, and tells whether it is new. -/
def addEdge (g : FlowGraph) (source target : PointerId) : Bool × FlowGraph :=
  if g.hasEdge source target then (false, g)
  else (true, { successors := g.successors.add source target, size := g.size + 1 })

end FlowGraph

end PointerAnalysis
