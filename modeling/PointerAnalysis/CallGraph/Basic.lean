import PointerAnalysis.Multimap
import PointerAnalysis.Failure

/-!
# Call graphs

A call graph holds the methods that can run and the calls between them.  It is used with plain
statements and methods as well as with statements and methods under contexts, so both are
parameters.  Call graphs only grow: there is at most one edge from a call site to a callee, and the
order of methods and edges is the order of their discovery.
-/

namespace PointerAnalysis

/-- A call from a site to a method. -/
structure CallEdge (σ μ : Type) where
  kind : CallKind
  site : σ
  callee : μ
deriving DecidableEq, Repr

/-- Methods in the order of their discovery, and the set in which a method is looked up. -/
structure Discovered (μ : Type) where
  order : List μ
  members : List μ
  inStep : ∀ m, m ∈ members ↔ m ∈ order
deriving DecidableEq, Repr

/-- No methods. -/
def Discovered.none {μ : Type} : Discovered μ := ⟨[], [], fun _ => Iff.rfl⟩

/-- The methods with one more, discovered last. -/
def Discovered.add {μ : Type} (d : Discovered μ) (m : μ) : Discovered μ where
  order := d.order ++ [m]
  members := m :: d.members
  inStep m' := by simp [d.inStep, or_comm]

/-- Methods and calls, with indexes of the edges by their ends. -/
structure CallGraph (σ μ : Type) where
  entries : List μ := []
  /-- The methods that can run. -/
  discovered : Discovered μ := .none
  edges : List (CallEdge σ μ) := []
  /-- The sites and callees between which there is an edge. -/
  pairs : List (σ × μ) := []
  /-- The positions of the edges out of each call site, ascending. -/
  outgoing : Multimap σ Nat := {}
  /-- The positions of the edges into each method, ascending. -/
  incoming : Multimap μ Nat := {}
deriving DecidableEq, Repr

namespace CallGraph

variable {σ μ : Type} [DecidableEq σ] [DecidableEq μ]

/-! ## Questions -/

/-- The methods that can run, in the order of discovery. -/
def reachable (g : CallGraph σ μ) : List μ := g.discovered.order

omit [DecidableEq σ] [DecidableEq μ] in
@[simp] theorem reachable_empty : ({} : CallGraph σ μ).reachable = [] := rfl

/-- Whether a method can run. -/
def contains (g : CallGraph σ μ) (m : μ) : Bool := m ∈ g.discovered.members

/-- The edges at some positions. -/
def edgesAt (g : CallGraph σ μ) (positions : List Nat) : List (CallEdge σ μ) :=
  positions.filterMap (g.edges[·]?)

/-- The edges out of a call site, in the order of discovery. -/
def edgesOutOf (g : CallGraph σ μ) (site : σ) : List (CallEdge σ μ) :=
  g.edgesAt (g.outgoing.get site)

/-- The edges into a method, in the order of discovery. -/
def edgesInto (g : CallGraph σ μ) (m : μ) : List (CallEdge σ μ) := g.edgesAt (g.incoming.get m)

/-- The methods a site calls. -/
def calleesOf (g : CallGraph σ μ) (site : σ) : List μ := (g.edgesOutOf site).map CallEdge.callee

/-- The sites that call a method. -/
def callersOf (g : CallGraph σ μ) (m : μ) : List σ := (g.edgesInto m).map CallEdge.site

/-- Whether a site calls a method. -/
def hasEdge (g : CallGraph σ μ) (site : σ) (m : μ) : Bool := (site, m) ∈ g.pairs

/-! ## Growth -/

/-- Makes a method reachable, and tells whether it was not. -/
def reach (g : CallGraph σ μ) (m : μ) : Bool × CallGraph σ μ :=
  if g.contains m then (false, g) else (true, { g with discovered := g.discovered.add m })

/-- Makes a method an entry, and thereby reachable. -/
def addEntry (g : CallGraph σ μ) (m : μ) : CallGraph σ μ :=
  let g := if m ∈ g.entries then g else { g with entries := g.entries ++ [m] }
  (g.reach m).2

/-- Adds an edge unless there is one from the same site to the same method, and tells whether the
edge is new. -/
def addEdge (g : CallGraph σ μ) (e : CallEdge σ μ) : Bool × CallGraph σ μ :=
  if g.hasEdge e.site e.callee then (false, g)
  else
    (true,
      { g with
        edges := g.edges ++ [e]
        pairs := (e.site, e.callee) :: g.pairs
        outgoing := g.outgoing.add e.site g.edges.length
        incoming := g.incoming.add e.callee g.edges.length })

end CallGraph

end PointerAnalysis
