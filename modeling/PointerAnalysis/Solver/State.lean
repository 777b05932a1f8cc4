import PointerAnalysis.CallGraph.Basic
import PointerAnalysis.Context.Sensitivity
import PointerAnalysis.FlowGraph
import PointerAnalysis.Heap
import PointerAnalysis.WorkList

/-!
# The state of a run

A run of the analysis keeps what it has met, the flow of references, the calls found so far and the
deliveries that wait.  All of it only grows, except the work list.

The operations below are the vocabulary in which the rules of the analysis are written.
-/

namespace PointerAnalysis.Solver

/-- The state of a run. -/
structure State where
  world : Universe := {}
  heap : Heap := {}
  flow : FlowGraph := {}
  calls : CallGraph QSiteId QMethodId := {}
  workList : WorkList
  /-- How many of the reachable methods have been visited.  They are visited in the order of their
  discovery. -/
  visited : Nat := 0
  /-- How many deliveries have been processed. -/
  processed : Nat := 0
deriving DecidableEq, Repr

/-- A computation that changes the state of a run. -/
abbrev SolverM := StateT State Outcome

/-! ## Interning -/

/-- The handle of a pointer. -/
def internPointer (key : Pointer) : SolverM PointerId :=
  modifyGet fun s =>
    let (h, world) := s.world.pointer key
    (h, { s with world })

/-- The handle of an object under a heap context. -/
def internObj (q : Qualified ObjId) : SolverM QObjId :=
  modifyGet fun s =>
    let (h, world) := s.world.obj q
    (h, { s with world })

/-- The handle of a call site under a context. -/
def internSite (q : Qualified StmtId) : SolverM QSiteId :=
  modifyGet fun s =>
    let (h, world) := s.world.site q
    (h, { s with world })

/-- The handle of a method under a context. -/
def internMethod (q : Qualified MethodId) : SolverM QMethodId :=
  modifyGet fun s =>
    let (h, world) := s.world.method q
    (h, { s with world })

/-- The abstract object of an allocation statement. -/
def objFor (p : Program) (site : StmtId) : SolverM ObjId := do
  let s ← get
  let (o, heap) ← s.heap.objFor p site
  set { s with heap }
  return o

/-- A context chosen in the pool of the run. -/
def chooseContext (choice : ContextPool → Outcome (ContextId × ContextPool)) :
    SolverM ContextId := do
  let s ← get
  let (c, contexts) ← choice s.world.contexts
  set { s with world := { s.world with contexts } }
  return c

/-! ## Flow -/

/-- Sends objects to a pointer. -/
def deliver (target : PointerId) (objs : PointsTo) : SolverM Unit :=
  modify fun s => { s with workList := s.workList.push ⟨target, objs⟩ }

/-- Lets references flow from one pointer to another.  A new edge at once forwards what its source
already refers to. -/
def addFlow (source target : PointerId) : SolverM Unit := do
  let s ← get
  let (fresh, flow) := s.flow.addEdge source target
  set { s with flow }
  if fresh then
    let objs ← s.world.setOf source
    if !objs.isEmpty then
      deliver target objs

/-- Lets references flow between two locations, interning the source first. -/
def flowBetween (source target : Pointer) : SolverM Unit := do
  let source ← internPointer source
  let target ← internPointer target
  addFlow source target

/-- Adds objects to the set of a pointer and forwards those that are new there, which are the
answer. -/
def absorb (target : PointerId) (objs : PointsTo) : SolverM PointsTo := do
  let s ← get
  let (fresh, world) ← s.world.absorb target objs
  set { s with world }
  if !fresh.isEmpty then
    (s.flow.successorsOf target).forM fun next => deliver next fresh
  return fresh

/-! ## Calls -/

/-- Makes a method reachable. -/
def reach (m : QMethodId) : SolverM Unit :=
  modify fun s => { s with calls := (s.calls.reach m).2 }

/-- Adds an edge to the call graph, and tells whether it is new. -/
def addCall (e : CallEdge QSiteId QMethodId) : SolverM Bool :=
  modifyGet fun s =>
    let (fresh, calls) := s.calls.addEdge e
    (fresh, { s with calls })

end PointerAnalysis.Solver
