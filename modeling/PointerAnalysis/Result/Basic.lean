import PointerAnalysis.CallGraph.MethodGraph
import PointerAnalysis.Config.Basic
import PointerAnalysis.Solver.Run

/-!
# Results of an analysis

A result answers questions about a finished run.  Questions with a context are answered from the
run itself; questions without one bring together what is known under all contexts, and are answered
with the help of an index that is made once.

## Main definitions

- `Index.ofOutput`: the index of a run.
- `Result.pointsTo`, `Result.mayAlias`: what variables refer to.
- `Result.plainCallGraph`: the call graph without contexts.
-/

namespace PointerAnalysis

/-! ## Index -/

/-- What a run found, without contexts. -/
structure Index where
  /-- The reachable methods in the order of discovery, each once. -/
  reachable : List MethodId := []
  /-- The callees of a call site, one for each edge. -/
  callees : Multimap StmtId MethodId := {}
  /-- The pointers for a field of an object. -/
  fieldSlots : Multimap (ObjId × FieldId) PointerId := {}
  /-- The pointers for the elements of an array. -/
  arraySlots : Multimap ObjId PointerId := {}
deriving DecidableEq, Repr

namespace Index

/-- Adds a reachable method. -/
def addReachable (world : Universe) (index : Index) (m : QMethodId) : Outcome Index := do
  let method := (← world.methodAt m).entity
  if method ∈ index.reachable then
    return index
  else
    return { index with reachable := index.reachable ++ [method] }

/-- Adds a call. -/
def addCall (world : Universe) (index : Index) (e : CallEdge QSiteId QMethodId) :
    Outcome Index := do
  let site := (← world.siteAt e.site).entity
  let callee := (← world.methodAt e.callee).entity
  return { index with callees := index.callees.add site callee }

/-- Adds a pointer, if it belongs to an object. -/
def addPointer (world : Universe) (index : Index) (h : PointerId) : Pointer → Outcome Index
  | .instanceField base f => do
    let o := (← world.objAt base).entity
    return { index with fieldSlots := index.fieldSlots.add (o, f) h }
  | .arrayElems base => do
    let o := (← world.objAt base).entity
    return { index with arraySlots := index.arraySlots.add o h }
  | .var _ _ | .staticField _ => pure index

/-- The index of a run. -/
def ofOutput (out : Solver.Output) : Outcome Index := do
  let index ← out.calls.reachable.foldlM (addReachable out.world) {}
  let index ← out.calls.edges.foldlM (addCall out.world) index
  out.world.pointers.entries.foldlM (fun index (h, key) => addPointer out.world index h key) index

end Index

/-! ## Results -/

/-- The size of a run in numbers. -/
structure Stats where
  /-- The short name of the sensitivity. -/
  sensitivity : String
  reachableMethods : Nat
  qualifiedMethods : Nat
  pointers : Nat
  objects : Nat
  qualifiedObjects : Nat
  contexts : Nat
  flowEdges : Nat
  callEdges : Nat
  processed : Nat
  durationMs : Float
  completed : Bool

/-- A finished run with its index. -/
structure Result where
  output : Solver.Output
  index : Index
  sensitivity : String
deriving DecidableEq, Repr

namespace Result

/-- The result of a run under a sensitivity of the given short name. -/
def ofOutput (sensitivity : String) (output : Solver.Output) : Outcome Result := do
  return { output, index := ← Index.ofOutput output, sensitivity }

/-- The numbers of a result.  The time a run took is not measured. -/
def stats (r : Result) : Stats where
  sensitivity := r.sensitivity
  reachableMethods := r.index.reachable.length
  qualifiedMethods := r.output.calls.reachable.length
  pointers := r.output.world.pointers.size
  objects := r.output.heap.objects.size
  qualifiedObjects := r.output.world.objs.size
  contexts := r.output.world.contexts.size
  flowEdges := r.output.flow.size
  callEdges := r.output.calls.edges.length
  processed := r.output.processed
  durationMs := 0
  completed := r.output.completed

/-- Whether the run came to its end. -/
def isComplete (r : Result) : Bool := r.output.completed

/-! ## Points-to sets -/

/-- The objects in a set of objects under heap contexts. -/
def project (r : Result) (objs : PointsTo) : Outcome (List ObjId) :=
  objs.toList.mapM fun h => Qualified.entity <$> r.output.world.objAt h

/-- The objects that any of the given pointers may refer to. -/
def projectAll (r : Result) (pointers : List PointerId) : Outcome (AscendingSet ObjId) := do
  let objs ← pointers.mapM fun h => do r.project (← r.output.world.setOf h)
  return .ofList objs.flatten

/-- The objects, with heap contexts, that a variable may refer to under a context. -/
def pointsToUnder (r : Result) (c : ContextId) (v : VarId) :
    Outcome (AscendingSet (Qualified ObjId)) := do
  match r.output.world.findPointer? (.var c v) with
  | none => return .empty
  | some h => return .ofList (← (← r.output.world.setOf h).toList.mapM r.output.world.objAt)

/-- The contexts under which a variable has been met. -/
def contextsOf (r : Result) (v : VarId) : Outcome (List ContextId) := do
  let keys ← (r.output.world.pointersOf v).mapM r.output.world.pointerAt
  return keys.filterMap fun key => key.var?.map Prod.fst

/-- The objects a variable may refer to under any context. -/
def pointsTo (r : Result) (v : VarId) : Outcome (AscendingSet ObjId) :=
  r.projectAll (r.output.world.pointersOf v)

/-- The objects a static field may refer to. -/
def staticFieldPointsTo (r : Result) (f : FieldId) : Outcome (AscendingSet ObjId) :=
  r.projectAll (r.output.world.findPointer? (.staticField f)).toList

/-- The objects a field of an object may refer to, whatever the heap context of the object. -/
def instanceFieldPointsTo (r : Result) (o : ObjId) (f : FieldId) : Outcome (AscendingSet ObjId) :=
  r.projectAll (r.index.fieldSlots.get (o, f))

/-- The objects the elements of an array may refer to, whatever the heap context of the array. -/
def arrayPointsTo (r : Result) (o : ObjId) : Outcome (AscendingSet ObjId) :=
  r.projectAll (r.index.arraySlots.get o)

/-- Whether two variables may refer to one object. -/
def mayAlias (r : Result) (v w : VarId) : Outcome Bool := do
  let objs ← r.pointsTo v
  if objs.isEmpty then
    return false
  else
    return objs.intersects (← r.pointsTo w)

/-! ## Calls -/

/-- The call graph without contexts. -/
def plainCallGraph (r : Result) : Outcome (CallGraph StmtId MethodId) := do
  let calls := r.output.calls
  let world := r.output.world
  let g ← calls.entries.foldlM
    (fun g m => do return g.addEntry (← world.methodAt m).entity) {}
  let g ← calls.reachable.foldlM
    (fun g m => do return (g.reach (← world.methodAt m).entity).2) g
  calls.edges.foldlM
    (fun g e => do
      let site := (← world.siteAt e.site).entity
      let callee := (← world.methodAt e.callee).entity
      return (g.addEdge ⟨e.kind, site, callee⟩).2)
    g

/-- Whether a method can run under some context. -/
def isReachable (r : Result) (m : MethodId) : Bool := m ∈ r.index.reachable

/-- The methods a call may run under any context. -/
def calleesOf (r : Result) (s : StmtId) : AscendingSet MethodId := .ofList (r.index.callees.get s)

/-! ## Objects and contexts -/

/-- The object a handle names. -/
def obj (r : Result) (o : ObjId) : Outcome Obj := r.output.heap.objAt o

/-- The object of an allocation statement, if that has been reached. -/
def objAt? (r : Result) (s : StmtId) : Option ObjId :=
  r.output.heap.objects.find? fun o => o.site = s

/-- The elements of a context. -/
def contextElems (r : Result) (c : ContextId) : Outcome (List ContextElem) :=
  r.output.world.contexts.elems c

/-- An object is shown as `Type@site`. -/
def objLabel (r : Result) (p : Program) (o : ObjId) : Outcome String := do
  let obj ← r.obj o
  return s!"{← p.typeName obj.type}@{obj.site}"

/-- The call graph without contexts as DOT text, with the signatures of the methods as labels. -/
def toDot (r : Result) (p : Program) : Outcome String := do
  let g ← MethodGraph.ofCallGraph (← r.plainCallGraph) p.ownerOf
  g.toDot p.methodSignature

end Result

end PointerAnalysis
