import PointerAnalysis.Program.Basic

/-!
# Abstract objects

All objects that one statement allocates are a single abstract object.  A heap holds the objects of
the allocation statements met so far.
-/

namespace PointerAnalysis

/-- All objects that one statement allocates. -/
structure Obj where
  id : ObjId
  /-- The allocation statement. -/
  site : StmtId
  /-- The type of the objects, on which calls are dispatched. -/
  type : RefType
  /-- The method the statement belongs to. -/
  container : MethodId
  /-- The class that declares that method. -/
  containerClass : ClassId
deriving DecidableEq, Repr

/-- The abstract objects met so far. -/
structure Heap where
  objects : Table .obj Obj := {}
deriving DecidableEq, Repr

namespace Heap

/-- The object a handle names. -/
def objAt (heap : Heap) (o : ObjId) : Outcome Obj := .ofRow (heap.objects.get? o)

/-- The object of an allocation statement, which is made when the statement is first met. -/
def objFor (heap : Heap) (p : Program) (s : StmtId) : Outcome (ObjId × Heap) :=
  match heap.objects.find? fun o => o.site = s with
  | some o => pure (o, heap)
  | none => do
    let site ← p.siteAt s
    match site.stmt with
    | .alloc _ type =>
      let id := heap.objects.next
      let containerClass := (← p.methodAt site.method).owner
      let obj := { id, site := s, type, container := site.method, containerClass }
      return (id, ⟨heap.objects.push obj⟩)
    | _ => .defect (.notAllocation s)

end Heap

end PointerAnalysis
