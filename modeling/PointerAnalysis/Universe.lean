import PointerAnalysis.AscendingSet
import PointerAnalysis.Multimap
import PointerAnalysis.Context.Pool

/-!
# The universe of an analysis

The universe of an analysis run consists of everything that has been met under some context:
objects, call sites, methods and pointers.  Each thing is interned once, so that graphs and sets
hold handles only.  Every pointer has a set of objects it may refer to, which begins empty.
-/

namespace PointerAnalysis

/-! ## Pointers -/

/-- A location that can hold references. -/
inductive Pointer where
  /-- A variable, under the context of its method. -/
  | var (context : ContextId) (v : VarId)
  /-- A static field; these have no context. -/
  | staticField (f : FieldId)
  /-- A field of an object under a heap context. -/
  | instanceField (base : QObjId) (f : FieldId)
  /-- The elements of an array, all indices together. -/
  | arrayElems (base : QObjId)
deriving DecidableEq, Repr

/-- The context and the variable of a variable pointer. -/
def Pointer.var? : Pointer → Option (ContextId × VarId)
  | var context v => some (context, v)
  | _ => none

/-- A set of objects under heap contexts. -/
abbrev PointsTo := AscendingSet QObjId

/-! ## The universe -/

/-- Everything met under some context, and the sets of the pointers. -/
structure Universe where
  contexts : ContextPool := {}
  objs : Table .qualifiedObj (Qualified ObjId) := {}
  sites : Table .qualifiedSite (Qualified StmtId) := {}
  methods : Table .qualifiedMethod (Qualified MethodId) := {}
  pointers : Table .pointer Pointer := {}
  /-- The objects each pointer may refer to. -/
  sets : Table .pointer PointsTo := {}
  /-- The pointers of each variable, ascending. -/
  ofVar : Multimap VarId PointerId := {}
deriving DecidableEq, Repr

namespace Universe

/-! ## Interning -/

/-- The handle of an object under a heap context. -/
def obj (u : Universe) (q : Qualified ObjId) : QObjId × Universe :=
  let (h, objs) := u.objs.intern q
  (h, { u with objs })

/-- The handle of a call site under a context. -/
def site (u : Universe) (q : Qualified StmtId) : QSiteId × Universe :=
  let (h, sites) := u.sites.intern q
  (h, { u with sites })

/-- The handle of a method under a context. -/
def method (u : Universe) (q : Qualified MethodId) : QMethodId × Universe :=
  let (h, methods) := u.methods.intern q
  (h, { u with methods })

/-- The handle of a pointer that has already been met. -/
def findPointer? (u : Universe) (key : Pointer) : Option PointerId :=
  u.pointers.find? fun k => k = key

/-- The handle of a pointer.  A new pointer refers to nothing. -/
def pointer (u : Universe) (key : Pointer) : PointerId × Universe :=
  match u.findPointer? key with
  | some h => (h, u)
  | none =>
    let h := u.pointers.next
    (h,
      { u with
        pointers := u.pointers.push key
        sets := u.sets.push .empty
        ofVar := match key with
          | .var _ v => u.ofVar.add v h
          | _ => u.ofVar })

/-! ## Looking up -/

/-- The handle of an object under a heap context, if it has been met. -/
def findObj? (u : Universe) (q : Qualified ObjId) : Option QObjId := u.objs.find? fun k => k = q

/-- The handle of a method under a context, if it has been met. -/
def findMethod? (u : Universe) (q : Qualified MethodId) : Option QMethodId :=
  u.methods.find? fun k => k = q

/-- The object a handle names. -/
def objAt (u : Universe) (h : QObjId) : Outcome (Qualified ObjId) := .ofRow (u.objs.get? h)

/-- The call site a handle names. -/
def siteAt (u : Universe) (h : QSiteId) : Outcome (Qualified StmtId) := .ofRow (u.sites.get? h)

/-- The method a handle names. -/
def methodAt (u : Universe) (h : QMethodId) : Outcome (Qualified MethodId) :=
  .ofRow (u.methods.get? h)

/-- The pointer a handle names. -/
def pointerAt (u : Universe) (h : PointerId) : Outcome Pointer := .ofRow (u.pointers.get? h)

/-- The objects a pointer may refer to. -/
def setOf (u : Universe) (h : PointerId) : Outcome PointsTo := .ofRow (u.sets.get? h)

/-- The pointers of a variable under any context, ascending. -/
def pointersOf (u : Universe) (v : VarId) : List PointerId := u.ofVar.get v

/-! ## Growth of sets -/

/-- Adds objects to the set of a pointer; the answer holds those that are new there. -/
def absorb (u : Universe) (h : PointerId) (objs : PointsTo) : Outcome (PointsTo × Universe) := do
  let (union, fresh) := (← u.setOf h).absorb objs
  return (fresh, { u with sets := u.sets.modify h fun _ => union })

end Universe

end PointerAnalysis
