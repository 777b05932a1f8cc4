import PointerAnalysis.Table
import PointerAnalysis.Failure
import PointerAnalysis.Text.Digits

/-!
# Contexts

A context is a sequence of elements, oldest first, that tells apart the situations in which one
method runs.  The contexts of an analysis are interned in a pool, so that equal sequences have
equal handles.  The empty context is always in the pool, under the handle zero.
-/

namespace PointerAnalysis

/-! ## Elements -/

/-- One element of a context. -/
inductive ContextElem where
  /-- A call site. -/
  | site (s : StmtId)
  /-- The receiver of a call. -/
  | object (o : ObjId)
  /-- The class whose code allocated the receiver of a call. -/
  | cls (c : ClassId)
deriving DecidableEq, Repr

/-- An element is shown as the handle in it. -/
def ContextElem.text : ContextElem → String
  | site s => s.text
  | object o => o.text
  | cls c => c.text

/-- The element that a text shows. -/
def ContextElem.ofText? (s : String) : Option ContextElem :=
  match s.toList with
  | 's' :: digits => (fun n => site ⟨n⟩) <$> Text.ofDigits? 10 digits
  | 'o' :: digits => (fun n => object ⟨n⟩) <$> Text.ofDigits? 10 digits
  | 'c' :: digits => (fun n => cls ⟨n⟩) <$> Text.ofDigits? 10 digits
  | _ => none

/-- The last `limit` elements of a sequence. -/
def lastElems {α : Type} (limit : Nat) (elems : List α) : List α :=
  elems.drop (elems.length - limit)

/-! ## The pool -/

/-- Interned contexts. -/
structure ContextPool where
  table : Table .context (List ContextElem) := ⟨#[[]]⟩
deriving DecidableEq, Repr

namespace ContextPool

/-- The number of contexts. -/
def size (pool : ContextPool) : Nat := pool.table.size

/-- The elements of a context. -/
def elems (pool : ContextPool) (c : ContextId) : Outcome (List ContextElem) :=
  .ofRow (pool.table.get? c)

/-- The number of elements of a context. -/
def depth (pool : ContextPool) (c : ContextId) : Outcome Nat := List.length <$> pool.elems c

/-- A context is shown as the list of its elements. -/
def render (pool : ContextPool) (c : ContextId) : Outcome String := do
  return "[" ++ ", ".intercalate ((← pool.elems c).map ContextElem.text) ++ "]"

/-- The handle of a sequence. -/
def intern (pool : ContextPool) (elems : List ContextElem) : ContextId × ContextPool :=
  let (c, table) := pool.table.intern elems
  (c, ⟨table⟩)

/-- A context with an element added, cut down to its last `limit` elements. -/
def append (pool : ContextPool) (c : ContextId) (e : ContextElem) (limit : Nat) :
    Outcome (ContextId × ContextPool) :=
  if limit = 0 then pure (.empty, pool)
  else do return pool.intern (lastElems limit ((← pool.elems c) ++ [e]))

/-- A context cut down to its last `limit` elements. -/
def truncate (pool : ContextPool) (c : ContextId) (limit : Nat) :
    Outcome (ContextId × ContextPool) := do
  let elems ← pool.elems c
  if elems.length ≤ limit then
    return (c, pool)
  else
    return pool.intern (lastElems limit elems)

end ContextPool

/-! ## Things under contexts -/

/-- An entity under a context.  The same entity under two contexts is two different things. -/
structure Qualified (α : Type) where
  context : ContextId
  entity : α
deriving DecidableEq, Repr

namespace Qualified

variable {α : Type} [LT α]

/-- Qualified entities are ordered by context, then by entity. -/
instance : LT (Qualified α) :=
  ⟨fun a b => a.context < b.context ∨ a.context = b.context ∧ a.entity < b.entity⟩

instance [DecidableLT α] : DecidableLT (Qualified α) := fun a b =>
  inferInstanceAs
    (Decidable (a.context < b.context ∨ a.context = b.context ∧ a.entity < b.entity))

end Qualified

end PointerAnalysis
