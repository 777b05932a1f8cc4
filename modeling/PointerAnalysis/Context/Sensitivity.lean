import PointerAnalysis.Context.Pool

/-!
# Context sensitivity

A sensitivity decides which context a called method and an allocated object get.  Apart from the
insensitive one, which knows the empty context only, each keeps the last `k` elements of some kind:
call sites, receiver objects, or the classes whose code allocated the receivers.  Objects carry the
last `k - 1` elements of the context of the method that allocates them.
-/

namespace PointerAnalysis

/-- A context abstraction. -/
inductive Sensitivity where
  /-- One context for everything. -/
  | insensitive
  /-- The last `k` call sites. -/
  | callSite (k : Nat)
  /-- The last `k` receivers. -/
  | object (k : Nat)
  /-- The classes that allocated the last `k` receivers. -/
  | type (k : Nat)
deriving DecidableEq, Repr

namespace Sensitivity

instance : Inhabited Sensitivity := ⟨insensitive⟩

/-- The greatest length of a context. -/
def depth : Sensitivity → Nat
  | insensitive => 0
  | callSite k | object k | type k => k

/-- The short name of a sensitivity. -/
def label : Sensitivity → String
  | insensitive => "ci"
  | callSite k => s!"{k}-call"
  | object k => s!"{k}-obj"
  | type k => s!"{k}-type"

/-- The context of a method that is called without a receiver.

Only call sites are seen there; receiver contexts are handed on from the caller. -/
def staticContext (σ : Sensitivity) (pool : ContextPool) (site : Qualified StmtId) :
    Outcome (ContextId × ContextPool) :=
  match σ with
  | insensitive => pure (.empty, pool)
  | callSite k => pool.append site.context (.site site.entity) k
  | object _ | type _ => pure (site.context, pool)

/-- The context of a method that is called on `receiver`, which code of the class `allocator`
allocated. -/
def instanceContext (σ : Sensitivity) (pool : ContextPool) (site : Qualified StmtId)
    (receiver : Qualified ObjId) (allocator : ClassId) : Outcome (ContextId × ContextPool) :=
  match σ with
  | insensitive => pure (.empty, pool)
  | callSite k => pool.append site.context (.site site.entity) k
  | object k => pool.append receiver.context (.object receiver.entity) k
  | type k => pool.append receiver.context (.cls allocator) k

/-- The context of an object that a method under the context `c` allocates. -/
def heapContext (σ : Sensitivity) (pool : ContextPool) (c : ContextId) :
    Outcome (ContextId × ContextPool) :=
  match σ with
  | insensitive => pure (.empty, pool)
  | callSite k | object k | type k => pool.truncate c (k - 1)

end Sensitivity

end PointerAnalysis
