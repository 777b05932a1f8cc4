import PointerAnalysis.Proofs.Context.Policy
import PointerAnalysis.Proofs.Rules

/-!
# Coarser contexts

One sensitivity is coarser than another if its contexts can be had from those of the other by
forgetting: by keeping fewer elements, by keeping the class that allocated a receiver instead of the
receiver, or by keeping nothing.  What follows from the rules under the finer sensitivity then
follows under the coarser one, with contexts forgotten alike, and a statement that fails under the
finer one fails under the coarser one.

Contexts of methods and contexts of objects are forgotten in different ways, since objects keep one
element less.

## Main definitions

- `Coarsening`: a way to forget contexts that all choices of contexts respect.
- `Coarsening.toInsensitive`, `Coarsening.callSite`, `Coarsening.object`, `Coarsening.type`,
  `Coarsening.objectToType`: the ways in which the sensitivities can be compared.

## Main statements

- `Coarsening.closed_pull`: facts closed under the coarser rules are closed under the finer ones.
- `Coarsening.least`, `Coarsening.fails`: consequences and failures of the finer rules are those of
  the coarser ones.
-/

namespace PointerAnalysis

/-! ## Forgetting -/

/-- A way to forget contexts of the sensitivity `σ`.  To choose a context and then to forget is to
forget first and then to choose as `τ` does. -/
structure Coarsening (p : Program) (σ τ : Sensitivity) where
  /-- What is left of the context of a method. -/
  method : ContextName → ContextName
  /-- What is left of the context of an object. -/
  heap : ContextName → ContextName
  entry : method [] = []
  staticName : ∀ t s, method (σ.staticName t s) = τ.staticName (method t) s
  instanceName : ∀ t s o c, p.WrittenIn o.site c →
    method (σ.instanceName t s o c) =
      τ.instanceName (method t) s ⟨heap o.context, o.site⟩ c
  heapName : ∀ t, heap (σ.heapName t) = τ.heapName (method t)

namespace Coarsening

variable {p : Program} {σ τ : Sensitivity}

/-- An object with its context forgotten. -/
def obj (κ : Coarsening p σ τ) (o : ObjName) : ObjName := ⟨κ.heap o.context, o.site⟩

/-- A location with its context forgotten. -/
def pointer (κ : Coarsening p σ τ) : PointerName → PointerName
  | .var t v => .var (κ.method t) v
  | .staticField f => .staticField f
  | .instanceField o f => .instanceField (κ.obj o) f
  | .arrayElems o => .arrayElems (κ.obj o)

@[simp] theorem site_obj (κ : Coarsening p σ τ) (o : ObjName) : (κ.obj o).site = o.site := rfl

/-! ## Consequences -/

section Consequences

open Solver

variable (κ : Coarsening p σ τ) {G : Fact → Prop}

/-- The facts that are in `G` once contexts are forgotten.  Of a context by itself it is not known
how to forget it, and nothing follows from its being in use. -/
def pull (G : Fact → Prop) : Fact → Prop
  | .context _ => True
  | .object o => G (.object (κ.obj o))
  | .pointer x => G (.pointer (κ.pointer x))
  | .reaches t m => G (.reaches (κ.method t) m)
  | .calls kind t s t' m => G (.calls kind (κ.method t) s (κ.method t') m)
  | .flows x y => G (.flows (κ.pointer x) (κ.pointer y))
  | .refers x o => G (.refers (κ.pointer x) (κ.obj o))

/-- What a statement contributes is contributed under the coarser context as well. -/
theorem pull_of_visit (hG : Closed p τ G) {t : ContextName} {m : MethodId} {s : StmtId}
    {stmt : Stmt} {f : Fact} (hm : G (.reaches (κ.method t) m)) (hs : p.Executes m s stmt)
    (hf : VisitYields p σ t s stmt f) : κ.pull G f := by
  -- the same statement is carried out, so only the contexts of the new facts have to agree
  have hyields : ∀ {f'}, VisitYields p τ (κ.method t) s stmt f' → G f' := fun hf' =>
    hG _ (.visit hm hs hf')
  cases hf with
  | alloc =>
    show G (.refers (.var (κ.method t) _) ⟨κ.heap (σ.heapName t), s⟩)
    rw [κ.heapName]
    exact hyields .alloc
  | copy => exact hyields .copy
  | load hf => exact hyields (.load hf)
  | store hf => exact hyields (.store hf)
  | call hk ht hd hstatic =>
    show G (.calls _ (κ.method t) s (κ.method (σ.staticName t s)) _)
    rw [κ.staticName]
    exact hyields (.call hk ht hd hstatic)

/-- So is what it contributes for an object: the type of the object and the class that allocated it
are those of its site. -/
theorem pull_of_dereference (hG : Closed p τ G) {t : ContextName} {v : VarId} {o : ObjName}
    {s : StmtId} {stmt : Stmt} {f : Fact} (hv : G (.refers (.var (κ.method t) v) (κ.obj o)))
    (hs : p.stmtAt s = .ok stmt) (hb : stmt.base? = some v)
    (hf : DereferenceYields p σ t o s stmt f) : κ.pull G f := by
  have hyields : ∀ {f'}, DereferenceYields p τ (κ.method t) (κ.obj o) s stmt f' → G f' :=
    fun hf' => hG _ (.dereference hv hs hb hf')
  cases hf with
  | store hf => exact hyields (.store hf)
  | load hf => exact hyields (.load hf)
  | storeArray => exact hyields .storeArray
  | loadArray => exact hyields .loadArray
  | @self call type c m decl this ha hw ht hd hstatic hself =>
    show G (.refers (.var (κ.method (σ.instanceName t s o c)) this) (κ.obj o))
    rw [κ.instanceName _ _ _ _ hw]
    exact hyields (.self ha hw ht hd hstatic hself)
  | @call call type c m decl ha hw ht hd hstatic =>
    show G (.calls _ (κ.method t) s (κ.method (σ.instanceName t s o c)) m)
    rw [κ.instanceName _ _ _ _ hw]
    exact hyields (.call ha hw ht hd hstatic)

/-- Arguments and results flow alike. -/
theorem pull_of_link (hG : Closed p τ G) {kind : CallKind} {t t' : ContextName} {s : StmtId}
    {m : MethodId} {call : Invoke} {f : Fact}
    (hc : G (.calls kind (κ.method t) s (κ.method t') m)) (hs : p.stmtAt s = .ok (.invoke call))
    (hf : LinkYields p call t t' m f) : κ.pull G f := by
  have hyields : ∀ {f'}, LinkYields p call (κ.method t) (κ.method t') m f' → G f' := fun hf' =>
    hG _ (.link hc hs hf')
  cases hf with
  | callee => exact hyields .callee
  | arg hd hb hl hv => exact hyields (.arg hd hb hl hv)
  | result hd hb hl hr hv => exact hyields (.result hd hb hl hr hv)
  | resultPointer hd hb hl hr => exact hyields (.resultPointer hd hb hl hr)

/-- Facts closed under the coarser rules are closed under the finer ones. -/
theorem closed_pull (hG : Closed p τ G) : Closed p σ (κ.pull G) := by
  intro f hf
  cases hf with
  | entry =>
    show G (.reaches (κ.method []) p.entry)
    rw [κ.entry]
    exact hG _ .entry
  | visit hm hs hf => exact κ.pull_of_visit hG hm hs hf
  | dereference hv hs hb hf => exact κ.pull_of_dereference hG hv hs hb hf
  | link hc hs hf => exact κ.pull_of_link hG hc hs hf
  | propagate hxy ho => exact hG _ (.propagate hxy ho)
  | source hxy => exact hG _ (.source hxy)
  | target hxy => exact hG _ (.target hxy)
  | holder ho => exact hG _ (.holder ho)
  | referent ho => exact hG _ (.referent ho)
  -- which contexts are in use is not compared
  | heapContext => trivial
  | methodContext => trivial

/-- What follows from the finer rules follows from the coarser ones. -/
theorem least {f : Fact} (hf : Least p σ f) : κ.pull (Least p τ) f :=
  hf.le (κ.closed_pull least_closed)

/-- A statement that fails does so under the coarser contexts. -/
theorem fails_of_pull {e : AnalysisError} (he : Fails p (κ.pull G) e) : Fails p G e := by
  cases he with
  | visit hm hs he => exact .visit hm hs he
  | dereference hv hs hb he =>
    refine .dereference hv hs hb ?_
    cases he with
    | store he => exact .store he
    | load he => exact .load he
    | call ha ht hd hstatic he => exact .call ha ht hd hstatic he
  | link hc hs he => exact .link hc hs he

include κ in
theorem fails {e : AnalysisError} (he : Fails p (Least p σ) e) : Fails p (Least p τ) e :=
  κ.fails_of_pull (he.mono fun _ hf => κ.least hf)

end Consequences

/-! ## Ways to forget -/

/-- To forget everything. -/
def toInsensitive (p : Program) (σ : Sensitivity) : Coarsening p σ .insensitive where
  method _ := []
  heap _ := []
  entry := rfl
  staticName _ _ := rfl
  instanceName _ _ _ _ _ := rfl
  heapName _ := rfl

section Depth

variable {k n : Nat}

/-- To keep `k` call sites of `n`. -/
def callSite (p : Program) (h : k ≤ n) : Coarsening p (.callSite n) (.callSite k) where
  method := lastElems k
  heap := lastElems (k - 1)
  entry := List.drop_nil
  staticName _ _ := lastElems_append h (Nat.le_succ k) _ _
  instanceName _ _ _ _ _ := lastElems_append h (Nat.le_succ k) _ _
  heapName _ := lastElems_pred h _

-- receivers keep one element less than methods, and are followed by one

/-- To keep `k` receivers of `n`. -/
def object (p : Program) (h : k ≤ n) : Coarsening p (.object n) (.object k) where
  method := lastElems k
  heap := lastElems (k - 1)
  entry := List.drop_nil
  staticName _ _ := rfl
  instanceName _ _ _ _ _ := lastElems_append h (by omega) _ _
  heapName _ := lastElems_pred h _

/-- To keep `k` allocating classes of `n`. -/
def type (p : Program) (h : k ≤ n) : Coarsening p (.type n) (.type k) where
  method := lastElems k
  heap := lastElems (k - 1)
  entry := List.drop_nil
  staticName _ _ := rfl
  instanceName _ _ _ _ _ := lastElems_append h (by omega) _ _
  heapName _ := lastElems_pred h _

end Depth

/-! ### Objects and their classes -/

/-- The class whose code contains a statement.  Statements that do not exist are in the first class,
which is of no consequence. -/
def allocator (p : Program) (s : StmtId) : ClassId :=
  match (do return (← p.methodAt (← p.siteAt s).method).owner : Outcome ClassId) with
  | .ok c => c
  | .error _ => ⟨0⟩

theorem allocator_of_writtenIn {s : StmtId} {c : ClassId} (h : p.WrittenIn s c) :
    allocator p s = c := by
  obtain ⟨site, decl, hs, hd, rfl⟩ := h
  simp only [allocator, hs, hd, bind, Except.bind, pure, Except.pure]

/-- An element with an object replaced by the class that allocated it. -/
def elemClass (p : Program) : ElemName → ElemName
  | .object s => .cls (allocator p s)
  | .site s => .site s
  | .cls c => .cls c

/-- To keep the class that allocated a receiver instead of the receiver. -/
def objectToType (p : Program) (k : Nat) : Coarsening p (.object k) (.type k) where
  method := List.map (elemClass p)
  heap := List.map (elemClass p)
  entry := rfl
  staticName _ _ := rfl
  instanceName t s o c hw := by
    show (lastElems k _).map (elemClass p) = lastElems k (o.context.map (elemClass p) ++ [.cls c])
    rw [map_lastElems, List.map_append, List.map_singleton, elemClass, allocator_of_writtenIn hw]
  heapName t := map_lastElems _ _ _

end Coarsening

end PointerAnalysis
