import PointerAnalysis.Proofs.AscendingSet
import PointerAnalysis.Proofs.Rules
import PointerAnalysis.Solver.Run

/-!
# What a state knows

A state of a run stands for a set of facts.  Objects on their way to a pointer count as if they had
arrived: a delivery is a fact whose consequences have not been drawn yet.

## Main definitions

- `Knows`: the facts that tables, graphs and deliveries stand for.
- `Remembers`: a later state knows all that an earlier one knows, by the same handles.
- `Grows`: a later state continues an earlier one, and no set has changed.
- `MethodSettled`, `ReferentSettled`, `LinkSettled`: the consequences of a reachable method, of an
  object that a variable refers to and of a call are all among the facts.

## Main statements

- `Grows.knows`: nothing that is known is lost.
- `closed_of_settled`: facts with all their consequences settled are closed, and nothing fails.
-/

namespace PointerAnalysis

/-- An object is in the set of a pointer. -/
def Universe.Holds (u : Universe) (h : PointerId) (q : QObjId) : Prop :=
  ∃ set, u.sets.get? h = some set ∧ q ∈ set

/-- An object is on its way to a pointer. -/
def Awaits (pending : List Delivery) (h : PointerId) (q : QObjId) : Prop :=
  ∃ d ∈ pending, d.target = h ∧ q ∈ d.objs

namespace Solver

/-! ## Facts -/

/-- The facts that the parts of a state stand for. -/
def Knows (u : Universe) (heap : Heap) (flow : FlowGraph) (calls : CallGraph QSiteId QMethodId)
    (pending : List Delivery) : Fact → Prop
  | .context t => ∃ c, u.contextName? heap c = some t
  | .object o => ∃ h, u.objName? heap h = some o
  | .pointer x => ∃ h, u.pointerName? heap h = some x
  | .reaches t m => ∃ h ∈ calls.reachable, u.methodName? heap h = some (t, m)
  | .calls kind t s t' m =>
    ∃ e ∈ calls.edges, e.kind = kind ∧ u.siteName? heap e.site = some (t, s) ∧
      u.methodName? heap e.callee = some (t', m)
  | .flows x y =>
    ∃ a b, flow.hasEdge a b = true ∧ u.pointerName? heap a = some x ∧
      u.pointerName? heap b = some y
  | .refers x o =>
    ∃ h q, u.pointerName? heap h = some x ∧ u.objName? heap q = some o ∧
      (u.Holds h q ∨ Awaits pending h q)

/-- The facts a state stands for. -/
def State.Knows (s : State) : Fact → Prop :=
  Solver.Knows s.world s.heap s.flow s.calls s.workList.toList

/-- The facts a run has found out. -/
def Output.facts (out : Output) : Fact → Prop :=
  Knows out.world out.heap out.flow out.calls []

/-- If tables, graphs and deliveries keep what they have, then nothing that is known is lost. -/
theorem Knows.mono {u u' : Universe} {heap heap' : Heap} {flow flow' : FlowGraph}
    {calls calls' : CallGraph QSiteId QMethodId} {pending pending' : List Delivery}
    (hu : u.Extends u') (hh : heap.objects.Extends heap'.objects)
    (hflow : ∀ a b, flow.hasEdge a b = true → flow'.hasEdge a b = true)
    (hreach : ∀ m ∈ calls.reachable, m ∈ calls'.reachable)
    (hedges : ∀ e ∈ calls.edges, e ∈ calls'.edges)
    (hrefers : ∀ h q, u.Holds h q ∨ Awaits pending h q → u'.Holds h q ∨ Awaits pending' h q)
    {f : Fact} (hf : Knows u heap flow calls pending f) : Knows u' heap' flow' calls' pending' f := by
  -- a fact is known by handles, which stay, and by their names, which stay too
  cases f with
  | context t => exact hf.imp fun _ h => Universe.contextName?_mono hu hh h
  | object o => exact hf.imp fun _ h => Universe.objName?_mono hu hh h
  | pointer x => exact hf.imp fun _ h => Universe.pointerName?_mono hu hh h
  | reaches t m =>
    obtain ⟨h, hm, hn⟩ := hf
    exact ⟨h, hreach h hm, Universe.methodName?_mono hu hh hn⟩
  | calls kind t s t' m =>
    obtain ⟨e, he, hk, hs, hm⟩ := hf
    exact ⟨e, hedges e he, hk, Universe.siteName?_mono hu hh hs,
      Universe.methodName?_mono hu hh hm⟩
  | flows x y =>
    obtain ⟨a, b, hab, ha, hb⟩ := hf
    exact ⟨a, b, hflow a b hab, Universe.pointerName?_mono hu hh ha,
      Universe.pointerName?_mono hu hh hb⟩
  | refers x o =>
    obtain ⟨h, q, hx, ho, hq⟩ := hf
    exact ⟨h, q, Universe.pointerName?_mono hu hh hx, Universe.objName?_mono hu hh ho,
      hrefers h q hq⟩

/-! ## Growth -/

/-- The later state `s'` knows all that `s` knows, and handles keep their names. -/
structure Remembers (s s' : State) : Prop where
  world : s.world.Extends s'.world
  heap : s.heap.objects.Extends s'.heap.objects
  reachable : s.calls.reachable <+: s'.calls.reachable
  knows : ∀ f, s.Knows f → s'.Knows f

/-- What is remembered for two stretches of a run is remembered for both together. -/
theorem Remembers.trans {s s' s'' : State} (h : Remembers s s') (h' : Remembers s' s'') :
    Remembers s s'' where
  world := h.world.trans h'.world
  heap := h.heap.trans h'.heap
  reachable := h.reachable.trans h'.reachable
  knows f hf := h'.knows f (h.knows f hf)

/-- The later state `s'` continues `s`.  Sets stay as they are, except that new pointers have empty
ones. -/
structure Grows (s s' : State) : Prop where
  world : s.world.Extends s'.world
  heap : s.heap.objects.Extends s'.heap.objects
  sets : ∀ h set, s.world.sets.get? h = some set → s'.world.sets.get? h = some set
  newSets : ∀ h set, s'.world.sets.get? h = some set →
    s.world.sets.get? h = some set ∨ set = .empty
  flow : ∀ a b, s.flow.hasEdge a b = true → s'.flow.hasEdge a b = true
  reachable : s.calls.reachable <+: s'.calls.reachable
  edges : ∀ e ∈ s.calls.edges, e ∈ s'.calls.edges
  pending : ∀ d ∈ s.workList.toList, d ∈ s'.workList.toList
  visited : s'.visited = s.visited

namespace Grows

variable {s s' s'' : State}

theorem refl (s : State) : Grows s s where
  world := .refl _
  heap := .refl _
  sets _ _ h := h
  newSets _ _ h := Or.inl h
  flow _ _ h := h
  reachable := List.prefix_refl _
  edges _ h := h
  pending _ h := h
  visited := rfl

theorem trans (h : Grows s s') (h' : Grows s' s'') : Grows s s'' where
  world := h.world.trans h'.world
  heap := h.heap.trans h'.heap
  sets p set e := h'.sets p set (h.sets p set e)
  newSets p set e := (h'.newSets p set e).elim (h.newSets p set) Or.inr
  flow a b e := h'.flow a b (h.flow a b e)
  reachable := h.reachable.trans h'.reachable
  edges e he := h'.edges e (h.edges e he)
  pending d hd := h'.pending d (h.pending d hd)
  visited := h'.visited.trans h.visited

/-- An object that is on its way stays on its way as long as nothing is taken off the work list. -/
theorem awaits (hg : Grows s s') {h : PointerId} {q : QObjId}
    (hq : Awaits s.workList.toList h q) : Awaits s'.workList.toList h q := by
  obtain ⟨d, hd, ht⟩ := hq
  exact ⟨d, hg.pending d hd, ht⟩

theorem holds (hg : Grows s s') {h : PointerId} {q : QObjId} (hq : s.world.Holds h q) :
    s'.world.Holds h q := by
  obtain ⟨set, hset, hq⟩ := hq
  exact ⟨set, hg.sets h set hset, hq⟩

/-- No object arrives anywhere while a state grows in this way; new pointers hold nothing yet. -/
theorem holds_of (hg : Grows s s') {h : PointerId} {q : QObjId} (hq : s'.world.Holds h q) :
    s.world.Holds h q := by
  obtain ⟨set, hset, hq⟩ := hq
  rcases hg.newSets h set hset with hset | rfl
  · exact ⟨set, hset, hq⟩
  · exact absurd hq (AscendingSet.not_mem_empty q)

/-- Nothing that is known is lost. -/
theorem knows (hg : Grows s s') {f : Fact} (hf : s.Knows f) : s'.Knows f :=
  Knows.mono hg.world hg.heap hg.flow (fun _ h => hg.reachable.subset h) hg.edges
    (fun _ _ h => h.imp hg.holds hg.awaits) hf

/-- A state that grows without arrivals knows what it knew. -/
theorem remembers (hg : Grows s s') : Remembers s s' :=
  ⟨hg.world, hg.heap, hg.reachable, fun _ => hg.knows⟩

end Grows

/-! ## Settled facts -/

section Settled

variable (p : Program) (σ : Sensitivity) (K : Fact → Prop)

/-- A statement of a reachable method has contributed, and does not fail. -/
def VisitSettled (t : ContextName) (s : StmtId) (stmt : Stmt) : Prop :=
  (∀ f, VisitYields p σ t s stmt f → K f) ∧ ∀ e, ¬ VisitFails p s stmt e

/-- All statements of a reachable method are settled. -/
def MethodSettled (t : ContextName) (m : MethodId) : Prop :=
  ∀ s stmt, p.Executes m s stmt → VisitSettled p σ K t s stmt

/-- A statement that follows a variable has contributed for an object, and does not fail. -/
def DereferenceSettled (t : ContextName) (o : ObjName) (s : StmtId) (stmt : Stmt) : Prop :=
  (∀ f, DereferenceYields p σ t o s stmt f → K f) ∧ ∀ e, ¬ DereferenceFails p o s stmt e

/-- All statements that follow a variable are settled for an object. -/
def ReferentSettled (t : ContextName) (v : VarId) (o : ObjName) : Prop :=
  ∀ s stmt, p.stmtAt s = .ok stmt → stmt.base? = some v → DereferenceSettled p σ K t o s stmt

/-- The edge from a call to a method has contributed, and the arguments fit. -/
def LinkSettled (call : Invoke) (t t' : ContextName) (m : MethodId) : Prop :=
  (∀ f, LinkYields p call t t' m f → K f) ∧ ∀ e, ¬ LinkFails p call m e

end Settled

section Settled

variable {p : Program} {σ : Sensitivity} {K K' : Fact → Prop} (hK : ∀ f, K f → K' f)
include hK

/-- What is settled stays settled when more becomes known. -/
theorem VisitSettled.mono {t : ContextName} {s : StmtId} {stmt : Stmt}
    (h : VisitSettled p σ K t s stmt) : VisitSettled p σ K' t s stmt :=
  ⟨fun f hf => hK f (h.1 f hf), h.2⟩

theorem MethodSettled.mono {t : ContextName} {m : MethodId} (h : MethodSettled p σ K t m) :
    MethodSettled p σ K' t m :=
  fun s stmt hs => (h s stmt hs).mono hK

theorem DereferenceSettled.mono {t : ContextName} {o : ObjName} {s : StmtId} {stmt : Stmt}
    (h : DereferenceSettled p σ K t o s stmt) : DereferenceSettled p σ K' t o s stmt :=
  ⟨fun f hf => hK f (h.1 f hf), h.2⟩

theorem ReferentSettled.mono {t : ContextName} {v : VarId} {o : ObjName}
    (h : ReferentSettled p σ K t v o) : ReferentSettled p σ K' t v o :=
  fun s stmt hs hb => (h s stmt hs hb).mono hK

theorem LinkSettled.mono {call : Invoke} {t t' : ContextName} {m : MethodId}
    (h : LinkSettled p K call t t' m) : LinkSettled p K' call t t' m :=
  ⟨fun f hf => hK f (h.1 f hf), h.2⟩

end Settled

/-- Facts of which all consequences are settled are closed, and none of them makes a statement
fail. -/
theorem closed_of_settled {p : Program} {σ : Sensitivity} {K : Fact → Prop}
    (entry : K (.reaches [] p.entry))
    (visit : ∀ t m, K (.reaches t m) → MethodSettled p σ K t m)
    (dereference : ∀ t v o, K (.refers (.var t v) o) → ReferentSettled p σ K t v o)
    (link : ∀ kind t s t' m call, K (.calls kind t s t' m) → p.stmtAt s = .ok (.invoke call) →
      LinkSettled p K call t t' m)
    (propagate : ∀ x y o, K (.flows x y) → K (.refers x o) → K (.refers y o))
    (flows : ∀ x y, K (.flows x y) → K (.pointer x) ∧ K (.pointer y))
    (refers : ∀ x o, K (.refers x o) → K (.pointer x) ∧ K (.object o))
    (object : ∀ o, K (.object o) → K (.context o.context))
    (reaches : ∀ t m, K (.reaches t m) → K (.context t)) :
    Closed p σ K ∧ ∀ e, ¬ Fails p K e := by
  constructor
  -- closed: one case for each rule
  · intro f hf
    cases hf with
    | entry => exact entry
    | visit hm hs hf => exact (visit _ _ hm _ _ hs).1 _ hf
    | dereference hv hs hb hf => exact (dereference _ _ _ hv _ _ hs hb).1 _ hf
    | link hc hs hf => exact (link _ _ _ _ _ _ hc hs).1 _ hf
    | propagate hxy ho => exact propagate _ _ _ hxy ho
    | source hxy => exact (flows _ _ hxy).1
    | target hxy => exact (flows _ _ hxy).2
    | holder ho => exact (refers _ _ ho).1
    | referent ho => exact (refers _ _ ho).2
    | heapContext ho => exact object _ ho
    | methodContext hm => exact reaches _ _ hm
  -- nothing fails: what is settled has no failing statement
  · intro e he
    cases he with
    | visit hm hs he => exact (visit _ _ hm _ _ hs).2 e he
    | dereference hv hs hb he => exact (dereference _ _ _ hv _ _ hs hb).2 e he
    | link hc hs he => exact (link _ _ _ _ _ _ hc hs).2 e he

end Solver

end PointerAnalysis
