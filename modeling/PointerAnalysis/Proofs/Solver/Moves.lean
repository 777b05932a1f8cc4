import Mathlib.Logic.Relation
import PointerAnalysis.Proofs.Heap
import PointerAnalysis.Proofs.Solver.Arrival

/-!
# Moves of a run

All that a run does to its state is made of a few small changes, and each of them has its reason in
what the state contains already: a location is interned because something mentions it, a call is
recorded because a method that can run makes it, or because its receiver refers to an object.  A
property that every move keeps is a property of all runs.

A call comes in one move: its callee is interned, given its `this` and made reachable, all at once.

## Main definitions

- `Mentions`: why a variable is in use.
- `Move`: the smallest changes of a state, with their reasons.
- `Grown`: a later state continues an earlier one.

## Main statements

- `Move.grown`, `grown_of_moves`: tables, graphs and sets only grow.
-/

namespace PointerAnalysis

/-! ## Pools and heaps that grow -/

namespace ContextPool

variable {pool pool' : ContextPool} {c c' : ContextId} {k : Nat}

/-- Contexts keep their handles when a longer one is asked for. -/
theorem extends_append {e : ContextElem} (h : pool.append c e k = .ok (c', pool')) :
    pool.table.Extends pool'.table := by
  rcases append_cases h with rfl | ⟨es, rfl⟩
  · exact .refl _
  · exact Table.extends_intern _ _

/-- Contexts keep their handles when a shorter one is asked for. -/
theorem extends_truncate (h : pool.truncate c k = .ok (c', pool')) :
    pool.table.Extends pool'.table := by
  rcases truncate_cases h with rfl | ⟨es, rfl⟩
  · exact .refl _
  · exact Table.extends_intern _ _

theorem extends_pure (h : (pure (c, pool) : Outcome _) = .ok (c', pool')) :
    pool.table.Extends pool'.table := by
  obtain ⟨-, rfl⟩ := Prod.mk.inj (Outcome.pure_eq_ok.1 h)
  exact .refl _

end ContextPool

namespace Sensitivity

variable {σ : Sensitivity} {pool pool' : ContextPool} {c c' : ContextId}
  {site : Qualified StmtId}

/-- Whatever context a callee without a receiver gets, the contexts so far keep their handles. -/
theorem extends_staticContext (h : σ.staticContext pool site = .ok (c', pool')) :
    pool.table.Extends pool'.table := by
  cases σ with
  -- only the choice by call sites asks the pool for another context here
  | insensitive | object _ | type _ => exact ContextPool.extends_pure h
  | callSite k => exact ContextPool.extends_append h

/-- Whatever context a callee with a receiver gets, the contexts so far keep their handles. -/
theorem extends_instanceContext {q : Qualified ObjId} {a : ClassId}
    (h : σ.instanceContext pool site q a = .ok (c', pool')) :
    pool.table.Extends pool'.table := by
  cases σ with
  | insensitive => exact ContextPool.extends_pure h
  | callSite k | object k | type k => exact ContextPool.extends_append h

/-- Whatever context an object gets, the contexts so far keep their handles. -/
theorem extends_heapContext (h : σ.heapContext pool c = .ok (c', pool')) :
    pool.table.Extends pool'.table := by
  cases σ with
  | insensitive => exact ContextPool.extends_pure h
  | callSite k | object k | type k => exact ContextPool.extends_truncate h

end Sensitivity

namespace CallGraph

variable {σ μ : Type} [DecidableEq σ] [DecidableEq μ] {g : CallGraph σ μ} {e : CallEdge σ μ}

/-- A call graph with a call in it.  If the call is new, its callee can run. -/
def record (g : CallGraph σ μ) (e : CallEdge σ μ) : CallGraph σ μ :=
  if g.hasEdge e.site e.callee then g else ((g.addEdge e).2.reach e.callee).2

/-- A call that is recorded again changes nothing, not even what can run. -/
theorem record_of_hasEdge (h : g.hasEdge e.site e.callee = true) : g.record e = g := if_pos h

theorem record_of_new (h : g.hasEdge e.site e.callee = false) :
    g.record e = ((g.addEdge e).2.reach e.callee).2 := if_neg (by rw [h]; exact Bool.false_ne_true)

/-- A new call is recorded last. -/
theorem edges_record (h : g.hasEdge e.site e.callee = false) :
    (g.record e).edges = g.edges ++ [e] := by
  rw [record_of_new h, edges_reach, edges_addEdge h]

/-- Recorded calls do not make entries. -/
theorem entries_record : (g.record e).entries = g.entries := by
  cases h : g.hasEdge e.site e.callee with
  | true => rw [record_of_hasEdge h]
  | false =>
    rw [record_of_new h]
    simp only [addEdge, h, reach, Bool.false_eq_true, if_false]
    split
    · rfl
    · rfl

/-- The indexes are kept in step by a recorded call, new or not. -/
theorem Indexed.record (hg : g.Indexed) : (g.record e).Indexed := by
  cases h : g.hasEdge e.site e.callee with
  | true =>
    rw [record_of_hasEdge h]
    exact hg
  | false =>
    rw [record_of_new h]
    exact (hg.addEdge h).reach _

/-- Calls are recorded after those recorded before. -/
theorem edges_prefix_record : g.edges <+: (g.record e).edges := by
  cases h : g.hasEdge e.site e.callee with
  | true =>
    rw [record_of_hasEdge h]
  | false =>
    rw [edges_record h]
    exact List.prefix_append _ _

/-- Nothing but the call itself is recorded. -/
theorem mem_edges_record {e' : CallEdge σ μ} (h : e' ∈ (g.record e).edges) :
    e' ∈ g.edges ∨ e' = e := by
  cases hedge : g.hasEdge e.site e.callee with
  | true =>
    rw [record_of_hasEdge hedge] at h
    exact Or.inl h
  | false =>
    rw [edges_record hedge, List.mem_append, List.mem_singleton] at h
    exact h

/-- After a call is recorded there is an edge between its ends. -/
theorem exists_mem_edges_record (hg : g.Indexed) :
    ∃ e' ∈ (g.record e).edges, e'.site = e.site ∧ e'.callee = e.callee := by
  cases hedge : g.hasEdge e.site e.callee with
  | true =>
    rw [record_of_hasEdge hedge]
    exact (hg.pairs _ _).1 hedge
  | false =>
    rw [edges_record hedge]
    exact ⟨e, List.mem_append_right _ (List.mem_singleton_self _), rfl, rfl⟩

/-- The callee of a new call can run. -/
theorem reachable_record_of_new (h : g.hasEdge e.site e.callee = false) :
    (g.record e).reachable = keepNew g.reachable e.callee := by
  rw [record_of_new h, reachable_reach, reachable_addEdge]

/-- If callees can run, then the callee of a call that is recorded comes last unless it could run
before. -/
theorem reachable_record (hg : g.Indexed) (hcallees : ∀ e ∈ g.edges, e.callee ∈ g.reachable) :
    (g.record e).reachable = keepNew g.reachable e.callee := by
  cases hedge : g.hasEdge e.site e.callee with
  | true =>
    -- the edge that is there has made the callee reachable
    obtain ⟨e', he', -, hc⟩ := (hg.pairs _ _).1 hedge
    rw [record_of_hasEdge hedge, keepNew_of_mem (hc ▸ hcallees e' he')]
  | false => exact reachable_record_of_new hedge

/-- The callee of a recorded call can run. -/
theorem mem_reachable_record (hg : g.Indexed) (hcallees : ∀ e ∈ g.edges, e.callee ∈ g.reachable) :
    e.callee ∈ (g.record e).reachable := by
  rw [reachable_record hg hcallees, mem_keepNew]
  exact Or.inr rfl

/-- What can run after a call is recorded could run before, or it comes last and is the callee. -/
theorem getElem?_reachable_record (hg : g.Indexed)
    (hcallees : ∀ e ∈ g.edges, e.callee ∈ g.reachable) {j : Nat} {m : μ}
    (h : (g.record e).reachable[j]? = some m) :
    g.reachable[j]? = some m ∨ j = g.reachable.length ∧ m = e.callee := by
  rw [reachable_record hg hcallees, keepNew] at h
  split at h
  · exact Or.inl h
  · exact getElem?_concat_cases h

/-- What could run before a call is recorded can run afterwards, in the same order. -/
theorem reachable_prefix_record : g.reachable <+: (g.record e).reachable := by
  cases h : g.hasEdge e.site e.callee with
  | true =>
    rw [record_of_hasEdge h]
  | false =>
    rw [reachable_record_of_new h]
    exact prefix_keepNew _ _

end CallGraph

namespace Universe

/-- A location that is interned takes nothing out of the sets of the others. -/
theorem holds_pointer {u : Universe} (key : Pointer) {h : PointerId} {q : QObjId}
    (hq : u.Holds h q) : (u.pointer key).2.Holds h q := by
  rcases u.pointer_cases key with ⟨h, -, e⟩ | ⟨-, e⟩
  · rw [e]
    exact hq
  · -- a new location gets an empty set at the end of the table of sets
    rw [e]
    exact hq.imp fun set hset => ⟨(Table.extends_push _ _).get? hset.1, hset.2⟩

end Universe

namespace Solver

/-! ## Changes of a state -/

/-- The method can run under the context, by handle. -/
def Runs (u : Universe) (calls : CallGraph QSiteId QMethodId) (c : ContextId) (m : MethodId) :
    Prop :=
  ∃ h ∈ calls.reachable, u.methods.get? h = some ⟨c, m⟩

namespace State

/-- The state with another pool of contexts. -/
def pooled (s : State) (contexts : ContextPool) : State :=
  { s with world := { s.world with contexts } }

/-- The state with an object made under a heap context. -/
def allocated (s : State) (heap : Heap) (q : Qualified ObjId) : State :=
  { s with heap, world := (s.world.obj q).2 }

/-- The state with a location interned. -/
def interned (s : State) (key : Pointer) : State := { s with world := (s.world.pointer key).2 }

/-- The state with an object sent to a location. -/
def sent (s : State) (h : PointerId) (q : QObjId) : State :=
  { s with workList := s.workList.push ⟨h, .singleton q⟩ }

/-- The state with an object sent to the `this` of a callee, if it has one. -/
def bound (s : State) (self : Option VarId) (c : ContextId) (receiver : QObjId) : State :=
  match self with
  | none => s
  | some v => (s.interned (.var c v)).sent (s.world.pointer (.var c v)).1 receiver

/-- The call between a site and a callee, which are interned for it, the callee first. -/
def callEdge (s : State) (kind : CallKind) (site : Qualified StmtId)
    (callee : Qualified MethodId) : CallEdge QSiteId QMethodId :=
  ⟨kind, ((s.world.method callee).2.site site).1, (s.world.method callee).1⟩

/-- The state with a call recorded. -/
def called (s : State) (kind : CallKind) (site : Qualified StmtId) (callee : Qualified MethodId) :
    State :=
  { s with
    world := ((s.world.method callee).2.site site).2
    calls := s.calls.record (s.callEdge kind site callee) }

end State

/-! ## Moves -/

section Moves

variable (p : Program) (σ : Sensitivity)

/-- A variable is mentioned under a context by a method that can run there, by a statement that
follows another variable, or at one of the ends of a call.  Nothing is asked of other locations. -/
inductive Mentions (s : State) : Pointer → Prop where
  /-- By a statement of a method that can run. -/
  | visited {c : ContextId} {m : MethodId} {i : StmtId} {stmt : Stmt} {v : VarId}
      (hm : Runs s.world s.calls c m) (hx : p.Executes m i stmt) (hv : v ∈ stmt.vars) :
      Mentions s (.var c v)
  /-- By a statement that follows a variable for which there is a pointer. -/
  | dereferenced {h : PointerId} {c : ContextId} {v w : VarId} {i : StmtId} {stmt : Stmt}
      (hh : s.world.pointers.get? h = some (.var c v)) (hs : p.stmtAt i = .ok stmt)
      (hb : stmt.base? = some v) (hw : w ∈ stmt.vars) : Mentions s (.var c w)
  /-- By the statement that makes a recorded call, as an argument or as the result. -/
  | caller {e : CallEdge QSiteId QMethodId} {c : ContextId} {i : StmtId} {call : Invoke}
      {v : VarId} (he : e ∈ s.calls.edges) (hi : s.world.sites.get? e.site = some ⟨c, i⟩)
      (hs : p.stmtAt i = .ok (.invoke call)) (hv : v ∈ (Stmt.invoke call).vars) :
      Mentions s (.var c v)
  /-- By the body of the callee of a recorded call, as a parameter or as a returned variable. -/
  | callee {e : CallEdge QSiteId QMethodId} {c : ContextId} {m : MethodId} {decl : MethodDecl}
      {body : Body} {v : VarId} (he : e ∈ s.calls.edges)
      (hm : s.world.methods.get? e.callee = some ⟨c, m⟩) (hd : p.methodAt m = .ok decl)
      (hb : decl.body = some body) (hv : v ∈ body.vars) : Mentions s (.var c v)
  | staticField {f : FieldId} : Mentions s (.staticField f)
  | instanceField {q : QObjId} {f : FieldId} : Mentions s (.instanceField q f)
  | arrayElems {q : QObjId} : Mentions s (.arrayElems q)

/-- The smallest changes that a run makes to its state. -/
inductive Move (s : State) : State → Prop where
  /-- The next method is taken up. -/
  | visit {h : QMethodId} (hh : s.calls.reachable[s.visited]? = some h) :
      Move s { s with visited := s.visited + 1 }
  /-- The next delivery is taken off the work list, and its objects come into the set. -/
  | arrive {d : Delivery} {w : WorkList} {set : PointsTo} (hpop : s.workList.pop? = some (d, w))
      (hset : s.world.sets.get? d.target = some set) : Move s (arrive s w d.target d.objs set)
  /-- A method that can run makes an object. -/
  | alloc {c c' : ContextId} {m : MethodId} {i : StmtId} {lhs : VarId} {type : RefType}
      {o : ObjId} {heap : Heap} {contexts : ContextPool} (hm : Runs s.world s.calls c m)
      (hx : p.Executes m i (.alloc lhs type)) (ho : s.heap.objFor p i = .ok (o, heap))
      (hc : σ.heapContext s.world.contexts c = .ok (c', contexts)) :
      Move s ((s.pooled contexts).allocated heap ⟨c', o⟩)
  /-- An object is sent anywhere.  Why it is sent is said where it matters, not here. -/
  | send {h : PointerId} {q : QObjId} : Move s (s.sent h q)
  /-- A location is interned because it is in use. -/
  | mention {key : Pointer} (hk : Mentions p s key) : Move s (s.interned key)
  /-- An edge is added, and what its source holds is sent along it if the edge is new. -/
  | flow {a b : PointerId} {s' : State} (h : addFlow a b s = .ok ((), s')) : Move s s'
  /-- A method that can run calls a static one. -/
  | callStatically {c c' : ContextId} {m m' : MethodId} {i : StmtId} {call : Invoke}
      {decl : MethodDecl} {contexts : ContextPool} (hm : Runs s.world s.calls c m)
      (hx : p.Executes m i (.invoke call)) (hk : call.kind = .static)
      (ht : targetOf p call none = .ok (some m')) (hd : p.methodAt m' = .ok decl)
      (hstatic : decl.isStatic = true)
      (hc : σ.staticContext s.world.contexts ⟨c, i⟩ = .ok (c', contexts)) :
      Move s ((s.pooled contexts).called call.kind ⟨c, i⟩ ⟨c', m'⟩)
  /-- A variable refers to an object on which a method is called. -/
  | callOn {h : PointerId} {c c' : ContextId} {v : VarId} {q : QObjId} {key : Qualified ObjId}
      {obj : Obj} {m : MethodId} {i : StmtId} {call : Invoke} {decl : MethodDecl}
      {contexts : ContextPool} (hh : s.world.pointers.get? h = some (.var c v))
      (hq : s.world.Holds h q) (hkey : s.world.objs.get? q = some key)
      (hobj : s.heap.objects.get? key.entity = some obj) (hs : p.stmtAt i = .ok (.invoke call))
      (hb : call.receiver = some v) (ht : targetOf p call (some obj.type) = .ok (some m))
      (hd : p.methodAt m = .ok decl) (hstatic : decl.isStatic = false)
      (hc : σ.instanceContext s.world.contexts ⟨c, i⟩ key obj.containerClass =
        .ok (c', contexts)) :
      Move s (((s.pooled contexts).bound (decl.body.bind Body.self) c' q).called call.kind ⟨c, i⟩
        ⟨c', m⟩)

/-- Any number of moves. -/
abbrev Moves : State → State → Prop := Relation.ReflTransGen (Move p σ)

end Moves

/-- An edge changes the flow graph and the deliveries, and nothing else. -/
theorem addFlow_frame {s s' : State} {a b : PointerId} (h : addFlow a b s = .ok ((), s')) :
    ∃ flow workList, s' = { s with flow, workList } := by
  cases hedge : s.flow.hasEdge a b with
  | true =>
    rw [addFlow_eq_of_hasEdge hedge] at h
    obtain ⟨-, rfl⟩ := Prod.mk.inj (Except.ok.inj h)
    exact ⟨_, _, rfl⟩
  | false =>
    cases hset : s.world.sets.get? a with
    | none =>
      rw [addFlow_eq_error hedge hset] at h
      cases h
    | some objs =>
      rw [addFlow_eq hedge hset] at h
      obtain ⟨-, rfl⟩ := Prod.mk.inj (Except.ok.inj h)
      exact ⟨_, _, rfl⟩

/-! ## Growth -/

/-- The later state `s'` continues `s`: rows keep their handles, graphs keep their edges, and sets
their elements. -/
structure Grown (s s' : State) : Prop where
  world : s.world.Extends s'.world
  heap : s.heap.objects.Extends s'.heap.objects
  reachable : s.calls.reachable <+: s'.calls.reachable
  edges : s.calls.edges <+: s'.calls.edges
  holds : ∀ h q, s.world.Holds h q → s'.world.Holds h q

namespace Grown

variable {s s' s'' : State}

theorem refl (s : State) : Grown s s where
  world := .refl _
  heap := .refl _
  reachable := List.prefix_refl _
  edges := List.prefix_refl _
  holds _ _ h := h

theorem trans (h : Grown s s') (h' : Grown s' s'') : Grown s s'' where
  world := h.world.trans h'.world
  heap := h.heap.trans h'.heap
  reachable := h.reachable.trans h'.reachable
  edges := h.edges.trans h'.edges
  holds a q hq := h'.holds a q (h.holds a q hq)

/-- A method that could run can still run. -/
theorem runs (h : Grown s s') {c : ContextId} {m : MethodId}
    (hm : Runs s.world s.calls c m) : Runs s'.world s'.calls c m := by
  obtain ⟨k, hk, e⟩ := hm
  exact ⟨k, h.reachable.subset hk, h.world.methods.get? e⟩

/-- A reason for a location to be in use stays one. -/
theorem mentions (h : Grown s s') {p : Program} {key : Pointer} (hk : Mentions p s key) :
    Mentions p s' key := by
  -- each reason reads rows and edges that the later state has too
  cases hk with
  | visited hm hx hv => exact .visited (h.runs hm) hx hv
  | dereferenced hh hs hb hw => exact .dereferenced (h.world.pointers.get? hh) hs hb hw
  | caller he hi hs hv => exact .caller (h.edges.subset he) (h.world.sites.get? hi) hs hv
  | callee he hm hd hb hv => exact .callee (h.edges.subset he) (h.world.methods.get? hm) hd hb hv
  | staticField => exact .staticField
  | instanceField => exact .instanceField
  | arrayElems => exact .arrayElems

/-! ### What each change keeps -/

theorem pooled (s : State) {contexts : ContextPool}
    (h : s.world.contexts.table.Extends contexts.table) : Grown s (s.pooled contexts) :=
  { refl s with world := { Universe.Extends.refl s.world with contexts := h } }

theorem allocated (s : State) {heap : Heap} (h : s.heap.objects.Extends heap.objects)
    (q : Qualified ObjId) : Grown s (s.allocated heap q) :=
  { refl s with
    world := { Universe.Extends.refl s.world with objs := Table.extends_intern _ _ }
    heap := h }

theorem interned (s : State) (key : Pointer) : Grown s (s.interned key) :=
  { refl s with
    world := Universe.extends_pointer _ _
    holds := fun _ _ => Universe.holds_pointer key }

theorem sent (s : State) (h : PointerId) (q : QObjId) : Grown s (s.sent h q) := { refl s with }

theorem bound (s : State) (self : Option VarId) (c : ContextId) (q : QObjId) :
    Grown s (s.bound self c q) := by
  cases self with
  | none => exact refl s
  | some v => exact (interned s _).trans (sent _ _ q)

/-- Callees and sites are interned and calls are recorded without loss of what was there. -/
theorem called (s : State) (kind : CallKind) (site : Qualified StmtId)
    (callee : Qualified MethodId) : Grown s (s.called kind site callee) := by
  refine { refl s with
    world := ?_
    reachable := CallGraph.reachable_prefix_record
    edges := CallGraph.edges_prefix_record }
  exact { Universe.Extends.refl s.world with
    sites := Table.extends_intern _ _
    methods := Table.extends_intern _ _ }

/-- A set that objects arrive in keeps the objects it had. -/
theorem arrive {w : WorkList} {d : Delivery} {set : PointsTo}
    (hset : s.world.sets.get? d.target = some set) :
    Grown s (arrive s w d.target d.objs set) :=
  { refl s with
    world := { Universe.Extends.refl s.world with }
    holds := fun _ _ hq => (holds_arrive hset).2 (Or.inl hq) }

theorem addFlow {a b : PointerId} (h : addFlow a b s = .ok ((), s')) : Grown s s' := by
  obtain ⟨flow, w, rfl⟩ := addFlow_frame h
  exact { refl s with }

end Grown

variable {p : Program} {σ : Sensitivity} {s s' : State}

/-- Whatever a move does, the state continues. -/
theorem Move.grown (h : Move p σ s s') : Grown s s' := by
  cases h with
  -- a visit moves the position of the next method to visit, and grows nothing
  | visit _ => exact { Grown.refl s with }
  | arrive _ hset => exact .arrive hset
  | @alloc _ _ _ _ _ _ _ _ contexts _ _ ho hc =>
    exact (Grown.pooled s (Sensitivity.extends_heapContext hc)).trans
      (.allocated (s.pooled contexts) (Heap.extends_objFor ho) _)
  | send => exact .sent s _ _
  | mention _ => exact .interned s _
  | flow h => exact .addFlow h
  -- for a call the context of the callee is chosen before anything else is changed
  | callStatically _ _ _ _ _ _ hc =>
    exact (Grown.pooled s (Sensitivity.extends_staticContext hc)).trans (.called _ _ _ _)
  | callOn _ _ _ _ _ _ _ _ _ hc =>
    exact (Grown.pooled s (Sensitivity.extends_instanceContext hc)).trans
      ((Grown.bound _ _ _ _).trans (.called _ _ _ _))

/-- A run only ever adds to its state. -/
theorem grown_of_moves (h : Moves p σ s s') : Grown s s' := by
  induction h with
  | refl => exact .refl s
  | tail _ hmove ih => exact ih.trans hmove.grown

end Solver

end PointerAnalysis
