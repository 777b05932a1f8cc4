import PointerAnalysis.Proofs.Context.Policy
import PointerAnalysis.Proofs.Program.Bodies
import PointerAnalysis.Proofs.Solver.Rooted

/-!
# Contexts are prescribed

Every context of a run is the one that the sensitivity prescribes for the method or the object that
carries it, read off the contexts that were there before.  Contexts travel from callers to callees,
from methods to the objects they allocate, and from objects to the methods called on them, so all
three are followed at once.  Under call sites, the context of a method is then the end of any chain
of calls that leads to it.

## Main definitions

- `Chosen`: the elements that a call prescribes for its callee.
- `Prescribed`: every context is prescribed by a call or by an allocation.
- `CallPath`: a chain of calls from the entry.

## Main statements

- `Prescribed.move`: moves keep contexts prescribed.
- `solve_prescribed`: the contexts of an output are prescribed, and under call sites they are the
  last sites of the paths in the call graph.
-/

namespace PointerAnalysis

/-! ## Heaps -/

namespace Heap

variable {p : Program} {heap heap' : Heap} {i : StmtId} {o : ObjId}

/-- Objects are placed where their allocation statements stand. -/
def Placed (p : Program) (heap : Heap) : Prop :=
  ∀ o obj, heap.objects.get? o = some obj →
    p.ownerOf obj.site = .ok obj.container ∧
      ∃ decl, p.methodAt obj.container = .ok decl ∧ decl.owner = obj.containerClass

/-- The object of an allocation statement is there, or it is made. -/
theorem objFor_cases (h : heap.objFor p i = .ok (o, heap')) :
    (heap' = heap ∧ ∃ obj, heap.objects.get? o = some obj ∧ obj.site = i) ∨
      ∃ site decl obj, p.siteAt i = .ok site ∧ p.methodAt site.method = .ok decl ∧
        o = heap.objects.next ∧ heap' = ⟨heap.objects.push obj⟩ ∧ obj.site = i ∧
        obj.container = site.method ∧ obj.containerClass = decl.owner := by
  unfold objFor at h
  split at h
  · rename_i o' hfind
    obtain ⟨rfl, rfl⟩ := Prod.mk.inj (Outcome.pure_eq_ok.1 h)
    obtain ⟨obj, hobj, hsite⟩ := Table.get?_find? hfind
    exact Or.inl ⟨rfl, obj, hobj, of_decide_eq_true hsite⟩
  · obtain ⟨site, hsite, h⟩ := Outcome.bind_eq_ok.1 h
    split at h
    · obtain ⟨decl, hdecl, h⟩ := Outcome.bind_eq_ok.1 h
      obtain ⟨rfl, rfl⟩ := Prod.mk.inj (Outcome.pure_eq_ok.1 h)
      exact Or.inr ⟨site, decl, _, hsite, hdecl, rfl, rfl, rfl, rfl, rfl⟩
    · exact absurd h Outcome.defect_ne_ok

theorem get?_objFor (h : heap.objFor p i = .ok (o, heap')) :
    ∃ obj, heap'.objects.get? o = some obj ∧ obj.site = i := by
  rcases objFor_cases h with ⟨rfl, hobj⟩ | ⟨site, decl, obj, -, -, rfl, rfl, hi, -⟩
  · exact hobj
  · exact ⟨obj, (Table.get?_push ..).trans (if_pos rfl), hi⟩

theorem Placed.objFor (hp : heap.Placed p) (h : heap.objFor p i = .ok (o, heap')) :
    heap'.Placed p := by
  rcases objFor_cases h with ⟨rfl, -⟩ | ⟨site, decl, obj, hs, hd, rfl, rfl, hi, hm, hc⟩
  · exact hp
  · intro o obj' ho
    rcases Table.get?_push_cases ho with ho | ⟨-, rfl⟩
    · exact hp o obj' ho
    · refine ⟨?_, decl, hm ▸ hd, hc.symm⟩
      rw [hi, hm]
      exact Outcome.map_eq_ok.2 ⟨site, hs, rfl⟩

end Heap

/-- The elements of a context. -/
def Universe.elems? (u : Universe) (c : ContextId) : Option (List ContextElem) :=
  u.contexts.table.get? c

theorem Universe.Extends.elems? {u u' : Universe} (h : u.Extends u') {c : ContextId}
    {es : List ContextElem} (hc : u.elems? c = some es) : u'.elems? c = some es :=
  h.contexts.get? hc

namespace Solver

variable {p : Program} {σ : Sensitivity} {s s' : State}

/-! ## Prescriptions -/

section Prescriptions

variable (p : Program) (σ : Sensitivity) (u : Universe) (heap : Heap)

/-- The elements that a call prescribes for its callee.  A call on a receiver does so for each
object the receiver refers to. -/
inductive Chosen (site : Qualified StmtId) (call : Invoke) : List ContextElem → Prop where
  | static {es : List ContextElem} (hk : call.kind = .static)
      (hes : u.elems? site.context = some es) : Chosen site call (σ.staticElems es site.entity)
  | receiver {v : VarId} {h : PointerId} {q : QObjId} {key : Qualified ObjId} {obj : Obj}
      {es rs : List ContextElem} (hk : call.kind ≠ .static) (hb : call.receiver = some v)
      (hh : u.pointers.get? h = some (.var site.context v)) (hq : u.Holds h q)
      (hkey : u.objs.get? q = some key) (hobj : heap.objects.get? key.entity = some obj)
      (hes : u.elems? site.context = some es) (hrs : u.elems? key.context = some rs) :
      Chosen site call (σ.instanceElems es site.entity rs key.entity obj.containerClass)

/-- The callee of an edge runs under the elements that the call prescribes. -/
def CalledUnder (e : CallEdge QSiteId QMethodId) : Prop :=
  ∃ site callee call es, u.sites.get? e.site = some site ∧
    u.methods.get? e.callee = some callee ∧ p.stmtAt site.entity = .ok (.invoke call) ∧
    u.elems? callee.context = some es ∧ Chosen σ u heap site call es

/-- An object carries the last elements of a context under which its containing method can run. -/
def AllocatedUnder (calls : CallGraph QSiteId QMethodId) (key : Qualified ObjId) : Prop :=
  ∃ obj t ts, heap.objects.get? key.entity = some obj ∧ Runs u calls t obj.container ∧
    u.elems? t = some ts ∧ u.elems? key.context = some (σ.heapElems ts)

/-- A context is that of a method which can run, or that of an object. -/
def InUse (calls : CallGraph QSiteId QMethodId) (c : ContextId) : Prop :=
  (∃ m, Runs u calls c m) ∨ ∃ x o, u.objs.get? x = some ⟨c, o⟩

/-- Every context is prescribed by a call or by an allocation. -/
structure Prescribed (calls : CallGraph QSiteId QMethodId) : Prop where
  /-- Contexts of the same elements are the same. -/
  distinct : u.contexts.table.Distinct
  empty : u.elems? .empty = some []
  placed : heap.Placed p
  methods : ∀ c m, Runs u calls c m → ∃ es, u.elems? c = some es ∧ σ.Shaped σ.depth es
  objs : ∀ x key, u.objs.get? x = some key → AllocatedUnder σ u heap calls key ∧
    ∃ es, u.elems? key.context = some es ∧ σ.Shaped (σ.depth - 1) es
  contexts : ∀ c es, u.elems? c = some es → es ≠ [] → InUse u calls c
  edges : ∀ e ∈ calls.edges, CalledUnder p σ u heap e

end Prescriptions

section Mono

variable {u u' : Universe} {heap heap' : Heap} {calls calls' : CallGraph QSiteId QMethodId}
  (hu : u.Extends u')
include hu

theorem InUse.mono (hreach : calls.reachable ⊆ calls'.reachable) {c : ContextId}
    (h : InUse u calls c) : InUse u' calls' c :=
  h.imp (fun h => h.imp fun _ hm => hm.mono hu hreach)
    fun h => h.imp fun _ h => h.imp fun _ hx => hu.objs.get? hx

variable (hh : heap.objects.Extends heap'.objects)
include hh

theorem AllocatedUnder.mono (hreach : calls.reachable ⊆ calls'.reachable) {key : Qualified ObjId}
    (h : AllocatedUnder σ u heap calls key) : AllocatedUnder σ u' heap' calls' key := by
  obtain ⟨obj, t, ts, hobj, hruns, ht, hkey⟩ := h
  exact ⟨obj, t, ts, hh.get? hobj, hruns.mono hu hreach, hu.elems? ht, hu.elems? hkey⟩

variable (hholds : ∀ h q, u.Holds h q → u'.Holds h q)
include hholds

theorem Chosen.mono {site : Qualified StmtId} {call : Invoke} {es : List ContextElem}
    (h : Chosen σ u heap site call es) : Chosen σ u' heap' site call es := by
  cases h with
  | static hk hes => exact .static hk (hu.elems? hes)
  | receiver hk hb hx hq hkey hobj hes hrs =>
    exact .receiver hk hb (hu.pointers.get? hx) (hholds _ _ hq) (hu.objs.get? hkey) (hh.get? hobj)
      (hu.elems? hes) (hu.elems? hrs)

theorem CalledUnder.mono {e : CallEdge QSiteId QMethodId} (h : CalledUnder p σ u heap e) :
    CalledUnder p σ u' heap' e := by
  obtain ⟨site, callee, call, es, hsite, hcallee, hs, hes, hchosen⟩ := h
  exact ⟨site, callee, call, es, hu.sites.get? hsite, hu.methods.get? hcallee, hs, hu.elems? hes,
    hchosen.mono hu hh hholds⟩

end Mono

/-! ## Moves -/

section Extend

variable {u u' : Universe} {heap heap' : Heap} {calls calls' : CallGraph QSiteId QMethodId}

/-- Contexts stay prescribed when one is interned, as long as whatever is new carries it and it was
prescribed. -/
theorem Prescribed.extend (h : Prescribed p σ u heap calls) (hu : u.Extends u')
    (hh : heap.objects.Extends heap'.objects) (hholds : ∀ h q, u.Holds h q → u'.Holds h q)
    (hreach : calls.reachable ⊆ calls'.reachable) {c' : ContextId} {es : List ContextElem}
    (hpool : (c', u'.contexts) = u.contexts.intern es) (hplaced : heap'.Placed p)
    (hmethods : ∀ c m, Runs u' calls' c m → Runs u calls c m ∨ c = c' ∧ σ.Shaped σ.depth es)
    (hobjs : ∀ x key, u'.objs.get? x = some key → u.objs.get? x = some key ∨
      AllocatedUnder σ u' heap' calls' key)
    (hedges : ∀ e ∈ calls'.edges, e ∈ calls.edges ∨ CalledUnder p σ u' heap' e)
    (huse : es ≠ [] → InUse u' calls' c') : Prescribed p σ u' heap' calls' := by
  obtain ⟨hc', hcontexts⟩ := Prod.mk.inj hpool
  have htable : u'.contexts.table = (u.contexts.table.intern es).2 := congrArg (·.table) hcontexts
  have hnew : u'.elems? c' = some es := by
    rw [Universe.elems?, htable, hc']
    exact Table.get?_intern _ _
  have hdistinct : u'.contexts.table.Distinct := htable ▸ h.distinct.intern es
  have hruns : ∀ c m, Runs u' calls' c m → ∃ es, u'.elems? c = some es ∧ σ.Shaped σ.depth es := by
    intro c m hm
    rcases hmethods c m hm with hm | ⟨rfl, hshape⟩
    · exact (h.methods c m hm).imp fun _ he => ⟨hu.elems? he.1, he.2⟩
    · exact ⟨es, hnew, hshape⟩
  refine
    { distinct := hdistinct
      empty := hu.elems? h.empty
      placed := hplaced
      methods := hruns
      objs := fun x key hx => ?_
      contexts := fun c fs hc hne => ?_
      edges := fun e he => ?_ }
  · have halloc : AllocatedUnder σ u' heap' calls' key := by
      rcases hobjs x key hx with hx | halloc
      · exact (h.objs x key hx).1.mono hu hh hreach
      · exact halloc
    refine ⟨halloc, ?_⟩
    -- what is left of the context of a method is one element shorter
    obtain ⟨obj, t, ts, -, hm, ht, hkey⟩ := halloc
    obtain ⟨ts', ht', hshape⟩ := hruns _ _ hm
    obtain rfl := Option.some.inj (ht.symm.trans ht')
    exact ⟨_, hkey, hshape.heap⟩
  · rw [Universe.elems?, htable] at hc
    rcases Table.get?_intern_cases hc with hold | rfl
    · exact (h.contexts c fs hold hne).mono hu hreach
    · rw [← htable] at hc
      obtain rfl := hdistinct _ _ _ hc hnew
      exact huse hne
  · rcases hedges e he with he | he
    · exact (h.edges e he).mono hu hh hholds
    · exact he

/-- Contexts stay prescribed while no context, method, object or call is added. -/
theorem Prescribed.frame (h : Prescribed p σ u heap calls) (hu : u.Extends u')
    (hholds : ∀ h q, u.Holds h q → u'.Holds h q) (hcontexts : u'.contexts = u.contexts)
    (hmethods : u'.methods = u.methods) (hobjs : u'.objs = u.objs) :
    Prescribed p σ u' heap calls := by
  -- the empty context is there already
  have hpool : (ContextId.empty, u'.contexts) = u.contexts.intern [] := by
    rw [hcontexts, ContextPool.intern_eq_of_get? h.distinct h.empty]
  refine h.extend hu (.refl _) hholds (fun _ h => h) hpool h.placed (fun c m hm => Or.inl ?_)
    (fun x key hx => Or.inl (hobjs ▸ hx)) (fun e he => Or.inl he) fun hne => absurd rfl hne
  unfold Runs at hm ⊢
  rwa [hmethods] at hm

end Extend

/-! ### Calls -/

/-- A method that has a handle can run. -/
theorem Rooted.runs_of_get? {u : Universe} {heap : Heap} {calls : CallGraph QSiteId QMethodId}
    (h : Rooted p u heap calls) {x : QMethodId} {c : ContextId} {m : MethodId}
    (hx : u.methods.get? x = some ⟨c, m⟩) : Runs u calls c m :=
  ⟨x, h.methods ▸ Table.mem_handles.2 (Table.has_of_get? hx), hx⟩

/-- Sending an object to `this` touches no context and no object. -/
theorem State.bound_tables (s : State) (self : Option VarId) (c : ContextId) (q : QObjId) :
    (s.bound self c q).world.contexts = s.world.contexts ∧
      (s.bound self c q).world.objs = s.world.objs ∧ (s.bound self c q).heap = s.heap := by
  cases self with
  | none => exact ⟨rfl, rfl, rfl⟩
  | some v =>
    obtain ⟨-, -, hcontexts, hobjs⟩ := s.world.pointer_frame (.var c v)
    exact ⟨hcontexts, hobjs, rfl⟩

/-- A call is recorded whose callee gets the prescribed context. -/
theorem Prescribed.called {s₁ : State} {call : Invoke} {site : Qualified StmtId}
    {callee : Qualified MethodId} {es : List ContextElem}
    (h : Prescribed p σ s.world s.heap s.calls) (hr : Rooted p s.world s.heap s.calls)
    (hg : Grown s s₁)
    (hr' : Rooted p (s₁.called call.kind site callee).world (s₁.called call.kind site callee).heap
      (s₁.called call.kind site callee).calls)
    (hcalls : s₁.calls = s.calls) (hmethods : s₁.world.methods = s.world.methods)
    (hobjs : s₁.world.objs = s.world.objs) (hheap : s₁.heap = s.heap)
    (hpool : (callee.context, s₁.world.contexts) = s.world.contexts.intern es)
    (hs : p.stmtAt site.entity = .ok (.invoke call))
    (hchosen : Chosen σ s.world s.heap site call es) (hshape : σ.Shaped σ.depth es) :
    Prescribed p σ (s₁.called call.kind site callee).world
      (s₁.called call.kind site callee).heap (s₁.called call.kind site callee).calls := by
  have hgrown : Grown s (s₁.called call.kind site callee) := hg.trans (.called _ _ _ _)
  have hcallee : (s₁.called call.kind site callee).world.methods.get?
      (s₁.callEdge call.kind site callee).callee = some callee := Table.get?_intern _ _
  refine h.extend hgrown.world hgrown.heap hgrown.holds hgrown.reachable.subset hpool
    (hheap ▸ h.placed) (fun c m hm => ?_) (fun x key hx => Or.inl (hobjs ▸ hx))
    (fun e he => ?_) fun _ => Or.inl ⟨_, hr'.runs_of_get? hcallee⟩
  · -- the methods that have a handle are those of before and the callee
    obtain ⟨x, -, hx⟩ := hm
    change (s₁.world.methods.intern callee).2.get? x = _ at hx
    rw [hmethods] at hx
    rcases Table.get?_intern_cases hx with hx | rfl
    · exact Or.inl (hr.runs_of_get? hx)
    · exact Or.inr ⟨rfl, hshape⟩
  · change e ∈ (s₁.calls.record _).edges at he
    rw [hcalls] at he
    refine (CallGraph.mem_edges_record he).imp id fun he => ?_
    subst he
    refine ⟨site, callee, call, es, Table.get?_intern _ _, hcallee, hs, ?_,
      hchosen.mono hgrown.world hgrown.heap hgrown.holds⟩
    obtain ⟨hc, hcontexts⟩ := Prod.mk.inj hpool
    show s₁.world.contexts.table.get? callee.context = some es
    rw [hcontexts, hc]
    exact Table.get?_intern _ _

/-! ### All moves -/

/-- An object is made under the context that is prescribed. -/
theorem Prescribed.alloc (ho : p.Owned) (h : Prescribed p σ s.world s.heap s.calls)
    {c c' : ContextId} {m : MethodId} {i : StmtId} {lhs : VarId} {type : RefType} {o : ObjId}
    {heap : Heap} {contexts : ContextPool} (hm : Runs s.world s.calls c m)
    (hx : p.Executes m i (.alloc lhs type)) (hobj : s.heap.objFor p i = .ok (o, heap))
    (hc : σ.heapContext s.world.contexts c = .ok (c', contexts)) :
    Prescribed p σ ((s.pooled contexts).allocated heap ⟨c', o⟩).world heap s.calls := by
  have hg := (Move.alloc hm hx hobj hc).grown
  obtain ⟨es, hes, -⟩ := h.methods c m hm
  have hpool : (c', contexts) = s.world.contexts.intern (σ.heapElems es) :=
    Except.ok.inj (hc.symm.trans (σ.heapContext_eq h.distinct h.empty hes))
  have hplaced : heap.Placed p := h.placed.objFor hobj
  have hnew : ((s.pooled contexts).allocated heap ⟨c', o⟩).world.elems? c' =
      some (σ.heapElems es) := by
    obtain ⟨rfl, rfl⟩ := Prod.mk.inj hpool
    exact Table.get?_intern _ _
  refine h.extend hg.world hg.heap hg.holds (fun _ h => h) hpool hplaced (fun _ _ hm => Or.inl hm)
    (fun x key hx => ?_) (fun e he => Or.inl he) fun _ => Or.inr ⟨_, o, Table.get?_intern _ _⟩
  refine (Table.get?_intern_cases hx).imp id fun e => ?_
  subst e
  -- the allocation statement belongs to the method that runs
  obtain ⟨obj, ho', rfl⟩ := Heap.get?_objFor hobj
  have hcontainer : obj.container = m :=
    Except.ok.inj ((hplaced o obj ho').1.symm.trans (ho.executes_iff.1 ‹_›).1)
  exact ⟨obj, c, es, ho', hcontainer ▸ hm, hg.world.elems? hes, hnew⟩

/-- Moves keep contexts prescribed. -/
theorem Prescribed.move (ho : p.Owned) (ha : p.Assembled) (hr : Rooted p s.world s.heap s.calls)
    (h : Prescribed p σ s.world s.heap s.calls) (hmove : Move p σ s s') :
    Prescribed p σ s'.world s'.heap s'.calls := by
  have hr' := hr.move ho hmove
  have hg := hmove.grown
  cases hmove with
  | visit _ => exact h
  | arrive _ hset => exact h.frame hg.world hg.holds rfl rfl rfl
  | alloc hm hx hobj hc => exact h.alloc ho hm hx hobj hc
  | send => exact h
  | @mention key _ =>
    obtain ⟨hmethods, -, hcontexts, hobjs⟩ := s.world.pointer_frame key
    exact h.frame hg.world hg.holds hcontexts hmethods hobjs
  | flow hflow =>
    obtain ⟨flow, w, rfl⟩ := addFlow_frame hflow
    exact h
  | callStatically hm hx hk ht hd hstatic hc =>
    obtain ⟨es, hes, hshape⟩ := h.methods _ _ hm
    exact h.called hr (Grown.pooled s (Sensitivity.extends_staticContext hc)) hr' rfl rfl rfl rfl
      (Except.ok.inj (hc.symm.trans (σ.staticContext_eq h.distinct h.empty _ hes)))
      (ho.executes_iff.1 hx).2 (.static hk hes) (hshape.static _)
  | @callOn x c c' v q key obj m i call decl contexts hx hq hkey hobj hs hb ht hd hstatic hc =>
    obtain ⟨caller, -, hruns⟩ := hr.caller ho hx hs (Stmt.mem_vars_of_base? hb)
    obtain ⟨es, hes, hshape⟩ := h.methods _ _ hruns
    obtain ⟨-, rs, hrs, hrshape⟩ := h.objs q key hkey
    -- a call that has a receiver is not static
    have hk : call.kind ≠ .static := by
      intro hk
      have hreceiver := ha.receivers i call hs
      rw [hk, hb] at hreceiver
      cases hreceiver
    obtain ⟨hcalls, hmethods, -⟩ :=
      (s.pooled contexts).bound_frame (decl.body.bind Body.self) c' q
    obtain ⟨hcontexts, hobjs, hheap⟩ :=
      (s.pooled contexts).bound_tables (decl.body.bind Body.self) c' q
    refine h.called hr ((Grown.pooled s (Sensitivity.extends_instanceContext hc)).trans
      (.bound _ _ _ _)) hr' hcalls hmethods hobjs hheap ?_ hs
      (.receiver hk hb hx hq hkey hobj hes hrs) (hshape.instance hrshape _ _ _)
    rw [hcontexts]
    exact Except.ok.inj (hc.symm.trans (σ.instanceContext_eq h.distinct h.empty ⟨c, i⟩ hes hrs _))

/-- Runs keep states rooted and contexts prescribed. -/
theorem Prescribed.moves (ho : p.Owned) (ha : p.Assembled)
    (hr : Rooted p s.world s.heap s.calls) (h : Prescribed p σ s.world s.heap s.calls)
    (hmoves : Moves p σ s s') : Prescribed p σ s'.world s'.heap s'.calls := by
  -- a call finds its contexts because the state before it is rooted
  induction hmoves with
  | refl => exact h
  | tail hmoves hmove ih => exact ih.move ho ha (hr.moves ho hmoves) hmove

/-! ## Runs -/

/-- A run begins with the empty context. -/
theorem prescribed_start (p : Program) (σ : Sensitivity) (order : Order) :
    Prescribed p σ (start p order).world (start p order).heap (start p order).calls where
  distinct := ContextPool.distinct_initial
  empty := rfl
  placed o obj ho := by cases ho
  methods c m hm := by
    -- the entry is the only method that has a handle
    obtain ⟨x, -, hx⟩ := hm
    change (Table.intern {} (⟨.empty, p.entry⟩ : Qualified MethodId)).2.get? x = _ at hx
    rcases Table.get?_intern_cases hx with hx | hx
    · cases hx
    · obtain ⟨rfl, rfl⟩ := Qualified.mk.inj hx
      exact ⟨[], rfl, Sensitivity.shaped_nil⟩
  objs x key hx := by cases hx
  contexts c es hc hne := absurd (ContextPool.get?_initial.1 hc).2 hne
  edges e he := by cases he

theorem prescribed_of_solve (hp : p.Built) {order : Order} {budget : Option Nat} {out : Output}
    (h : solve p σ order budget = .ok out) : Prescribed p σ out.world out.heap out.calls := by
  obtain ⟨s, hmoves, -, e⟩ := exists_moves_of_solve hp.wellFormed h
  rw [e]
  exact (prescribed_start p σ order).moves hp.owned hp.assembled (rooted_start p order) hmoves

/-! ## Paths of calls -/

section Paths

variable {u : Universe} {heap : Heap} {calls : CallGraph QSiteId QMethodId}

/-- A chain of calls that leads from the entry to a method; the list holds the call sites, the first
call first. -/
inductive CallPath (p : Program) (u : Universe) (calls : CallGraph QSiteId QMethodId) :
    List StmtId → Qualified MethodId → Prop where
  | entry : CallPath p u calls [] ⟨.empty, p.entry⟩
  | call {path : List StmtId} {caller callee : Qualified MethodId}
      {e : CallEdge QSiteId QMethodId} {i : StmtId} (h : CallPath p u calls path caller)
      (he : e ∈ calls.edges) (hsite : u.sites.get? e.site = some ⟨caller.context, i⟩)
      (howner : p.ownerOf i = .ok caller.entity)
      (hcallee : u.methods.get? e.callee = some callee) : CallPath p u calls (path ++ [i]) callee

/-- A chain of calls leads to every method that can run. -/
theorem Rooted.exists_callPath (h : Rooted p u heap calls) {j : Nat} {x : QMethodId}
    {m : Qualified MethodId} (hx : calls.reachable[j]? = some x)
    (hm : u.methods.get? x = some m) : ∃ path, CallPath p u calls path m := by
  -- callers are found before their callees
  induction j using Nat.strong_induction_on generalizing x m with
  | _ j ih =>
    rcases Nat.eq_zero_or_pos j with rfl | hj
    · obtain ⟨y, hy, -, hfirst⟩ := h.entry
      obtain rfl := Option.some.inj (hx.symm.trans hfirst)
      obtain rfl := Option.some.inj (hm.symm.trans hy)
      exact ⟨[], .entry⟩
    · obtain ⟨e, he, rfl, c, i, caller, k, g, hsite, howner, hk, hg, hrow⟩ := h.found j x hj hx
      obtain ⟨path, hpath⟩ := ih k hk hg hrow
      exact ⟨path ++ [i], .call hpath he hsite howner hm⟩

/-- Under call sites, the context of a method is the end of every chain of calls that leads to
it. -/
theorem Prescribed.elems_of_callPath {k : Nat} (h : Prescribed p (.callSite k) u heap calls)
    {path : List StmtId} {m : Qualified MethodId} (hpath : CallPath p u calls path m) :
    u.elems? m.context = some (lastElems k (path.map .site)) := by
  induction hpath with
  | entry => simpa using h.empty
  | @call path caller callee e i _ he hsite _ hcallee ih =>
    obtain ⟨site, callee', call, es, hsite', hcallee', -, hes, hchosen⟩ := h.edges e he
    obtain rfl := Option.some.inj (hsite'.symm.trans hsite)
    obtain rfl := Option.some.inj (hcallee'.symm.trans hcallee)
    -- the call adds its site, whether or not it has a receiver
    obtain ⟨es', hes', rfl⟩ : ∃ es', u.elems? caller.context = some es' ∧
        es = lastElems k (es' ++ [.site i]) := by
      cases hchosen with
      | static _ hes' => exact ⟨_, hes', rfl⟩
      | receiver _ _ _ _ _ _ hes' _ => exact ⟨_, hes', rfl⟩
    obtain rfl := Option.some.inj (hes'.symm.trans ih)
    rw [hes, List.map_append, List.map_singleton,
      lastElems_append_singleton (Nat.le_succ k)]

end Paths

/-- The contexts of an output are those that the sensitivity prescribes.  Under call sites, every
method that can run ends a chain of calls from the entry, and its context is made of the last sites
of each such chain. -/
theorem solve_prescribed (hp : p.Built) {order : Order} {budget : Option Nat} {out : Output}
    (h : solve p σ order budget = .ok out) :
    Prescribed p σ out.world out.heap out.calls ∧
      ∀ k, σ = .callSite k → ∀ c m, Runs out.world out.calls c m →
        (∃ path, CallPath p out.world out.calls path ⟨c, m⟩) ∧
          ∀ path, CallPath p out.world out.calls path ⟨c, m⟩ →
            out.world.elems? c = some (lastElems k (path.map .site)) := by
  have hprescribed := prescribed_of_solve hp h
  refine ⟨hprescribed, fun k hk c m hm => ?_⟩
  subst hk
  obtain ⟨x, hx, hrow⟩ := hm
  obtain ⟨j, hj⟩ := List.mem_iff_getElem?.1 hx
  exact ⟨(rooted_of_solve hp h).exists_callPath hj hrow,
    fun path hpath => hprescribed.elems_of_callPath hpath⟩

/-- In a run on the box program under call sites, the method that is called runs under the one call
site there is. -/
theorem boxProgram_prescribed :
    ∃ out, boxProgram.Built ∧ solve boxProgram (.callSite 2) .fifo (some 3) = .ok out ∧
      out.world.methods.get? ⟨1⟩ = some ⟨⟨1⟩, ⟨1⟩⟩ ∧
      out.world.elems? ⟨1⟩ = some [.site ⟨1⟩] ∧
      Prescribed boxProgram (.callSite 2) out.world out.heap out.calls := by
  have hfound : ((solve boxProgram (.callSite 2) .fifo (some 3)).map fun out =>
      (out.world.methods.get? ⟨1⟩, out.world.elems? ⟨1⟩)).toOption =
        some (some ⟨⟨1⟩, ⟨1⟩⟩, some [.site ⟨1⟩]) := by
    decide +kernel
  obtain ⟨out, h, hrows⟩ := Outcome.exists_of_toOption_map hfound
  obtain ⟨hmethod, hcontext⟩ := Prod.mk.inj hrows
  exact ⟨out, boxProgram_built, h, hmethod, hcontext, (solve_prescribed boxProgram_built h).1⟩

end Solver

end PointerAnalysis
