import PointerAnalysis.Proofs.Bounds
import PointerAnalysis.Proofs.Context.Choice
import PointerAnalysis.Proofs.Graphs
import PointerAnalysis.Proofs.Solver.Knowledge

/-!
# Valid states

A state of a run is valid when its tables give every row a name, when all it knows belongs to the
least closed set, and when no edge of the flow graph lags behind: what its source refers to is in
the set of its target or on its way there.

## Main definitions

- `Rows`: the tables of a state name things that exist, and name them once.
- `RefersIn`, `FlowsIn`, `CallsIn`, `Delivers`: handles stand for facts of a set.
- `Valid`: all contents of a state belong to the least closed set, and no edge lags behind.

## Main statements

- `Rows.intern*`, `Rows.alloc`: tables keep their shape when a row is added.
- `Valid.grow`: a state stays valid while its tables grow.
- `Valid.knows`: all that a valid state knows belongs to the least closed set.
-/

namespace PointerAnalysis.Solver

/-! ## Tables -/

/-- The rows of `v` have names in `u`, and what they name is in use. -/
structure Named (F : Fact → Prop) (u : Universe) (heap : Heap) (v : Universe) : Prop where
  contexts : v.contexts.table.All fun es => ∃ t, heap.elemNames? es = some t ∧ F (.context t)
  objs : v.objs.All fun q => ∃ o, u.objKeyName? heap q = some o ∧ F (.object o)
  sites : v.sites.All fun q => ∃ n, u.keyName? heap q = some n
  methods : v.methods.All fun q => ∃ t m, u.keyName? heap q = some (t, m) ∧ F (.reaches t m)
  pointers : v.pointers.All fun key => ∃ x, u.pointerKeyName? heap key = some x ∧ F (.pointer x)

/-- Names stay when the tables that they are read from grow. -/
theorem Named.mono {F : Fact → Prop} {u u' v : Universe} {heap heap' : Heap}
    (h : Named F u heap v) (hu : u.Extends u') (hh : heap.objects.Extends heap'.objects) :
    Named F u' heap' v where
  contexts := h.contexts.mono fun _ => .imp fun _ => .imp (Heap.elemNames?_mono hh) id
  objs := h.objs.mono fun _ => .imp fun _ => .imp (Universe.objKeyName?_mono hu hh) id
  sites := h.sites.mono fun _ => .imp fun _ => Universe.keyName?_mono hu hh
  methods := h.methods.mono fun _ => .imp fun _ => .imp fun _ =>
    .imp (Universe.keyName?_mono hu hh) id
  pointers := h.pointers.mono fun _ => .imp fun _ => .imp (Universe.pointerKeyName?_mono hu hh) id

/-- The tables of a run name things that exist, each of them once. -/
structure Rows (p : Program) (σ : Sensitivity) (u : Universe) (heap : Heap) : Prop where
  named : Named (Least p σ) u heap u
  faithful : u.Faithful heap
  empty : u.contexts.table.get? ContextId.empty = some []
  heap : heap.objects.All fun obj =>
    p.Allocates obj.site obj.type ∧ p.WrittenIn obj.site obj.containerClass ∧
      ∃ t, Least p σ (.object ⟨t, obj.site⟩)
  sets : u.sets.size = u.pointers.size

/-- Sets stay as they are, except that new pointers have empty ones. -/
def Universe.KeepsSets (u u' : Universe) : Prop :=
  (∀ h set, u.sets.get? h = some set → u'.sets.get? h = some set) ∧
    ∀ h set, u'.sets.get? h = some set → u.sets.get? h = some set ∨ set = .empty

/-- The tables `u'` and `heap'` continue `u` and `heap`, and are in order again. -/
structure Continues (p : Program) (σ : Sensitivity) (u : Universe) (heap : Heap) (u' : Universe)
    (heap' : Heap) : Prop where
  rows : Rows p σ u' heap'
  world : u.Extends u'
  heap : heap.objects.Extends heap'.objects
  sets : Universe.KeepsSets u u'

namespace Rows

variable {p : Program} {σ : Sensitivity} {u : Universe} {heap : Heap} (hr : Rows p σ u heap)
include hr

/-- An object of the least closed set may be given a handle. -/
theorem internObj {q : Qualified ObjId} {o : ObjName} (hq : u.objKeyName? heap q = some o)
    (ho : Least p σ (.object o)) :
    Continues p σ u heap (u.obj q).2 heap ∧ (u.obj q).2.objName? heap (u.obj q).1 = some o := by
  have hu : u.Extends (u.obj q).2 := { Universe.Extends.refl u with objs := Table.extends_intern _ _ }
  have hn := hr.named.mono hu (.refl _)
  have hq' := Universe.objKeyName?_mono hu (.refl _) hq
  refine ⟨⟨?_, hu, .refl _, fun _ _ h => h, fun _ _ h => Or.inl h⟩, ?_⟩
  · exact { hr with
      named := { hn with objs := hn.objs.intern ⟨o, hq', ho⟩ }
      faithful := { hr.faithful with objs := hr.faithful.objs.intern q } }
  · exact Option.bind_eq_some_iff.2 ⟨q, Table.get?_intern _ _, hq'⟩

/-- A call site may be given a handle. -/
theorem internSite {q : Qualified StmtId} {n : ContextName × StmtId}
    (hq : u.keyName? heap q = some n) :
    Continues p σ u heap (u.site q).2 heap ∧ (u.site q).2.siteName? heap (u.site q).1 = some n := by
  have hu : u.Extends (u.site q).2 :=
    { Universe.Extends.refl u with sites := Table.extends_intern _ _ }
  have hn := hr.named.mono hu (.refl _)
  have hq' := Universe.keyName?_mono hu (.refl _) hq
  refine ⟨⟨?_, hu, .refl _, fun _ _ h => h, fun _ _ h => Or.inl h⟩, ?_⟩
  · exact { hr with
      named := { hn with sites := hn.sites.intern ⟨n, hq'⟩ }
      faithful := { hr.faithful with sites := hr.faithful.sites.intern q } }
  · exact Option.bind_eq_some_iff.2 ⟨q, Table.get?_intern _ _, hq'⟩

/-- A method of the least closed set may be given a handle. -/
theorem internMethod {q : Qualified MethodId} {t : ContextName} {m : MethodId}
    (hq : u.keyName? heap q = some (t, m)) (hm : Least p σ (.reaches t m)) :
    Continues p σ u heap (u.method q).2 heap ∧
      (u.method q).2.methodName? heap (u.method q).1 = some (t, m) := by
  have hu : u.Extends (u.method q).2 :=
    { Universe.Extends.refl u with methods := Table.extends_intern _ _ }
  have hn := hr.named.mono hu (.refl _)
  have hq' := Universe.keyName?_mono hu (.refl _) hq
  refine ⟨⟨?_, hu, .refl _, fun _ _ h => h, fun _ _ h => Or.inl h⟩, ?_⟩
  · exact { hr with
      named := { hn with methods := hn.methods.intern ⟨t, m, hq', hm⟩ }
      faithful := { hr.faithful with methods := hr.faithful.methods.intern q } }
  · exact Option.bind_eq_some_iff.2 ⟨q, Table.get?_intern _ _, hq'⟩

/-- A context of the least closed set may be given a handle. -/
theorem internContext {es : List ContextElem} {t : ContextName}
    (hes : heap.elemNames? es = some t) (ht : Least p σ (.context t)) :
    Continues p σ u heap { u with contexts := (u.contexts.intern es).2 } heap ∧
      ({ u with contexts := (u.contexts.intern es).2 } : Universe).contextName? heap
        (u.contexts.intern es).1 = some t := by
  have hu : u.Extends { u with contexts := (u.contexts.intern es).2 } :=
    { Universe.Extends.refl u with contexts := Table.extends_intern _ _ }
  have hn := hr.named.mono hu (.refl _)
  refine ⟨⟨?_, hu, .refl _, fun _ _ h => h, fun _ _ h => Or.inl h⟩, ?_⟩
  · exact { hr with
      named := { hn with contexts := hn.contexts.intern ⟨t, hes, ht⟩ }
      faithful := { hr.faithful with contexts := hr.faithful.contexts.intern es }
      empty := hu.contexts.get? hr.empty }
  · exact Option.bind_eq_some_iff.2 ⟨es, Table.get?_intern _ _, hes⟩

/-- A new pointer, however it is indexed. -/
theorem pushPointer {key : Pointer} {x : PointerName}
    (hnew : ∀ h, u.pointers.get? h ≠ some key) (hk : u.pointerKeyName? heap key = some x)
    (hx : Least p σ (.pointer x)) (ofVar : Multimap VarId PointerId) {u' : Universe}
    (hu' : u' = { u with
      pointers := u.pointers.push key
      sets := u.sets.push .empty
      ofVar := ofVar }) :
    Continues p σ u heap u' heap ∧ u'.pointerName? heap u.pointers.next = some x := by
  subst hu'
  have hu : u.Extends
      { u with pointers := u.pointers.push key, sets := u.sets.push .empty, ofVar := ofVar } :=
    { Universe.Extends.refl u with pointers := Table.extends_push _ _ }
  have hn := hr.named.mono hu (.refl _)
  have hk' := Universe.pointerKeyName?_mono hu (.refl _) hk
  refine ⟨⟨?_, hu, .refl _, ?_, ?_⟩, ?_⟩
  · exact { hr with
      named := { hn with pointers := hn.pointers.push ⟨x, hk', hx⟩ }
      faithful := { hr.faithful with pointers := hr.faithful.pointers.push hnew }
      sets := by rw [Table.size_push, Table.size_push, hr.sets] }
  · exact fun _ _ h => (Table.extends_push _ _).get? h
  · exact fun _ _ h => (Table.get?_push_cases h).imp id And.right
  · refine Option.bind_eq_some_iff.2 ⟨key, ?_, hk'⟩
    rw [Table.get?_push, if_pos rfl]

/-- A location of the least closed set may be given a handle; a new one gets an empty set. -/
theorem internPointer {key : Pointer} {x : PointerName} (hk : u.pointerKeyName? heap key = some x)
    (hx : Least p σ (.pointer x)) :
    Continues p σ u heap (u.pointer key).2 heap ∧
      (u.pointer key).2.pointerName? heap (u.pointer key).1 = some x := by
  rcases u.pointer_cases key with ⟨h, hh, e⟩ | ⟨hnew, e⟩
  · rw [e]
    refine ⟨⟨hr, .refl _, .refl _, fun _ _ h => h, fun _ _ h => Or.inl h⟩, ?_⟩
    exact Option.bind_eq_some_iff.2 ⟨key, hh, hk⟩
  · rw [e]
    exact hr.pushPointer hnew hk hx _ rfl

/-- A new abstract object, of an allocation statement that had none. -/
theorem alloc {obj : Obj} (hnew : ∀ o obj', heap.objects.get? o = some obj' → obj'.site ≠ obj.site)
    (ht : p.Allocates obj.site obj.type) (hc : p.WrittenIn obj.site obj.containerClass)
    {t : ContextName} (hobj : Least p σ (.object ⟨t, obj.site⟩)) :
    Continues p σ u heap u ⟨heap.objects.push obj⟩ := by
  have hh : heap.objects.Extends (heap.objects.push obj) := Table.extends_push _ _
  have hsites : heap.objects.KeyedBy Obj.site := hr.faithful.heap
  refine ⟨?_, .refl _, hh, fun _ _ h => h, fun _ _ h => Or.inl h⟩
  exact { hr with
    named := hr.named.mono (.refl _) hh
    faithful := { hr.faithful with heap := hsites.push hnew }
    heap := hr.heap.push ⟨ht, hc, t, hobj⟩ }

end Rows

/-! ## Contents -/

section Sound

variable (F : Fact → Prop) (u : Universe) (heap : Heap)

/-- By the facts `F` the pointer `h` may refer to `q`. -/
def RefersIn (h : PointerId) (q : QObjId) : Prop :=
  ∃ x o, u.pointerName? heap h = some x ∧ u.objName? heap q = some o ∧ F (.refers x o)

/-- By the facts `F` references flow from `a` to `b`. -/
def FlowsIn (a b : PointerId) : Prop :=
  ∃ x y, u.pointerName? heap a = some x ∧ u.pointerName? heap b = some y ∧ F (.flows x y)

/-- By the facts `F` there is a call. -/
def CallsIn (e : CallEdge QSiteId QMethodId) : Prop :=
  ∃ t s t' m, u.siteName? heap e.site = some (t, s) ∧
    u.methodName? heap e.callee = some (t', m) ∧ F (.calls e.kind t s t' m)

/-- A delivery brings a pointer what it may refer to. -/
structure Delivers (d : Delivery) : Prop where
  ascending : d.objs.Ascending
  target : ∃ x, u.pointerName? heap d.target = some x
  objs : ∀ q ∈ d.objs, RefersIn F u heap d.target q

end Sound

section Mono

variable {F : Fact → Prop} {u u' : Universe} {heap heap' : Heap} (hu : u.Extends u')
  (hh : heap.objects.Extends heap'.objects)
include hu hh

theorem RefersIn.mono {h : PointerId} {q : QObjId} (hq : RefersIn F u heap h q) :
    RefersIn F u' heap' h q := by
  obtain ⟨x, o, hx, ho, hf⟩ := hq
  exact ⟨x, o, Universe.pointerName?_mono hu hh hx, Universe.objName?_mono hu hh ho, hf⟩

theorem FlowsIn.mono {a b : PointerId} (hab : FlowsIn F u heap a b) : FlowsIn F u' heap' a b := by
  obtain ⟨x, y, hx, hy, hf⟩ := hab
  exact ⟨x, y, Universe.pointerName?_mono hu hh hx, Universe.pointerName?_mono hu hh hy, hf⟩

theorem CallsIn.mono {e : CallEdge QSiteId QMethodId} (he : CallsIn F u heap e) :
    CallsIn F u' heap' e := by
  obtain ⟨t, s, t', m, hs, hm, hf⟩ := he
  exact ⟨t, s, t', m, Universe.siteName?_mono hu hh hs, Universe.methodName?_mono hu hh hm, hf⟩

theorem Delivers.mono {d : Delivery} (hd : Delivers F u heap d) : Delivers F u' heap' d where
  ascending := hd.ascending
  target := hd.target.imp fun _ => Universe.pointerName?_mono hu hh
  objs q hq := (hd.objs q hq).mono hu hh

end Mono

/-! ## Valid states -/

/-- A state of which all contents belong to the least closed set, and in which no edge of the flow
graph lags behind. -/
structure Valid (p : Program) (σ : Sensitivity) (s : State) : Prop where
  rows : Rows p σ s.world s.heap
  ascending : ∀ h set, s.world.sets.get? h = some set → set.Ascending
  holds : ∀ h q, s.world.Holds h q → RefersIn (Least p σ) s.world s.heap h q
  pending : ∀ d ∈ s.workList.toList, Delivers (Least p σ) s.world s.heap d
  flow : ∀ a b, s.flow.hasEdge a b = true → FlowsIn (Least p σ) s.world s.heap a b
  /-- What the source of an edge refers to is at its target, or on its way there. -/
  covered : ∀ a b q, s.flow.hasEdge a b = true → s.world.Holds a q →
    s.world.Holds b q ∨ Awaits s.workList.toList b q
  counted : s.flow.Counted
  reachable : ∀ m ∈ s.calls.reachable, ∃ n, s.world.methodName? s.heap m = some n
  nodup : s.calls.reachable.Nodup
  edges : ∀ e ∈ s.calls.edges, CallsIn (Least p σ) s.world s.heap e
  indexed : s.calls.Indexed

section Valid

variable {p : Program} {σ : Sensitivity} {s : State}

/-- The method a handle names can run. -/
theorem Rows.reaches {u : Universe} {heap : Heap} (hr : Rows p σ u heap) {h : QMethodId}
    {t : ContextName} {m : MethodId} (hm : u.methodName? heap h = some (t, m)) :
    Least p σ (.reaches t m) := by
  obtain ⟨q, hq, hn⟩ := Option.bind_eq_some_iff.1 hm
  obtain ⟨t', m', hn', hf⟩ := hr.named.methods h q hq
  obtain ⟨rfl, rfl⟩ := Prod.mk.inj (Option.some.inj (hn.symm.trans hn'))
  exact hf

/-- The location a handle names is in use. -/
theorem Rows.pointer {u : Universe} {heap : Heap} (hr : Rows p σ u heap) {h : PointerId}
    {x : PointerName} (hx : u.pointerName? heap h = some x) : Least p σ (.pointer x) :=
  hr.named.pointers.of_name hx

/-- The object a handle names exists. -/
theorem Rows.object {u : Universe} {heap : Heap} (hr : Rows p σ u heap) {h : QObjId}
    {o : ObjName} (ho : u.objName? heap h = some o) : Least p σ (.object o) :=
  hr.named.objs.of_name ho

/-- The context a handle names is in use. -/
theorem Rows.context {u : Universe} {heap : Heap} (hr : Rows p σ u heap) {c : ContextId}
    {t : ContextName} (hc : u.contextName? heap c = some t) : Least p σ (.context t) :=
  hr.named.contexts.of_name hc

namespace Valid

variable (hv : Valid p σ s)
include hv

/-- All that a valid state knows belongs to the least closed set. -/
theorem knows {f : Fact} (hf : s.Knows f) : Least p σ f := by
  -- names are unique, so it does not matter by which of them a fact is known
  have hrefers : ∀ {h q x o}, RefersIn (Least p σ) s.world s.heap h q →
      s.world.pointerName? s.heap h = some x → s.world.objName? s.heap q = some o →
      Least p σ (.refers x o) := by
    intro h q x o hq hx ho
    obtain ⟨x', o', hx', ho', hf⟩ := hq
    obtain rfl := Option.some.inj (hx.symm.trans hx')
    obtain rfl := Option.some.inj (ho.symm.trans ho')
    exact hf
  cases f with
  | context t => exact hf.elim fun _ h => hv.rows.context h
  | object o => exact hf.elim fun _ h => hv.rows.object h
  | pointer x => exact hf.elim fun _ h => hv.rows.pointer h
  | reaches t m => exact hf.elim fun _ h => hv.rows.reaches h.2
  | calls kind t i t' m =>
    obtain ⟨e, he, rfl, hs, hm⟩ := hf
    obtain ⟨u, j, u', m', hs', hm', hc⟩ := hv.edges e he
    obtain ⟨rfl, rfl⟩ := Prod.mk.inj (Option.some.inj (hs.symm.trans hs'))
    obtain ⟨rfl, rfl⟩ := Prod.mk.inj (Option.some.inj (hm.symm.trans hm'))
    exact hc
  | flows x y =>
    obtain ⟨a, b, hab, ha, hb⟩ := hf
    obtain ⟨x', y', ha', hb', hc⟩ := hv.flow a b hab
    obtain rfl := Option.some.inj (ha.symm.trans ha')
    obtain rfl := Option.some.inj (hb.symm.trans hb')
    exact hc
  | refers x o =>
    obtain ⟨h, q, hx, ho, hq | ⟨d, hd, rfl, hq⟩⟩ := hf
    · exact hrefers (hv.holds h q hq) hx ho
    · exact hrefers ((hv.pending d hd).objs q hq) hx ho

/-- A state stays valid while its tables grow. -/
theorem grow {u : Universe} {heap : Heap} (hc : Continues p σ s.world s.heap u heap) :
    Valid p σ { s with world := u, heap := heap } ∧
      Grows s { s with world := u, heap := heap } := by
  have hg : Grows s { s with world := u, heap := heap } :=
    { Grows.refl s with
      world := hc.world
      heap := hc.heap
      sets := hc.sets.1
      newSets := hc.sets.2 }
  refine ⟨?_, hg⟩
  exact
    { hv with
      rows := hc.rows
      ascending := fun h set hset => by
        rcases hc.sets.2 h set hset with hset | rfl
        · exact hv.ascending h set hset
        · exact AscendingSet.ascending_empty
      holds := fun h q hq => (hv.holds h q (hg.holds_of hq)).mono hc.world hc.heap
      pending := fun d hd => (hv.pending d hd).mono hc.world hc.heap
      flow := fun a b hab => (hv.flow a b hab).mono hc.world hc.heap
      covered := fun a b q hab hq => (hv.covered a b q hab (hg.holds_of hq)).imp hg.holds id
      reachable := fun m hm => (hv.reachable m hm).imp fun _ =>
        Universe.methodName?_mono hc.world hc.heap
      edges := fun e he => (hv.edges e he).mono hc.world hc.heap }

end Valid

end Valid

end PointerAnalysis.Solver
