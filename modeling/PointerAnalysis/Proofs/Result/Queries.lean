import PointerAnalysis.Analyzer
import PointerAnalysis.Proofs.Result.Index

/-!
# Answers of a result

What a result answers without contexts is what its run found under any of them.  Abstract objects
are known by their allocation statements, so the answers of two results can be compared.

## Main definitions

- `Result.Readable`: the parts of a result fit together.
- `Result.Collects`: an answer holds what certain locations refer to.

## Main statements

- `Readable.pointsTo`, `Readable.instanceFieldPointsTo` and so on: what the answers hold.
- `Readable.exists_plainCallGraph`: the calls without contexts are the calls under any context.
- `readable_of_analyzeWith`: the results of analyses are readable.
-/

namespace PointerAnalysis

open Solver

/-! ## Call graphs without contexts -/

section Projection

variable (world : Universe)

/-- A pass that makes the methods of the handles reachable, one after the other. -/
theorem exists_foldlM_reaching
    (grow : CallGraph StmtId MethodId → MethodId → CallGraph StmtId MethodId)
    (hindexed : ∀ g m, g.Indexed → (grow g m).Indexed) (hedges : ∀ g m, (grow g m).edges = g.edges)
    (hreach : ∀ g m m', m' ∈ (grow g m).reachable ↔ m' ∈ g.reachable ∨ m' = m)
    (hs : List QMethodId) (hrows : ∀ h ∈ hs, ∃ q, world.methods.get? h = some q)
    {g : CallGraph StmtId MethodId} (hg : g.Indexed) :
    ∃ g', hs.foldlM (fun g h => do return grow g (← world.methodAt h).entity) g = .ok g' ∧
      g'.Indexed ∧ g'.edges = g.edges ∧ ∀ m, m ∈ g'.reachable ↔
        m ∈ g.reachable ∨ ∃ h ∈ hs, ∃ c, world.methods.get? h = some ⟨c, m⟩ := by
  refine Outcome.exists_foldlM_eq_ok
    (P := fun (done : List QMethodId) (g' : CallGraph StmtId MethodId) =>
      g'.Indexed ∧ g'.edges = g.edges ∧ ∀ m, m ∈ g'.reachable ↔
        m ∈ g.reachable ∨ ∃ h ∈ done, ∃ c, world.methods.get? h = some ⟨c, m⟩)
    ⟨hg, rfl, fun m => by simp⟩ ?_
  intro done h g' hh hP
  obtain ⟨hi, he, hmem⟩ := hP
  obtain ⟨⟨c, m'⟩, hq⟩ := hrows h hh
  refine ⟨grow g' m', ?_, hindexed _ _ hi, (hedges _ _).trans he, fun m => ?_⟩
  · simp only [Universe.methodAt, hq, Outcome.ofRow]
    rfl
  · rw [hreach, hmem]
    simp [hq, or_and_right, exists_or, or_assoc, eq_comm]

/-- An edge without contexts stands for an edge of a run. -/
def Projects (e : CallEdge QSiteId QMethodId) (e' : CallEdge StmtId MethodId) :
    Prop :=
  e'.kind = e.kind ∧ ∃ c c', world.sites.get? e.site = some ⟨c, e'.site⟩ ∧
    world.methods.get? e.callee = some ⟨c', e'.callee⟩

theorem projects_of_names {heap : Heap} {e : CallEdge QSiteId QMethodId} {t t' : ContextName}
    {s : StmtId} {m : MethodId} (hs : world.siteName? heap e.site = some (t, s))
    (hm : world.methodName? heap e.callee = some (t', m)) : Projects world e ⟨e.kind, s, m⟩ := by
  obtain ⟨⟨c, s'⟩, hsite, hkey⟩ := Option.bind_eq_some_iff.1 hs
  obtain ⟨-, rfl⟩ := Universe.keyName?_eq_some.1 hkey
  obtain ⟨⟨c', m'⟩, hcallee, hkey'⟩ := Option.bind_eq_some_iff.1 hm
  obtain ⟨-, rfl⟩ := Universe.keyName?_eq_some.1 hkey'
  exact ⟨rfl, c, c', hsite, hcallee⟩

/-- The pass over the calls adds an edge for each, unless there is one between its ends. -/
theorem exists_foldlM_addEdge (es : List (CallEdge QSiteId QMethodId))
    (hrows : ∀ e ∈ es, ∃ e', Projects world e e') {g : CallGraph StmtId MethodId}
    (hg : g.Indexed) (hnone : g.edges = []) :
    ∃ g', es.foldlM (fun g e => do
        let site := (← world.siteAt e.site).entity
        let callee := (← world.methodAt e.callee).entity
        return (g.addEdge ⟨e.kind, site, callee⟩).2) g = .ok g' ∧
      g'.Indexed ∧ g'.reachable = g.reachable ∧
      (∀ e' ∈ g'.edges, ∃ e ∈ es, Projects world e e') ∧
      ∀ e ∈ es, ∀ e', Projects world e e' → g'.hasEdge e'.site e'.callee = true := by
  refine Outcome.exists_foldlM_eq_ok
    (P := fun (done : List (CallEdge QSiteId QMethodId)) (g' : CallGraph StmtId MethodId) =>
      g'.Indexed ∧ g'.reachable = g.reachable ∧
      (∀ e' ∈ g'.edges, ∃ e ∈ done, Projects world e e') ∧
      ∀ e ∈ done, ∀ e', Projects world e e' → g'.hasEdge e'.site e'.callee = true)
    ⟨hg, rfl, by simp [hnone], by simp⟩ ?_
  intro done e g' he hP
  obtain ⟨hi, hr, hfrom, hto⟩ := hP
  obtain ⟨e', hproj⟩ := hrows e he
  obtain ⟨hk, c, c', hsite, hcallee⟩ := id hproj
  -- the pass adds the edge that stands for `e`, and no other
  have honly : ∀ e₂, Projects world e e₂ → e₂ = e' := by
    intro e₂ h₂
    obtain ⟨hk₂, c₂, c₂', hsite₂, hcallee₂⟩ := h₂
    obtain ⟨-, hs⟩ := Qualified.mk.inj (Option.some.inj (hsite.symm.trans hsite₂))
    obtain ⟨-, hm⟩ := Qualified.mk.inj (Option.some.inj (hcallee.symm.trans hcallee₂))
    cases e₂
    cases e'
    simp_all
  refine ⟨(g'.addEdge e').2, ?_, ?_⟩
  · simp only [Universe.siteAt, Universe.methodAt, hsite, hcallee, Outcome.ofRow]
    rw [← hk]
    rfl
  · cases hedge : g'.hasEdge e'.site e'.callee with
    | true =>
      rw [CallGraph.addEdge_of_hasEdge hedge]
      refine ⟨hi, hr, fun e₂ h₂ => ?_, fun e₁ h₁ e₂ h₂ => ?_⟩
      · obtain ⟨e₁, h₁, hproj₁⟩ := hfrom e₂ h₂
        exact ⟨e₁, List.mem_append_left _ h₁, hproj₁⟩
      · rcases List.mem_append.1 h₁ with h₁ | h₁
        · exact hto e₁ h₁ e₂ h₂
        · obtain rfl := List.mem_singleton.1 h₁
          rw [honly e₂ h₂, hedge]
    | false =>
      have hi' := hi.addEdge hedge
      refine ⟨hi', CallGraph.reachable_addEdge.trans hr, fun e₂ h₂ => ?_, fun e₁ h₁ e₂ h₂ => ?_⟩
      · rw [CallGraph.edges_addEdge hedge] at h₂
        rcases List.mem_append.1 h₂ with h₂ | h₂
        · obtain ⟨e₁, h₁, hproj₁⟩ := hfrom e₂ h₂
          exact ⟨e₁, List.mem_append_left _ h₁, hproj₁⟩
        · obtain rfl := List.mem_singleton.1 h₂
          exact ⟨e, List.mem_append_right _ (List.mem_singleton_self _), hproj⟩
      · rw [hi'.pairs, CallGraph.edges_addEdge hedge]
        rcases List.mem_append.1 h₁ with h₁ | h₁
        · obtain ⟨e₃, h₃, hends⟩ := (hi.pairs _ _).1 (hto e₁ h₁ e₂ h₂)
          exact ⟨e₃, List.mem_append_left _ h₃, hends⟩
        · obtain rfl := List.mem_singleton.1 h₁
          rw [honly e₂ h₂]
          exact ⟨e', List.mem_append_right _ (List.mem_singleton_self _), rfl, rfl⟩

end Projection

namespace Result

variable {r : Result}

/-! ## Readable results -/

/-- The parts of a result fit together: its output can be read, and its indexes describe it. -/
structure Readable (r : Result) : Prop where
  legible : r.output.Legible
  describes : r.index.Describes r.output
  varsIndexed : r.output.world.VarsIndexed
  entries : ∀ h ∈ r.output.calls.entries, h ∈ r.output.calls.reachable

/-- An answer holds what the locations `X` refer to. -/
def Collects (r : Result) (X : PointerName → Prop) (answer : Outcome (AscendingSet ObjId)) :
    Prop :=
  ∃ os, answer = .ok os ∧ ∀ o, o ∈ os ↔
    ∃ obj x t, r.obj o = .ok obj ∧ X x ∧ r.output.facts (.refers x ⟨t, obj.site⟩)

namespace Readable

variable (hr : r.Readable)
include hr

/-! ### Objects -/

/-- The objects under heap contexts that stand for an object are those with its site. -/
theorem entity_iff {o : ObjId} {obj : Obj} (ho : r.obj o = .ok obj) {base : QObjId} :
    (∃ q, r.output.world.objs.get? base = some q ∧ q.entity = o) ↔
      ∃ t, r.output.world.objName? r.output.heap base = some ⟨t, obj.site⟩ := by
  have ho : r.output.heap.objects.get? o = some obj := Outcome.ofRow_eq_ok.1 ho
  constructor
  · intro h
    obtain ⟨q, hq, rfl⟩ := h
    obtain ⟨n, hn⟩ := hr.legible.objs base (Table.has_of_get? hq)
    obtain ⟨q', hq', hkey⟩ := Option.bind_eq_some_iff.1 hn
    obtain rfl := Option.some.inj (hq'.symm.trans hq)
    obtain ⟨-, obj', ho', hs⟩ := Universe.objKeyName?_eq_some.1 hkey
    obtain rfl := Option.some.inj (ho'.symm.trans ho)
    exact ⟨n.context, by rw [hs]; exact hn⟩
  · intro h
    obtain ⟨t, ht⟩ := h
    obtain ⟨q, hq, hkey⟩ := Option.bind_eq_some_iff.1 ht
    obtain ⟨-, obj', ho', hs⟩ := Universe.objKeyName?_eq_some.1 hkey
    -- no two objects share a site
    exact ⟨q, hq, hr.legible.faithful.heap _ _ _ _ ho' ho hs⟩

/-- Every object under a heap context stands for an object. -/
theorem exists_obj {q : QObjId} (hq : r.output.world.objs.Has q) :
    ∃ key obj, r.output.world.objs.get? q = some key ∧ r.obj key.entity = .ok obj := by
  obtain ⟨n, hn⟩ := hr.legible.objs q hq
  obtain ⟨key, hkey, hn⟩ := Option.bind_eq_some_iff.1 hn
  obtain ⟨-, obj, hobj, -⟩ := Universe.objKeyName?_eq_some.1 hn
  exact ⟨key, obj, hkey, Outcome.ofRow_eq_ok.2 hobj⟩

/-! ### Points-to sets -/

/-- Sets of several pointers are brought together. -/
theorem exists_projectAll (hs : List PointerId) (hhas : ∀ h ∈ hs, r.output.world.pointers.Has h) :
    ∃ os, r.projectAll hs = .ok os ∧ ∀ o, o ∈ os ↔ ∃ h ∈ hs, ∃ q,
      r.output.world.Holds h q ∧ ∃ key, r.output.world.objs.get? q = some key ∧ key.entity = o := by
  -- the set of each pointer is there, and so are the objects in it
  have hone : ∀ h ∈ hs, ∃ objs, (do r.project (← r.output.world.setOf h)) = Except.ok objs := by
    intro h hh
    have hset : r.output.world.sets.Has h := by
      unfold Table.Has
      rw [hr.legible.sets]
      exact hhas h hh
    obtain ⟨set, hset⟩ := Table.exists_get? hset
    obtain ⟨objs, hobjs⟩ := Outcome.exists_mapM
      (f := fun q => Qualified.entity <$> r.output.world.objAt q) (by
        intro q (hq : q ∈ set.toList)
        obtain ⟨key, -, hkey, -⟩ := hr.exists_obj (hr.legible.holds h q ⟨set, hset, hq⟩)
        exact ⟨key.entity, Outcome.map_eq_ok.2 ⟨key, Outcome.ofRow_eq_ok.2 hkey, rfl⟩⟩)
    exact ⟨objs, Outcome.bind_eq_ok.2 ⟨set, Outcome.ofRow_eq_ok.2 hset, hobjs⟩⟩
  obtain ⟨lists, hlists⟩ := Outcome.exists_mapM hone
  refine ⟨_, Outcome.bind_eq_ok.2 ⟨lists, hlists, rfl⟩, fun o => ?_⟩
  rw [AscendingSet.mem_ofList, List.mem_flatten]
  simp only [Outcome.mem_of_mapM_eq_ok hlists]
  constructor
  · intro ho
    obtain ⟨objs, ⟨h, hh, hproject⟩, ho⟩ := ho
    obtain ⟨set, hset, hobjs⟩ := Outcome.bind_eq_ok.1 hproject
    obtain ⟨q, hq, hentity⟩ := (Outcome.mem_of_mapM_eq_ok hobjs).1 ho
    obtain ⟨key, hkey, rfl⟩ := Outcome.map_eq_ok.1 hentity
    exact ⟨h, hh, q, ⟨set, Outcome.ofRow_eq_ok.1 hset, hq⟩, key, Outcome.ofRow_eq_ok.1 hkey, rfl⟩
  · intro ho
    obtain ⟨h, hh, q, ⟨set, hset, hq⟩, key, hkey, rfl⟩ := ho
    obtain ⟨objs, hobjs⟩ := hone h hh
    refine ⟨objs, ⟨h, hh, hobjs⟩, ?_⟩
    obtain ⟨set', hset', hobjs⟩ := Outcome.bind_eq_ok.1 hobjs
    obtain rfl := Option.some.inj ((Outcome.ofRow_eq_ok.1 hset').symm.trans hset)
    exact (Outcome.mem_of_mapM_eq_ok hobjs).2
      ⟨q, hq, Outcome.map_eq_ok.2 ⟨key, Outcome.ofRow_eq_ok.2 hkey, rfl⟩⟩

/-- A query over pointers collects what the locations refer to that the pointers are named by. -/
theorem collects {X : PointerName → Prop} {hs : List PointerId}
    (hmem : ∀ h, h ∈ hs ↔ ∃ x, X x ∧ r.output.world.pointerName? r.output.heap h = some x) :
    r.Collects X (r.projectAll hs) := by
  obtain ⟨os, hos, ho⟩ := hr.exists_projectAll hs fun h hh => by
    obtain ⟨x, -, hx⟩ := (hmem h).1 hh
    exact Table.has_of_name hx
  refine ⟨os, hos, fun o => ?_⟩
  rw [ho]
  constructor
  · intro h
    obtain ⟨h, hh, q, hq, hkey⟩ := h
    obtain ⟨x, hX, hx⟩ := (hmem h).1 hh
    obtain ⟨key, obj, hkey', hobj⟩ := hr.exists_obj (hr.legible.holds h q hq)
    obtain ⟨key, hkey, rfl⟩ := hkey
    obtain rfl := Option.some.inj (hkey'.symm.trans hkey)
    obtain ⟨t, ht⟩ := (hr.entity_iff hobj).1 ⟨_, hkey, rfl⟩
    exact ⟨obj, x, t, hobj, hX, h, q, hx, ht, Or.inl hq⟩
  · intro h
    obtain ⟨obj, x, t, hobj, hX, h, q, hx, ht, hq⟩ := h
    refine ⟨h, (hmem h).2 ⟨x, hX, hx⟩, q, ?_, (hr.entity_iff hobj).2 ⟨t, ht⟩⟩
    -- nothing counts as on its way in an output
    rcases hq with hq | ⟨d, hd, -⟩
    · exact hq
    · cases hd

theorem pointsTo (v : VarId) : r.Collects (fun x => ∃ t, x = .var t v) (r.pointsTo v) := by
  refine hr.collects fun h => ?_
  rw [show r.output.world.pointersOf v = r.output.world.ofVar.get v from rfl, hr.varsIndexed.mem]
  constructor
  · intro hh
    obtain ⟨c, hc⟩ := hh
    obtain ⟨x, hx⟩ := hr.legible.pointers h (Table.has_of_get? hc)
    obtain ⟨key, hkey, hname⟩ := Option.bind_eq_some_iff.1 hx
    obtain rfl := Option.some.inj (hkey.symm.trans hc)
    obtain ⟨t, -, rfl⟩ := Option.map_eq_some_iff.1 hname
    exact ⟨_, ⟨t, rfl⟩, hx⟩
  · intro hh
    obtain ⟨_, ⟨t, rfl⟩, hx⟩ := hh
    obtain ⟨key, hkey, hname⟩ := Option.bind_eq_some_iff.1 hx
    obtain ⟨c, rfl, -⟩ := Universe.pointerKeyName?_eq_var.1 hname
    exact ⟨c, hkey⟩

theorem staticFieldPointsTo (f : FieldId) :
    r.Collects (fun x => x = .staticField f) (r.staticFieldPointsTo f) := by
  refine hr.collects fun h => ?_
  have hfind : r.output.world.findPointer? (.staticField f) = some h ↔
      r.output.world.pointers.get? h = some (.staticField f) :=
    hr.legible.faithful.pointers.find?_eq_some_iff
  simp only [Option.mem_toList, exists_eq_left, Universe.pointerName?, Option.bind_eq_some_iff,
    Universe.pointerKeyName?_eq_staticField, hfind, exists_eq_right]

/-- The pointers that belong to an object are named by its site. -/
theorem mem_slots_iff {o : ObjId} {obj : Obj} (ho : r.obj o = .ok obj) (key : QObjId → Pointer)
    (name : ObjName → PointerName)
    (hname : ∀ x n, r.output.world.pointerKeyName? r.output.heap x = some (name n) ↔
      ∃ b, x = key b ∧ r.output.world.objName? r.output.heap b = some n) (h : PointerId) :
    (∃ x, r.output.world.pointers.get? h = some x ∧ Index.OnObject r.output.world o key x) ↔
      ∃ x, (∃ t, x = name ⟨t, obj.site⟩) ∧
        r.output.world.pointerName? r.output.heap h = some x := by
  constructor
  · intro hh
    obtain ⟨_, hx, base, q, rfl, hq, he⟩ := hh
    obtain ⟨t, ht⟩ := (hr.entity_iff ho).1 ⟨q, hq, he⟩
    exact ⟨_, ⟨t, rfl⟩, Option.bind_eq_some_iff.2 ⟨_, hx, (hname _ _).2 ⟨base, rfl, ht⟩⟩⟩
  · intro hh
    obtain ⟨_, ⟨t, rfl⟩, hx⟩ := hh
    obtain ⟨x, hx, hn⟩ := Option.bind_eq_some_iff.1 hx
    obtain ⟨base, rfl, hb⟩ := (hname _ _).1 hn
    obtain ⟨q, hq, he⟩ := (hr.entity_iff ho).2 ⟨t, hb⟩
    exact ⟨_, hx, base, q, rfl, hq, he⟩

theorem instanceFieldPointsTo {o : ObjId} {obj : Obj} (ho : r.obj o = .ok obj) (f : FieldId) :
    r.Collects (fun x => ∃ t, x = .instanceField ⟨t, obj.site⟩ f)
      (r.instanceFieldPointsTo o f) := by
  refine hr.collects fun h => ?_
  rw [hr.describes.fieldSlots]
  exact hr.mem_slots_iff ho (.instanceField · f) (.instanceField · f)
    (fun _ _ => Universe.pointerKeyName?_eq_instanceField) h

theorem arrayPointsTo {o : ObjId} {obj : Obj} (ho : r.obj o = .ok obj) :
    r.Collects (fun x => ∃ t, x = .arrayElems ⟨t, obj.site⟩) (r.arrayPointsTo o) := by
  refine hr.collects fun h => ?_
  rw [hr.describes.arraySlots]
  exact hr.mem_slots_iff ho .arrayElems .arrayElems
    (fun _ _ => Universe.pointerKeyName?_eq_arrayElems) h

/-! ### Methods and calls -/

/-- The methods that can run are those of the facts. -/
theorem reaches_iff (m : MethodId) :
    (∃ h ∈ r.output.calls.reachable, ∃ c, r.output.world.methods.get? h = some ⟨c, m⟩) ↔
      ∃ t, r.output.facts (.reaches t m) := by
  constructor
  · intro h
    obtain ⟨h, hh, c, hc⟩ := h
    obtain ⟨⟨t, m'⟩, hn⟩ := hr.legible.methods h (Table.has_of_get? hc)
    obtain ⟨q, hq, hkey⟩ := Option.bind_eq_some_iff.1 hn
    obtain rfl := Option.some.inj (hq.symm.trans hc)
    obtain ⟨-, rfl⟩ := Universe.keyName?_eq_some.1 hkey
    exact ⟨t, h, hh, hn⟩
  · intro h
    obtain ⟨t, h, hh, hn⟩ := h
    obtain ⟨⟨c, m'⟩, hq, hkey⟩ := Option.bind_eq_some_iff.1 hn
    obtain ⟨-, rfl⟩ := Universe.keyName?_eq_some.1 hkey
    exact ⟨h, hh, c, hq⟩

theorem isReachable_iff (m : MethodId) :
    r.isReachable m = true ↔ ∃ t, r.output.facts (.reaches t m) := by
  rw [isReachable, decide_eq_true_eq, hr.describes.reachable, ← hr.reaches_iff]
  exact ⟨fun ⟨c, h, hh, e⟩ => ⟨h, hh, c, e⟩, fun ⟨h, hh, c, e⟩ => ⟨c, h, hh, e⟩⟩

/-- The call graph without contexts projects the methods and the calls of a run. -/
theorem exists_projection :
    ∃ g, r.plainCallGraph = .ok g ∧ g.Indexed ∧
      (∀ m, m ∈ g.reachable ↔
        ∃ h ∈ r.output.calls.reachable, ∃ c, r.output.world.methods.get? h = some ⟨c, m⟩) ∧
      (∀ e' ∈ g.edges, ∃ e ∈ r.output.calls.edges, Projects r.output.world e e') ∧
      ∀ e ∈ r.output.calls.edges, ∀ e', Projects r.output.world e e' →
        g.hasEdge e'.site e'.callee = true := by
  have hrows : ∀ h ∈ r.output.calls.reachable, ∃ q, r.output.world.methods.get? h = some q :=
    fun h hh => Table.exists_get? (hr.legible.reachable h hh)
  obtain ⟨g₁, h₁, hi₁, he₁, hm₁⟩ := exists_foldlM_reaching r.output.world
    CallGraph.addEntry (fun g m hg => hg.addEntry m) (fun g m => CallGraph.edges_addEntry)
    (fun g m m' => CallGraph.mem_reachable_addEntry) r.output.calls.entries
    (fun h hh => hrows h (hr.entries h hh)) CallGraph.indexed_empty
  obtain ⟨g₂, h₂, hi₂, he₂, hm₂⟩ := exists_foldlM_reaching r.output.world
    (fun g m => (g.reach m).2) (fun g m hg => hg.reach m)
    (fun g m => CallGraph.edges_reach) (fun g m m' => CallGraph.mem_reachable_reach)
    r.output.calls.reachable hrows hi₁
  obtain ⟨g₃, h₃, hi₃, hr₃, hfrom, hto⟩ := exists_foldlM_addEdge r.output.world
    r.output.calls.edges (fun e he => by
      obtain ⟨⟨c, s⟩, hs⟩ := Table.exists_get? (hr.legible.edges e he).1
      obtain ⟨⟨c', m⟩, hm⟩ := Table.exists_get? (hr.legible.edges e he).2
      exact ⟨⟨e.kind, s, m⟩, rfl, c, c', hs, hm⟩) hi₂ (he₂.trans he₁)
  refine ⟨g₃, Outcome.bind_eq_ok.2 ⟨g₁, h₁, Outcome.bind_eq_ok.2 ⟨g₂, h₂, h₃⟩⟩, hi₃,
    fun m => ?_, hfrom, hto⟩
  rw [hr₃, hm₂, hm₁]
  simp only [CallGraph.reachable_empty, List.not_mem_nil, false_or]
  -- the entries are among the methods that can run
  exact ⟨fun h => h.elim (fun ⟨h, hh, e⟩ => ⟨h, hr.entries h hh, e⟩) id, Or.inr⟩

/-- The call graph without contexts has the methods and the calls of the facts. -/
theorem exists_plainCallGraph :
    ∃ g, r.plainCallGraph = .ok g ∧
      (∀ m, m ∈ g.reachable ↔ ∃ t, r.output.facts (.reaches t m)) ∧
      (∀ e ∈ g.edges, ∃ t t', r.output.facts (.calls e.kind t e.site t' e.callee)) ∧
      ∀ kind t s t' m, r.output.facts (.calls kind t s t' m) →
        ∃ e ∈ g.edges, e.site = s ∧ e.callee = m := by
  obtain ⟨g, hg, hindexed, hreachable, hfrom, hto⟩ := hr.exists_projection
  refine ⟨g, hg, fun m => ?_, fun e' he' => ?_, fun kind t s t' m hf => ?_⟩
  · rw [hreachable, hr.reaches_iff]
  · obtain ⟨e, he, hk, c, c', hsite, hcallee⟩ := hfrom e' he'
    -- both ends of the edge have names
    obtain ⟨⟨t, s⟩, hs⟩ := hr.legible.sites _ (hr.legible.edges e he).1
    obtain ⟨⟨t', m⟩, hm⟩ := hr.legible.methods _ (hr.legible.edges e he).2
    obtain ⟨-, c₂, c₂', hsite₂, hcallee₂⟩ := projects_of_names _ hs hm
    obtain ⟨-, rfl⟩ := Qualified.mk.inj (Option.some.inj (hsite₂.symm.trans hsite))
    obtain ⟨-, rfl⟩ := Qualified.mk.inj (Option.some.inj (hcallee₂.symm.trans hcallee))
    exact ⟨t, t', e, he, hk.symm, hs, hm⟩
  · obtain ⟨e, he, -, hs, hm⟩ := hf
    exact (hindexed.pairs _ _).1 (hto e he _ (projects_of_names _ hs hm))

end Readable

end Result

/-! ## Results of analyses -/

variable {p : Program} {σ : Sensitivity} {a : Analyzer} {r : Result}

/-- Every output of a run is made into a result. -/
theorem exists_ofOutput_of_solve (wf : p.WellFormed) {order : Order} {budget : Option Nat}
    {out : Output} (h : solve p σ order budget = .ok out) (label : String) :
    ∃ r, Result.ofOutput label out = .ok r ∧ r.output = out := by
  obtain ⟨index, hindex, -⟩ := Index.exists_ofOutput (legible_of_solve wf h)
  exact ⟨⟨out, index, label⟩, Outcome.bind_eq_ok.2 ⟨index, hindex, rfl⟩, rfl⟩

/-- An analysis gives a result if its run gives an output. -/
theorem exists_analyzeWith_of_solve (hp : p.Built) {out : Output}
    (h : solve p σ a.config.order a.config.budget = .ok out) :
    ∃ r, a.analyzeWith p σ = .ok r ∧ r.output = out := by
  obtain ⟨r, hr, hout⟩ := exists_ofOutput_of_solve hp.wellFormed h σ.label
  exact ⟨r, Outcome.bind_eq_ok.2 ⟨out, h, hr⟩, hout⟩

/-- The results of runs are readable. -/
theorem readable_of_solve (hp : p.Built) {order : Order} {budget : Option Nat} {out : Output}
    (h : solve p σ order budget = .ok out) {label : String}
    (hr : Result.ofOutput label out = .ok r) : r.output = out ∧ r.Readable := by
  obtain ⟨index, hindex, hr⟩ := Outcome.bind_eq_ok.1 hr
  obtain rfl := Outcome.pure_eq_ok.1 hr
  have hl := legible_of_solve hp.wellFormed h
  have hrooted := rooted_of_solve hp h
  obtain ⟨index', hindex', hd⟩ := Index.exists_ofOutput hl
  obtain rfl := Except.ok.inj (hindex.symm.trans hindex')
  refine ⟨rfl, hl, hd, hrooted.varsIndexed, fun h hh => ?_⟩
  obtain ⟨first, -, hentries, hfirst⟩ := hrooted.entry
  have hh : h ∈ out.calls.entries := hh
  rw [hentries, List.mem_singleton] at hh
  exact hh ▸ List.mem_of_getElem? hfirst

/-- The results of analyses are readable. -/
theorem readable_of_analyzeWith (hp : p.Built) (h : a.analyzeWith p σ = .ok r) :
    solve p σ a.config.order a.config.budget = .ok r.output ∧ r.Readable := by
  obtain ⟨out, hsolve, hr⟩ := Outcome.bind_eq_ok.1 h
  obtain ⟨rfl, hreadable⟩ := readable_of_solve hp hsolve hr
  exact ⟨hsolve, hreadable⟩

end PointerAnalysis
