import PointerAnalysis.Proofs.Solver.Logic
import PointerAnalysis.Proofs.Solver.Valid

/-!
# Operations on valid states

Each operation of a run keeps states valid when its arguments belong to the least closed set, and
makes known what it is asked to add.  No operation here touches the call graph.

## Main definitions

- `flowing`: states stay valid and grow, and no calls are found.

## Main statements

- `ensures_internPointer`, `ensures_chooseContext` and so on: an entity gets a handle of its name.
- `ensures_addFlow`: an edge becomes known, and what its source refers to is sent on.
-/

namespace PointerAnalysis.Solver

variable {p : Program} {σ : Sensitivity} {s : State}

/-! ## Equations -/

/-- An edge that is there already changes nothing. -/
theorem addFlow_eq_of_hasEdge {a b : PointerId} (h : s.flow.hasEdge a b = true) :
    addFlow a b s = .ok ((), s) := by
  apply (bind_run rfl).trans
  rw [FlowGraph.addEdge_of_hasEdge h]
  rfl

/-- A new edge forwards what its source refers to. -/
theorem addFlow_eq {a b : PointerId} {objs : PointsTo} (h : s.flow.hasEdge a b = false)
    (hset : s.world.sets.get? a = some objs) :
    addFlow a b s = .ok ((), { s with
      flow := (s.flow.addEdge a b).2
      workList := if objs.isEmpty then s.workList else s.workList.push ⟨b, objs⟩ }) := by
  have hsetOf : s.world.setOf a = .ok objs := Outcome.ofRow_eq_ok.2 hset
  apply (bind_run rfl).trans
  show (if (s.flow.addEdge a b).1 then _ else _ : SolverM Unit)
    { s with flow := (s.flow.addEdge a b).2 } = _
  rw [FlowGraph.addEdge_fst h]
  apply (bind_run (lift_run hsetOf)).trans
  cases hempty : objs.isEmpty with
  | true => rfl
  | false => rfl

/-- A source without a set is a handle of nothing. -/
theorem addFlow_eq_error {a b : PointerId} (h : s.flow.hasEdge a b = false)
    (hset : s.world.sets.get? a = none) : addFlow a b s = .error .dangling := by
  apply (bind_run rfl).trans
  show (if (s.flow.addEdge a b).1 then _ else _ : SolverM Unit)
    { s with flow := (s.flow.addEdge a b).2 } = _
  rw [FlowGraph.addEdge_fst h]
  refine bind_run_error (lift_run_error ?_)
  rw [Universe.setOf, hset]
  rfl

/-- Deliveries are queued behind those that wait, in the order of their targets. -/
theorem toList_foldl_push (w : WorkList) (targets : List PointerId) (objs : PointsTo) :
    (targets.foldl (fun w t => w.push ⟨t, objs⟩) w).toList =
      w.toList ++ targets.map fun t => ⟨t, objs⟩ := by
  induction targets generalizing w with
  | nil => simp
  | cons t targets ih =>
    rw [List.foldl_cons, ih, WorkList.toList_push, List.map_cons, List.append_assoc]
    rfl

/-- Delivering to each target fills the work list, and touches nothing else. -/
theorem forM_deliver_eq (targets : List PointerId) (objs : PointsTo) (s : State) :
    (targets.forM fun t => deliver t objs) s = .ok ((), { s with
      workList := targets.foldl (fun w t => w.push ⟨t, objs⟩) s.workList }) := by
  induction targets generalizing s with
  | nil => rfl
  | cons t targets ih =>
    rw [List.forM_eq_forM] at ih ⊢
    rw [List.forM_cons]
    exact ih { s with workList := s.workList.push ⟨t, objs⟩ }

/-- Objects that are new at a pointer are forwarded along all its edges. -/
theorem absorb_eq {target : PointerId} {objs set : PointsTo}
    (hset : s.world.sets.get? target = some set) :
    absorb target objs s = .ok ((set.absorb objs).2, { s with
      world := { s.world with sets := s.world.sets.modify target fun _ => (set.absorb objs).1 }
      workList :=
        if (set.absorb objs).2.isEmpty then s.workList
        else (s.flow.successorsOf target).foldl (fun w t => w.push ⟨t, (set.absorb objs).2⟩)
          s.workList }) := by
  have hworld : s.world.absorb target objs = .ok ((set.absorb objs).2,
      { s.world with sets := s.world.sets.modify target fun _ => (set.absorb objs).1 }) := by
    unfold Universe.absorb Universe.setOf
    rw [hset]
    rfl
  apply (bind_run rfl).trans
  apply (bind_run (lift_run hworld)).trans
  apply (bind_run rfl).trans
  -- nothing is forwarded if all objects were there before
  cases hempty : (set.absorb objs).2.isEmpty with
  | true => rfl
  | false => exact bind_run (forM_deliver_eq _ _ _)

/-! ## The discipline -/

section Discipline

variable (p : Program) (σ : Sensitivity)

/-- The errors of statements that the least closed set reaches. -/
def Reports (halt : Halt) : Prop := ∃ e, halt = .error e ∧ Fails p (Least p σ) e

/-- States stay valid and grow, and no calls are found. -/
def flowing : Discipline where
  invariant := Valid p σ
  grows s s' := Grows s s' ∧ s'.calls = s.calls
  reports := Reports p σ
  refl s := ⟨.refl s, rfl⟩
  trans h h' := ⟨h.1.trans h'.1, h'.2.trans h.2⟩

end Discipline

/-! ## Interning -/

section Interning

variable (hv : Valid p σ s)
include hv

/-- An operation on the tables alone. -/
theorem ensures_of_continues {α : Type} {x : SolverM α} {a : α} {u : Universe} {heap : Heap}
    {Q : α → State → Prop} (hx : x s = .ok (a, { s with world := u, heap := heap }))
    (hc : Continues p σ s.world s.heap u heap) (hq : Q a { s with world := u, heap := heap }) :
    Ensures (flowing p σ) x s Q := by
  obtain ⟨hv', hg⟩ := hv.grow hc
  exact .ok hx hv' ⟨hg, rfl⟩ hq

/-- A location gets a handle of its name, once it is known to be in use. -/
theorem ensures_internPointer {key : Pointer} {x : PointerName}
    (hk : s.world.pointerKeyName? s.heap key = some x) (hx : Least p σ (.pointer x)) :
    Ensures (flowing p σ) (internPointer key) s fun h s' =>
      s'.world.pointerName? s'.heap h = some x := by
  obtain ⟨hc, hn⟩ := hv.rows.internPointer hk hx
  exact ensures_of_continues hv rfl hc hn

/-- An object gets a handle of its name. -/
theorem ensures_internObj {q : Qualified ObjId} {o : ObjName}
    (hq : s.world.objKeyName? s.heap q = some o) (ho : Least p σ (.object o)) :
    Ensures (flowing p σ) (internObj q) s fun h s' => s'.world.objName? s'.heap h = some o := by
  obtain ⟨hc, hn⟩ := hv.rows.internObj hq ho
  exact ensures_of_continues hv rfl hc hn

/-- A call site gets a handle of its name. -/
theorem ensures_internSite {q : Qualified StmtId} {n : ContextName × StmtId}
    (hq : s.world.keyName? s.heap q = some n) :
    Ensures (flowing p σ) (internSite q) s fun h s' => s'.world.siteName? s'.heap h = some n := by
  obtain ⟨hc, hn⟩ := hv.rows.internSite hq
  exact ensures_of_continues hv rfl hc hn

/-- A method gets a handle of its name, once it is known that it can run. -/
theorem ensures_internMethod {q : Qualified MethodId} {t : ContextName} {m : MethodId}
    (hq : s.world.keyName? s.heap q = some (t, m)) (hm : Least p σ (.reaches t m)) :
    Ensures (flowing p σ) (internMethod q) s fun h s' =>
      s'.world.methodName? s'.heap h = some (t, m) := by
  obtain ⟨hc, hn⟩ := hv.rows.internMethod hq hm
  exact ensures_of_continues hv rfl hc hn

/-- A context that is chosen has the prescribed elements for its name. -/
theorem ensures_chooseContext {choice : ContextPool → Outcome (ContextId × ContextPool)}
    {t : ContextName} (hchoice : Chooses s.heap s.world.contexts choice t)
    (ht : Least p σ (.context t)) :
    Ensures (flowing p σ) (chooseContext choice) s fun c s' =>
      s'.world.contextName? s'.heap c = some t := by
  obtain ⟨es, hes, hrun⟩ := hchoice
  obtain ⟨hc, hn⟩ := hv.rows.internContext hes ht
  refine ensures_of_continues hv ?_ hc hn
  apply (bind_run rfl).trans
  exact bind_run (lift_run hrun)

/-- The abstract object of an allocation statement is that of its site. -/
theorem ensures_objFor (wf : p.WellFormed) {site : StmtId} {lhs : VarId} {type : RefType}
    (hs : p.stmtAt site = .ok (.alloc lhs type)) {t : ContextName}
    (ho : Least p σ (.object ⟨t, site⟩)) :
    Ensures (flowing p σ) (objFor p site) s fun o s' =>
      ∃ obj, s'.heap.objects.get? o = some obj ∧ obj.site = site := by
  -- a site that has been asked for before keeps its object
  cases hfind : s.heap.objects.find? fun o => o.site = site with
  | some o =>
    obtain ⟨obj, hobj, htest⟩ := Table.get?_find? hfind
    have hrun : s.heap.objFor p site = .ok (o, s.heap) := by
      unfold Heap.objFor
      rw [hfind]
      rfl
    refine .ok ((bind_run rfl).trans (bind_run (lift_run hrun))) hv ⟨.refl s, rfl⟩ ?_
    exact ⟨obj, hobj, of_decide_eq_true htest⟩
  | none =>
    obtain ⟨row, hrow, hstmt⟩ := Program.stmtAt_eq_ok.1 hs
    obtain ⟨decl, hdecl⟩ := Program.exists_methodAt (wf.stmtMethod site row hrow)
    have hsite : p.siteAt site = .ok row := Outcome.ofRow_eq_ok.2 hrow
    have hrun : s.heap.objFor p site = .ok (s.heap.objects.next,
        ⟨s.heap.objects.push
          { id := s.heap.objects.next, site, type, container := row.method,
            containerClass := decl.owner }⟩) := by
      unfold Heap.objFor
      rw [hfind]
      simp only [hsite, bind, Except.bind, hstmt, hdecl]
      rfl
    refine ensures_of_continues hv ((bind_run rfl).trans (bind_run (lift_run hrun)))
      (hv.rows.alloc ?_ ⟨lhs, hs⟩ ⟨row, decl, hsite, hdecl, rfl⟩ ho) ?_
    · intro o obj hobj
      simpa using Table.find?_eq_none hfind hobj
    · exact ⟨_, (Table.get?_push ..).trans (if_pos rfl), rfl⟩

end Interning

/-! ## Flow -/

section Flow

variable (hv : Valid p σ s)
include hv

/-- A delivery that brings what may be referred to waits in the work list. -/
theorem ensures_deliver {target : PointerId} {objs : PointsTo}
    (hd : Delivers (Least p σ) s.world s.heap ⟨target, objs⟩) :
    Ensures (flowing p σ) (deliver target objs) s fun _ s' =>
      ⟨target, objs⟩ ∈ s'.workList.toList := by
  have hmem : ∀ d, d ∈ (s.workList.push ⟨target, objs⟩).toList ↔
      d ∈ s.workList.toList ∨ d = ⟨target, objs⟩ := by simp
  have hg : Grows s { s with workList := s.workList.push ⟨target, objs⟩ } :=
    { Grows.refl s with pending := fun d hd => (hmem d).2 (Or.inl hd) }
  have hrun : deliver target objs s =
      .ok ((), { s with workList := s.workList.push ⟨target, objs⟩ }) := rfl
  refine .ok hrun ?_ ⟨hg, rfl⟩ ((hmem _).2 (Or.inr rfl))
  exact
    { hv with
      pending := fun d hd' => by
        rcases (hmem d).1 hd' with hd' | rfl
        · exact hv.pending d hd'
        · exact hd
      covered := fun a b q hab hq => (hv.covered a b q hab hq).imp id hg.awaits }

/-- A single object becomes known at a pointer. -/
theorem ensures_deliver_singleton {target : PointerId} {x : PointerName} {q : QObjId} {o : ObjName}
    (hx : s.world.pointerName? s.heap target = some x) (ho : s.world.objName? s.heap q = some o)
    (hf : Least p σ (.refers x o)) :
    Ensures (flowing p σ) (deliver target (.singleton q)) s fun _ s' => s'.Knows (.refers x o) := by
  have hd : Delivers (Least p σ) s.world s.heap ⟨target, .singleton q⟩ :=
    { ascending := AscendingSet.ascending_singleton q
      target := ⟨x, hx⟩
      objs := fun q' hq' => by
        obtain rfl := AscendingSet.mem_singleton.1 hq'
        exact ⟨x, o, hx, ho, hf⟩ }
  apply (ensures_deliver hv hd).mono
  intro _ s' _ hg hin
  refine ⟨target, q, Universe.pointerName?_mono hg.1.world hg.1.heap hx,
    Universe.objName?_mono hg.1.world hg.1.heap ho, Or.inr ⟨_, hin, rfl, ?_⟩⟩
  exact AscendingSet.mem_singleton.2 rfl

/-- Every pointer has a set. -/
theorem Valid.exists_set {h : PointerId} {x : PointerName}
    (hx : s.world.pointerName? s.heap h = some x) : ∃ set, s.world.sets.get? h = some set := by
  obtain ⟨key, hk, -⟩ := Option.bind_eq_some_iff.1 hx
  apply Table.exists_get?
  unfold Table.Has
  rw [hv.rows.sets]
  exact Table.has_of_get? hk

/-- A new edge of a valid state, with the delivery that brings its target up to date. -/
theorem Valid.addFlow {a b : PointerId} {objs : PointsTo} (hnew : s.flow.hasEdge a b = false)
    (hset : s.world.sets.get? a = some objs) (hab : FlowsIn (Least p σ) s.world s.heap a b) :
    Valid p σ { s with
      flow := (s.flow.addEdge a b).2
      workList := if objs.isEmpty then s.workList else s.workList.push ⟨b, objs⟩ } := by
  have hmem : ∀ d, d ∈ (if objs.isEmpty then s.workList else s.workList.push ⟨b, objs⟩).toList ↔
      d ∈ s.workList.toList ∨ objs.isEmpty = false ∧ d = ⟨b, objs⟩ := fun d => by
    cases objs.isEmpty <;> simp
  obtain ⟨x, y, hx, hy, hf⟩ := hab
  -- what the source refers to may reach the target by the new edge
  have hrefers : ∀ q ∈ objs, RefersIn (Least p σ) s.world s.heap b q := by
    intro q hq
    obtain ⟨x', o, hx', ho, hfo⟩ := hv.holds a q ⟨objs, hset, hq⟩
    obtain rfl := Option.some.inj (hx.symm.trans hx')
    exact ⟨y, o, hy, ho, least_closed _ (.propagate hf hfo)⟩
  exact
    { hv with
      pending := fun d hd => by
        rcases (hmem d).1 hd with hd | ⟨-, rfl⟩
        · exact hv.pending d hd
        · exact ⟨hv.ascending a objs hset, ⟨y, hy⟩, hrefers⟩
      flow := fun a' b' h => by
        rcases FlowGraph.hasEdge_addEdge.1 h with h | ⟨rfl, rfl⟩
        · exact hv.flow a' b' h
        · exact ⟨x, y, hx, hy, hf⟩
      covered := fun a' b' q h hq => by
        rcases FlowGraph.hasEdge_addEdge.1 h with h | ⟨rfl, rfl⟩
        · apply (hv.covered a' b' q h hq).imp id
          intro hq
          obtain ⟨d, hd, e⟩ := hq
          exact ⟨d, (hmem d).2 (Or.inl hd), e⟩
        · -- along the new edge, all that the source holds has just been sent
          obtain ⟨set, hset', hq⟩ := hq
          obtain rfl := Option.some.inj (hset.symm.trans hset')
          refine Or.inr ⟨⟨b', objs⟩, (hmem _).2 (Or.inr ⟨?_, rfl⟩), rfl, hq⟩
          apply Bool.eq_false_iff.2
          intro he
          exact AscendingSet.isEmpty_iff.1 he q hq
      counted := hv.counted.addEdge hnew }

/-- An edge of the least closed set becomes known, and its target is brought up to date. -/
theorem ensures_addFlow {a b : PointerId} {x y : PointerName}
    (hx : s.world.pointerName? s.heap a = some x) (hy : s.world.pointerName? s.heap b = some y)
    (hf : Least p σ (.flows x y)) :
    Ensures (flowing p σ) (addFlow a b) s fun _ s' => s'.Knows (.flows x y) := by
  cases hedge : s.flow.hasEdge a b with
  | true =>
    exact .ok (addFlow_eq_of_hasEdge hedge) hv ⟨.refl s, rfl⟩ ⟨a, b, hedge, hx, hy⟩
  | false =>
    obtain ⟨objs, hset⟩ := hv.exists_set hx
    refine .ok (addFlow_eq hedge hset) (hv.addFlow hedge hset ⟨x, y, hx, hy, hf⟩) ⟨?_, rfl⟩ ?_
    · refine { Grows.refl s with
        flow := fun a' b' h => FlowGraph.hasEdge_addEdge.2 (Or.inl h)
        pending := fun d hd => ?_ }
      dsimp only
      split
      · exact hd
      · simp [hd]
    · exact ⟨a, b, FlowGraph.hasEdge_addEdge.2 (Or.inr ⟨rfl, rfl⟩), hx, hy⟩

/-- References flow between two locations. -/
theorem ensures_flowBetween {source target : Pointer} {x y : PointerName}
    (hx : s.world.pointerKeyName? s.heap source = some x)
    (hy : s.world.pointerKeyName? s.heap target = some y) (hf : Least p σ (.flows x y)) :
    Ensures (flowing p σ) (flowBetween source target) s fun _ s' => s'.Knows (.flows x y) := by
  refine .bind (ensures_internPointer hv hx (least_closed _ (.source hf)))
    fun a s₁ hv₁ hg₁ ha => ?_
  -- the target is interned second, and keeps its name until then
  have hy₁ := Universe.pointerKeyName?_mono hg₁.1.world hg₁.1.heap hy
  refine .bind (ensures_internPointer hv₁ hy₁ (least_closed _ (.target hf)))
    fun b s₂ hv₂ hg₂ hb => ?_
  exact ensures_addFlow hv₂ (Universe.pointerName?_mono hg₂.1.world hg₂.1.heap ha) hb hf

end Flow

end PointerAnalysis.Solver
