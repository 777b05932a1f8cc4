import PointerAnalysis.Proofs.Solver.Arrival

/-!
# Settled states

Between two steps of a run everything is settled that has been taken up: the calls in the graph, the
methods visited so far, and the objects in the sets of variables.  What is not settled yet is queued,
as a reachable method that has not been visited or as an object on its way.  So when the queues are
empty, the facts known are closed under the rules.

## Main definitions

- `Settled`: the invariant of runs.

## Main statements

- `Settled.ensures_visit`, `Settled.ensures_process`: both sorts of step keep it.
- `Settled.closed`: at the end of a run the facts known are closed, and none makes a statement fail.
-/

namespace PointerAnalysis.Solver

variable {p : Program} {σ : Sensitivity} {s s' : State}

/-! ## The invariant -/

/-- The first `n` reachable methods are settled. -/
def Visited (p : Program) (σ : Sensitivity) (s : State) (n : Nat) : Prop :=
  ∀ i < n, ∃ h t m, s.calls.reachable[i]? = some h ∧ s.world.methodName? s.heap h = some (t, m) ∧
    MethodSettled p σ s.Knows t m

/-- If the pointer is a variable, the object is settled for it. -/
def Dereferenced (p : Program) (σ : Sensitivity) (s : State) (h : PointerId) (q : QObjId) : Prop :=
  ∃ x o, s.world.pointerName? s.heap h = some x ∧ s.world.objName? s.heap q = some o ∧
    ∀ t v, x = .var t v → ReferentSettled p σ s.Knows t v o

/-- Everything that a run has taken up is settled. -/
structure Settled (p : Program) (σ : Sensitivity) (s : State) : Prop where
  valid : Valid p σ s
  entry : s.Knows (.reaches [] p.entry)
  linked : ∀ e ∈ s.calls.edges, Linked p s e
  visited : Visited p σ s s.visited
  dereferenced : ∀ h q, s.world.Holds h q → Dereferenced p σ s h q

theorem Visited.mono {n : Nat} (h : Visited p σ s n) (hr : Remembers s s') : Visited p σ s' n := by
  intro i hi
  obtain ⟨m, t, m', hm, hn, hsettled⟩ := h i hi
  refine ⟨m, t, m', ?_, Universe.methodName?_mono hr.world hr.heap hn, hsettled.mono hr.knows⟩
  obtain ⟨later, hlater⟩ := hr.reachable
  rw [← hlater, List.getElem?_append_left (List.getElem?_eq_some_iff.1 hm).1]
  exact hm

theorem Dereferenced.mono {h : PointerId} {q : QObjId} (hd : Dereferenced p σ s h q)
    (hr : Remembers s s') : Dereferenced p σ s' h q := by
  obtain ⟨x, o, hx, ho, hsettled⟩ := hd
  exact ⟨x, o, Universe.pointerName?_mono hr.world hr.heap hx,
    Universe.objName?_mono hr.world hr.heap ho, fun t v e => (hsettled t v e).mono hr.knows⟩

/-- At the end of a computation everything is settled. -/
def settling (p : Program) (σ : Sensitivity) : Discipline where
  invariant := Settled p σ
  grows _ _ := True
  reports := Reports p σ
  refl _ := trivial
  trans _ _ := trivial

/-! ## Visits -/

/-- The visit of the next method leaves everything settled. -/
theorem Settled.ensures_visit (hs : Settled p σ s) (wf : p.WellFormed) {h : QMethodId}
    (hh : s.calls.reachable[s.visited]? = some h) :
    Ensures (settling p σ) (visitMethod p σ h) { s with visited := s.visited + 1 }
      fun _ _ => True := by
  obtain ⟨⟨t, m⟩, hn⟩ := hs.valid.reachable h (List.mem_of_getElem? hh)
  have hv : Valid p σ { s with visited := s.visited + 1 } := { hs.valid with }
  refine (ensures_visitMethod wf hv hn).resume rfl (fun _ s' hv' hg hsettled => ?_) fun _ he => he
  have hr : Remembers s s' := ⟨hg.1.world, hg.1.heap, hg.1.reachable, fun _ => hg.1.knows⟩
  refine ⟨⟨hv', hr.knows _ hs.entry, fun e he => ?_, ?_, fun h' q hq => ?_⟩, trivial, trivial⟩
  · rcases hg.2 e he with he | hl
    · exact (hs.linked e he).mono hr
    · exact hl
  · rw [hg.1.visited]
    intro i hi
    -- the methods visited before stay settled, and this one has become so
    rcases Nat.lt_succ_iff_lt_or_eq.1 hi with hi | rfl
    · exact hs.visited.mono hr i hi
    · obtain ⟨later, hlater⟩ := hg.1.reachable
      refine ⟨h, t, m, ?_, Universe.methodName?_mono hg.1.world hg.1.heap hn, hsettled⟩
      rw [← hlater, List.getElem?_append_left (List.getElem?_eq_some_iff.1 hh).1]
      exact hh
  · exact (hs.dereferenced h' q (hg.1.holds_of hq)).mono hr

/-! ## Deliveries -/

/-- What is done about objects that are new at a pointer. -/
def followUp (p : Program) (σ : Sensitivity) (target : PointerId) (fresh : PointsTo) :
    SolverM Unit := do
  if !fresh.isEmpty then
    if let .var c v ← (← get).world.pointerAt target then
      fresh.toList.forM (dereference p σ c v)

/-- To process a delivery is to let it arrive and to follow it up. -/
theorem process_eq {w : WorkList} {d : Delivery} {set : PointsTo}
    (hset : s.world.sets.get? d.target = some set) :
    process p σ d { s with workList := w, processed := s.processed + 1 } =
      followUp p σ d.target (set.absorb d.objs).2 (arrive s w d.target d.objs set) :=
  bind_run (absorb_eq hset)

/-- A delivery to a pointer without a set can not be processed. -/
theorem process_eq_error {w : WorkList} {d : Delivery}
    (hset : s.world.sets.get? d.target = none) :
    process p σ d { s with workList := w, processed := s.processed + 1 } = .error .dangling := by
  have habsorb : s.world.absorb d.target d.objs = .error .dangling := by
    unfold Universe.absorb Universe.setOf
    rw [hset]
    rfl
  have hget : absorb d.target d.objs
      { s with workList := w, processed := s.processed + 1 } = _ := bind_run rfl
  exact bind_run_error (hget.trans (bind_run_error (lift_run_error habsorb)))

theorem ensures_followUp (wf : p.WellFormed) (hv : Valid p σ s) {h : PointerId} {x : PointerName}
    {fresh : PointsTo} (hx : s.world.pointerName? s.heap h = some x)
    (hfresh : ∀ q ∈ fresh, s.world.Holds h q) :
    Ensures (running p σ) (followUp p σ h fresh) s fun _ s' =>
      ∀ q ∈ fresh, Dereferenced p σ s' h q := by
  obtain ⟨key, hkey, hn⟩ := Option.bind_eq_some_iff.1 hx
  have hname : ∀ q ∈ fresh, ∃ o, s.world.objName? s.heap q = some o ∧ Least p σ (.refers x o) := by
    intro q hq
    obtain ⟨x', o, hx', ho, hf⟩ := hv.holds h q (hfresh q hq)
    obtain rfl := Option.some.inj (hx.symm.trans hx')
    exact ⟨o, ho, hf⟩
  -- for pointers that are not variables nothing is to be done
  have hother : (∀ t v, x ≠ .var t v) → Ensures (running p σ) (Pure.pure ()) s fun _ s' =>
      ∀ q ∈ fresh, Dereferenced p σ s' h q := by
    refine fun hne => .pure hv fun q hq => ?_
    obtain ⟨o, ho, -⟩ := hname q hq
    exact ⟨x, o, hx, ho, fun t v e => absurd e (hne t v)⟩
  unfold followUp
  -- if nothing is new there is nothing to follow up
  cases hempty : fresh.isEmpty with
  | true =>
    apply Ensures.pure hv
    intro q hq
    exact absurd hq (AscendingSet.isEmpty_iff.1 hempty q)
  | false =>
    refine .get_bind (.lift_bind (Outcome.ofRow_eq_ok.2 hkey) ?_)
    cases key with
    | var c v =>
      obtain ⟨t, ht, rfl⟩ := Option.map_eq_some_iff.1 hn
      refine .mono (P := fun _ s' => ∀ q ∈ fresh.toList, ∀ o, s.world.objName? s.heap q = some o →
        ReferentSettled p σ s'.Knows t v o) ?_ fun _ s' _ hg hall q hq => ?_
      · refine .forM hv (fun q _ _ hg h o ho => (h o ho).mono fun _ => hg.1.knows)
          fun q hq s₁ hv₁ hg₁ => ?_
        obtain ⟨o, ho, hf⟩ := hname q (AscendingSet.mem_toList.1 hq)
        refine .mono (ensures_dereference wf hv₁
          (Universe.contextName?_mono hg₁.1.world hg₁.1.heap ht)
          (Universe.objName?_mono hg₁.1.world hg₁.1.heap ho) hf) fun _ s₂ _ _ hr o' ho' => ?_
        obtain rfl := Option.some.inj (ho.symm.trans ho')
        exact hr
      · obtain ⟨o, ho, -⟩ := hname q hq
        refine ⟨.var t v, o, Universe.pointerName?_mono hg.1.world hg.1.heap hx,
          Universe.objName?_mono hg.1.world hg.1.heap ho, ?_⟩
        intro t' v' e
        cases e
        exact hall q (AscendingSet.mem_toList.2 hq) o ho
    | staticField f =>
      cases hn
      exact hother (by intro t v e; cases e)
    | instanceField base f =>
      obtain ⟨o, -, rfl⟩ := Option.map_eq_some_iff.1 hn
      exact hother (by intro t v e; cases e)
    | arrayElems base =>
      obtain ⟨o, -, rfl⟩ := Option.map_eq_some_iff.1 hn
      exact hother (by intro t v e; cases e)

/-- Processing a delivery leaves everything settled. -/
theorem Settled.ensures_process (hs : Settled p σ s) (wf : p.WellFormed) {w : WorkList}
    {d : Delivery} (hpop : s.workList.pop? = some (d, w)) :
    Ensures (settling p σ) (process p σ d) { s with workList := w, processed := s.processed + 1 }
      fun _ _ => True := by
  have hd : Delivers (Least p σ) s.world s.heap d :=
    hs.valid.pending d ((WorkList.mem_toList_pop? hpop).2 (Or.inl rfl))
  obtain ⟨x, hx⟩ := hd.target
  obtain ⟨set, hset⟩ := hs.valid.exists_set hx
  have hnew : ∀ q, q ∈ (set.absorb d.objs).2 ↔ q ∈ d.objs ∧ q ∉ set := fun q =>
    AscendingSet.mem_absorb_snd (hs.valid.ascending d.target set hset) hd.ascending
  -- the delivery arrives first, and is followed up then
  have hr₁ : Remembers s (arrive s w d.target d.objs set) := remembers_arrive hset hpop
  refine (ensures_followUp wf (hs.valid.arrive hset hpop)
    (Universe.pointerName?_mono hr₁.world hr₁.heap hx) fun q hq =>
      (holds_arrive hset).2 (Or.inr ⟨rfl, ((hnew q).1 hq).1⟩)).resume (process_eq hset)
    (fun _ s' hv' hg hfresh => ?_) fun _ he => he
  have hr : Remembers s s' := hr₁.trans hg.1.remembers
  refine ⟨⟨hv', hr.knows _ hs.entry, fun e he => ?_, ?_, fun h' q hq => ?_⟩, trivial, trivial⟩
  · rcases hg.2 e he with he | hl
    · exact (hs.linked e he).mono hr
    · exact hl
  · rw [hg.1.visited]
    exact hs.visited.mono hr
  · -- an object that was there before stays settled
    by_cases hold : s.world.Holds h' q
    · exact (hs.dereferenced h' q hold).mono hr
    · -- the object has just arrived
      obtain ⟨rfl, hq'⟩ := ((holds_arrive hset).1 (hg.1.holds_of hq)).resolve_left hold
      exact hfresh q ((hnew q).2 ⟨hq', fun h => hold ⟨set, hset, h⟩⟩)

/-! ## Closure -/

/-- When every reachable method has been visited, every one of them is settled. -/
theorem Settled.methodSettled (hs : Settled p σ s)
    (hvisited : s.calls.reachable.length ≤ s.visited) {h : QMethodId}
    (hh : h ∈ s.calls.reachable) :
    ∃ t m, s.world.methodName? s.heap h = some (t, m) ∧ MethodSettled p σ s.Knows t m := by
  obtain ⟨i, hi⟩ := List.mem_iff_getElem?.1 hh
  obtain ⟨h', t, m, hh', hn, hsettled⟩ :=
    hs.visited i (Nat.lt_of_lt_of_le (List.getElem?_eq_some_iff.1 hi).1 hvisited)
  obtain rfl := Option.some.inj (hi.symm.trans hh')
  exact ⟨t, m, hn, hsettled⟩

/-- When every reachable method has been visited and nothing is on its way, the facts known are
closed under the rules, and none of them makes a statement fail. -/
theorem Settled.closed (hs : Settled p σ s) (hvisited : s.calls.reachable.length ≤ s.visited)
    (hempty : s.workList.toList = []) : Closed p σ s.Knows ∧ ∀ e, ¬ Fails p s.Knows e := by
  have hawaits : ∀ h q, ¬ Awaits s.workList.toList h q := by
    intro h q hq
    obtain ⟨d, hd, -⟩ := hq
    rw [hempty] at hd
    cases hd
  apply closed_of_settled hs.entry
  · -- a reachable method has been visited
    intro t m hm
    obtain ⟨h, hh, hn⟩ := hm
    obtain ⟨t', m', hn', hsettled⟩ := hs.methodSettled hvisited hh
    obtain ⟨rfl, rfl⟩ := Prod.mk.inj (Option.some.inj (hn.symm.trans hn'))
    exact hsettled
  · -- an object of a variable has arrived there
    intro t v o hv
    obtain ⟨h, q, hx, ho, hq⟩ := hv
    obtain ⟨x', o', hx', ho', hsettled⟩ := hs.dereferenced h q (hq.resolve_right (hawaits h q))
    obtain rfl := Option.some.inj (ho.symm.trans ho')
    exact hsettled t v (Option.some.inj (hx'.symm.trans hx))
  · -- a call has been wired
    intro kind t i t' m call hc hcall
    obtain ⟨e, he, rfl, hsite, hm⟩ := hc
    obtain ⟨u, j, u', m', call', hsite', hm', hcall', hsettled⟩ := hs.linked e he
    obtain ⟨rfl, rfl⟩ := Prod.mk.inj (Option.some.inj (hsite.symm.trans hsite'))
    obtain ⟨rfl, rfl⟩ := Prod.mk.inj (Option.some.inj (hm.symm.trans hm'))
    obtain rfl := Stmt.invoke.inj (Except.ok.inj (hcall'.symm.trans hcall))
    exact hsettled
  · -- no edge of the flow graph lags behind
    intro x y o hxy hxo
    obtain ⟨a, b, hab, ha, hb⟩ := hxy
    obtain ⟨h, q, hx, ho, hq⟩ := hxo
    obtain rfl := hs.valid.rows.faithful.pointer_inj ha hx
    refine ⟨b, q, hb, ho, hs.valid.covered a b q hab (hq.resolve_right (hawaits a q))⟩
  · -- what a fact mentions has a handle
    intro x y hxy
    obtain ⟨a, b, -, ha, hb⟩ := hxy
    exact ⟨⟨a, ha⟩, ⟨b, hb⟩⟩
  · intro x o hxo
    obtain ⟨h, q, hx, ho, -⟩ := hxo
    exact ⟨⟨h, hx⟩, ⟨q, ho⟩⟩
  · intro o hobj
    obtain ⟨h, ho⟩ := hobj
    obtain ⟨q, -, hn⟩ := Option.bind_eq_some_iff.1 ho
    exact ⟨q.context, (Universe.objKeyName?_eq_some.1 hn).1⟩
  · intro t m hm
    obtain ⟨h, -, hn⟩ := hm
    obtain ⟨q, -, hq⟩ := Option.bind_eq_some_iff.1 hn
    exact ⟨q.context, (Universe.keyName?_eq_some.1 hq).1⟩

end PointerAnalysis.Solver
