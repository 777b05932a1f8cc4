import PointerAnalysis.Proofs.Solver.Marks
import PointerAnalysis.Proofs.Solver.Termination
import PointerAnalysis.Proofs.Solver.Traces

/-!
# The marks of a run

Methods are visited in the order of their discovery, each of them once, and an object is new at a
variable once.  So in the history of a run no statement is translated twice in visits of one method,
and no object is bound twice at one call site.

## Main definitions

- `statementsBefore`: the statements of the methods that have been visited.
- `Marked`: how the marks of a history are related to the state that it has led to.

## Main statements

- `Marked.visit`, `Marked.process`: both sorts of step.
- `marked_steps`: any number of steps.
-/

namespace PointerAnalysis.Solver

variable {p : Program} {σ : Sensitivity} {budget : Option Nat} {s s' : State} {H : List Event}

/-- The statements of a method under a context. -/
def statementsAt (p : Program) (u : Universe) (m : QMethodId) : List StmtId :=
  (u.methods.get? m).elim [] fun q => p.statementsOf q.entity

/-- The statements of the first `n` reachable methods that `select` leaves of each. -/
def statementsBefore (p : Program) (s : State) (n : Nat) (select : List StmtId → List StmtId) :
    List (QMethodId × StmtId) :=
  (s.calls.reachable.take n).flatMap fun m =>
    (select (statementsAt p s.world m)).map fun i => (m, i)

theorem statementsBefore_succ {n : Nat} {m : QMethodId} (hm : s.calls.reachable[n]? = some m)
    (select : List StmtId → List StmtId) :
    statementsBefore p s (n + 1) select = statementsBefore p s n select ++
      (select (statementsAt p s.world m)).map fun i => (m, i) := by
  rw [statementsBefore, List.take_add_one, hm, List.flatMap_append]
  exact congrArg _ (List.flatMap_singleton ..)

/-- The marks of a history that has led to the state: each statement of each method visited has been
translated once, and an object bound at a call site is referred to by the receiver. -/
structure Marked (p : Program) (s : State) (H : List Event) : Prop where
  translations : translations H = statementsBefore p s s.visited id
  allocations : (allocations H).Sublist (statementsBefore p s s.visited (·.filter p.isAllocation))
  bindings : (bindings H).Nodup
  held : ∀ c i q, (c, i, q) ∈ Solver.bindings H → ∃ h v,
    s.world.pointers.get? h = some (.var c v) ∧ s.world.Holds h q ∧ i ∈ (p.usesOf v).calls

theorem marked_start (p : Program) (order : Order) : Marked p (start p order) [] where
  translations := rfl
  allocations := List.Sublist.refl _
  bindings := List.nodup_nil
  held c i q h := by cases h

theorem Valid.exists_method (hv : Valid p σ s) {m : QMethodId} (hm : m ∈ s.calls.reachable) :
    ∃ q, s.world.methods.get? m = some q := by
  obtain ⟨n, hn⟩ := hv.reachable m hm
  obtain ⟨q, hq, -⟩ := Option.bind_eq_some_iff.1 hn
  exact ⟨q, hq⟩

/-- The statements of the methods visited do not change while the state grows. -/
theorem Valid.statementsBefore_eq (hv : Valid p σ s) (hg : Grown s s') {n : Nat}
    (hn : n ≤ s.calls.reachable.length) (select : List StmtId → List StmtId) :
    statementsBefore p s' n select = statementsBefore p s n select := by
  obtain ⟨later, hlater⟩ := hg.reachable
  unfold statementsBefore
  rw [← hlater, List.take_append_of_le_length hn]
  refine List.flatMap_congr fun m hm => ?_
  obtain ⟨q, hq⟩ := hv.exists_method (List.mem_of_mem_take hm)
  rw [statementsAt, statementsAt, hq, hg.world.methods.get? hq]

/-- A binding stays one of an object that the receiver refers to. -/
theorem Marked.held_mono (hM : Marked p s H) (hg : Grown s s') {c : ContextId} {i : StmtId}
    {q : QObjId} (h : (c, i, q) ∈ Solver.bindings H) : ∃ h v,
      s'.world.pointers.get? h = some (.var c v) ∧ s'.world.Holds h q ∧ i ∈ (p.usesOf v).calls := by
  obtain ⟨h, v, hh, hq, hi⟩ := hM.held c i q h
  exact ⟨h, v, hg.world.pointers.get? hh, hg.holds h q hq, hi⟩

/-- A visit adds the marks of the statements of its method. -/
theorem Marked.visit (hM : Marked p s H) (hs : Settled p σ s) (wf : p.WellFormed)
    {m : QMethodId} (hm : s.calls.reachable[s.visited]? = some m)
    (hrun : visitMethod p σ m { s with visited := s.visited + 1 } = .ok ((), s')) :
    Marked p s' (H ++ (Recorded.visitMethod p σ m).log { s with visited := s.visited + 1 }) := by
  have hvisit := traces_visitMethod (p := p) (σ := σ) (s := { s with visited := s.visited + 1 })
    (List.mem_of_getElem? hm)
  have hg : Grown s s' := grown_of_moves (.head (.visit hm) (hvisit.of_ok hrun).2.1)
  obtain ⟨q, hq⟩ := hs.valid.exists_method (List.mem_of_getElem? hm)
  have hstmts : statementsAt p s.world m = p.statementsOf q.entity := by
    rw [statementsAt, hq]
    rfl
  have hvisited : s'.visited = s.visited + 1 := (costs_visitMethod wf σ m _ _ _ hrun).visited
  have hbefore := fun select => (hs.valid.statementsBefore_eq hg
    (List.getElem?_eq_some_iff.1 hm).1 select).trans (statementsBefore_succ (p := p) hm select)
  have hleaves := Recorded.leaves_visitMethod (p := p) (σ := σ)
    (s := { s with visited := s.visited + 1 }) hq
  have hbindings : Solver.bindings ((Recorded.visitMethod p σ m).log
      { s with visited := s.visited + 1 }) = [] :=
    List.sublist_nil.1 (Recorded.bindings_visitMarks (p := p) (m := m) _ ▸
      hleaves.filterMap Mark.binding?)
  refine ⟨?_, ?_, ?_, fun c i q' h => hM.held_mono hg ?_⟩
  · rw [translations_append, hvisited, hbefore, hM.translations, hstmts]
    -- the visit has come to its end, so no statement has been left out
    refine congrArg _ ?_
    refine Recorded.translates_visitMethod (s := { s with visited := s.visited + 1 }) hq () s' ?_
    rwa [Recorded.run_visitMethod]
  · rw [allocations_append, hvisited, hbefore, hstmts]
    refine hM.allocations.append ?_
    rw [← Recorded.allocations_visitMarks]
    exact hleaves.filterMap Mark.allocation?
  · rw [bindings_append, hbindings, List.append_nil]
    exact hM.bindings
  · rwa [bindings_append, hbindings, List.append_nil] at h

/-- Processing a delivery binds the objects that are new at its target. -/
theorem Marked.process (hM : Marked p s H) (hs : Settled p σ s) (wf : p.WellFormed)
    {d : Delivery} {w : WorkList} (hpop : s.workList.pop? = some (d, w))
    (hrun : process p σ d { s with workList := w, processed := s.processed + 1 } = .ok ((), s')) :
    Marked p s' (H ++ .taken d ::
      (Recorded.process p σ d).log { s with workList := w, processed := s.processed + 1 }) := by
  obtain ⟨hvisited, -, -⟩ := process_paid wf σ hpop hrun
  have hd := hs.valid.pending d ((WorkList.mem_toList_pop? hpop).2 (Or.inl rfl))
  obtain ⟨set, hset⟩ := hs.valid.exists_set hd.target.choose_spec
  have hascending := hs.valid.ascending d.target set hset
  have hfresh : ∀ q ∈ (set.absorb d.objs).2, q ∈ d.objs ∧ q ∉ set := fun q =>
    (AscendingSet.mem_absorb_snd hascending hd.ascending).1
  -- the objects have arrived before anything is bound
  have harrived : ∀ q ∈ (set.absorb d.objs).2,
      (arrive s w d.target d.objs set).world.Holds d.target q := fun q hq =>
    (holds_arrive hset).2 (Or.inr ⟨rfl, (hfresh q hq).1⟩)
  have hgarrived : Grown (arrive s w d.target d.objs set) s' :=
    grown_of_moves ((traces_followUp wf harrived).of_ok ((process_eq hset).symm.trans hrun)).2.1
  have hg : Grown s s' := (Grown.arrive hset).trans hgarrived
  have hleaves := Recorded.leaves_process (σ := σ) (w := w) wf hset
  have hbefore := hs.valid.statementsBefore_eq (p := p) hg hs.visited_le
  have hlog := hleaves.filterMap Mark.binding?
  have hallocations : Solver.allocations ((Recorded.process p σ d).log
      { s with workList := w, processed := s.processed + 1 }) = [] := by
    refine List.filterMap_eq_nil_iff.2 fun mark hmark => ?_
    obtain ⟨c, v, q, i, rfl, -⟩ := Recorded.mem_arrivalMarks (hleaves.subset hmark)
    rfl
  have htranslations := hleaves.translations_eq fun m i hmark => by
    obtain ⟨c, v, q, j, e, -⟩ := Recorded.mem_arrivalMarks hmark
    cases e
  -- an object that is bound now is new at the receiver
  have hnew : ∀ c i q, (c, i, q) ∈ Solver.bindings ((Recorded.process p σ d).log
      { s with workList := w, processed := s.processed + 1 }) → ∃ v,
      s.world.pointers.get? d.target = some (.var c v) ∧ q ∈ (set.absorb d.objs).2 ∧
        i ∈ (p.usesOf v).calls := by
    intro c i q h
    obtain ⟨mark, hmark, e⟩ := List.mem_filterMap.1 h
    obtain ⟨c', v, q', i', rfl, hkey, hq, hi⟩ := Recorded.mem_arrivalMarks (hleaves.subset hmark)
    cases e
    exact ⟨v, hkey, hq, hi⟩
  refine ⟨?_, ?_, ?_, fun c i q h => ?_⟩
  · rw [translations_append, hvisited, hbefore, hM.translations]
    exact (congrArg _ htranslations).trans (List.append_nil _)
  · rw [allocations_append, hvisited, hbefore]
    exact (congrArg _ hallocations).trans (List.append_nil _) ▸ hM.allocations
  · rw [bindings_append]
    refine List.nodup_append.2 ⟨hM.bindings, ?_, ?_⟩
    · exact hlog.nodup (Recorded.nodup_bindings_arrivalMarks
        (AscendingSet.ascending_absorb hascending hd.ascending).2)
    · rintro ⟨c, i, q⟩ hold b hb rfl
      obtain ⟨h, v, hh, hq, hi⟩ := hM.held c i q hold
      obtain ⟨v', hkey, hq', hi'⟩ := hnew c i q hb
      -- the call names its receiver, so the object would have been there before
      obtain ⟨call, hi, hr⟩ := Program.mem_calls_usesOf.1 hi
      obtain ⟨call', hi', hr'⟩ := Program.mem_calls_usesOf.1 hi'
      obtain rfl := Stmt.invoke.inj (Except.ok.inj (hi.symm.trans hi'))
      obtain rfl := Option.some.inj (hr.symm.trans hr')
      obtain rfl := hs.valid.rows.faithful.pointers _ _ _ hh hkey
      obtain ⟨set', hset', hq⟩ := hq
      obtain rfl := Option.some.inj (hset.symm.trans hset')
      exact (hfresh q hq').2 hq
  · rw [bindings_append, List.mem_append] at h
    rcases h with h | h
    · exact hM.held_mono hg h
    · obtain ⟨v, hkey, hq, hi⟩ := hnew c i q h
      exact ⟨d.target, v, hg.world.pointers.get? hkey, hgarrived.holds _ _ (harrived q hq), hi⟩

/-- After any number of steps the history has the marks that the state accounts for. -/
theorem marked_steps (wf : p.WellFormed) {order : Order} {n : Nat} {r : Progress}
    (h : steps p σ budget n (start p order) = .ok r) :
    Settled p σ r.state ∧ Marked p r.state (history p σ budget n (start p order)) := by
  refine history_keeps (I := fun s H => Settled p σ s ∧ Marked p s H) (H := []) ?_
    ⟨settled_start p σ order, marked_start p order⟩ h
  intro s H s' hI hstep
  obtain ⟨hs, hM⟩ := hI
  have hsound : Sound p σ budget (step p σ budget s) := hs.step_sound wf
  rw [hstep] at hsound
  refine ⟨hsound, ?_⟩
  rcases stepLog_cases hstep with ⟨m, hm, hrun, e⟩ | ⟨d, w, hpop, hrun, e⟩
  · rw [e]
    exact hM.visit hs wf hm hrun
  · rw [e]
    exact hM.process hs wf hpop hrun

end PointerAnalysis.Solver
