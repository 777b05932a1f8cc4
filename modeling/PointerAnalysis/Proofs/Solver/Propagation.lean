import Mathlib.Data.List.ProdSigma
import PointerAnalysis.Proofs.Solver.Ledger

/-!
# Every object crosses every edge once

An edge may be added while its source already refers to objects, and while further objects are on
their way there.  What the source refers to then is sent at once, and what arrives later is sent when
it arrives, so no object is sent along an edge twice.  In the same way an object is bound at a call
site when it is new at the receiver, and never again.

So the deliveries of a run can be counted: each is due to an allocation in a method that can run, to
an object at the receiver of a call, or to an object that crosses an edge, and a delivery along an
edge carries an object that no other delivery along the edge does.

## Main definitions

- `sentAlong`: the sets that have been sent along an edge.
- `SendsOnce`: nothing has been sent twice for one cause.

## Main statements

- `length_sent`: what has been sent is due to allocations, receivers and edges.
- `solve_sends_once`: a run sends nothing twice for one cause, which bounds its deliveries.
-/

namespace PointerAnalysis.Solver

variable {p : Program} {σ : Sensitivity} {budget : Option Nat} {s : State} {H : List Event}

/-! ## Edges -/

/-- The sets that have been sent along an edge. -/
def sentAlong (H : List Event) (a b : PointerId) : List PointsTo :=
  ((crossings H).filter fun x => x.1 = a ∧ x.2.target = b).map fun x => x.2.objs

theorem mem_sentAlong {a b : PointerId} {objs : PointsTo} :
    objs ∈ sentAlong H a b ↔ ∃ x ∈ crossings H, x.1 = a ∧ x.2.target = b ∧ x.2.objs = objs := by
  simp only [sentAlong, List.mem_map, List.mem_filter, decide_eq_true_eq, and_assoc]

/-- Nothing has been sent twice for one cause, in a history that has led to the state. -/
structure SendsOnce (s : State) (H : List Event) : Prop where
  /-- What has been sent has been processed or is waiting. -/
  sent : (sent H).Perm (taken H ++ s.workList.toList)
  processed : (taken H).length = s.processed
  nonempty : ∀ a b, ∀ objs ∈ sentAlong H a b, objs.isEmpty = false
  disjoint : ∀ a b, (sentAlong H a b).Pairwise fun S T => ∀ q ∈ S, q ∉ T
  /-- What has been sent along an edge is what its source refers to. -/
  covered : ∀ a b q, (∃ objs ∈ sentAlong H a b, q ∈ objs) ↔
    s.flow.hasEdge a b = true ∧ s.world.Holds a q
  /-- No object has been bound twice at one call site under one context. -/
  bindings : (bindings H).Nodup

/-- A ledger without repeated bindings says that nothing is sent twice. -/
theorem Ledger.sendsOnce (hL : Ledger s H) (hbindings : (bindings H).Nodup) : SendsOnce s H where
  sent := hL.balanced
  processed := hL.counted
  nonempty a b objs h := by
    obtain ⟨x, hx, -, -, rfl⟩ := mem_sentAlong.1 h
    exact hL.nonempty x hx
  disjoint a b := by
    -- crossings of one edge share no objects
    refine List.pairwise_map.2 ((hL.apart.filter _).imp_of_mem fun {x y} hx hy hxy => ?_)
    obtain ⟨hx₁, hx₂⟩ := of_decide_eq_true (List.mem_filter.1 hx).2
    obtain ⟨hy₁, hy₂⟩ := of_decide_eq_true (List.mem_filter.1 hy).2
    exact hxy (hx₁.trans hy₁.symm) (hx₂.trans hy₂.symm)
  covered a b q := by
    constructor
    · rintro ⟨objs, h, hq⟩
      obtain ⟨x, hx, rfl, rfl, rfl⟩ := mem_sentAlong.1 h
      exact ⟨hL.edge x hx, hL.held x hx q hq⟩
    · rintro ⟨hab, hq⟩
      obtain ⟨x, hx, ha, hb, hq⟩ := hL.crossed a b q hab hq
      exact ⟨x.2.objs, mem_sentAlong.2 ⟨x, hx, ha, hb, rfl⟩, hq⟩
  bindings := hbindings

/-! ## Counting -/

/-- What has been sent is due to allocations, to receivers and to edges. -/
theorem length_sent (H : List Event) :
    (sent H).length = (allocations H).length + (bindings H).length + (crossings H).length := by
  induction H with
  | nil => rfl
  | cons e H ih =>
    have happend : ∀ H', e :: H' = [e] ++ H' := fun _ => rfl
    rw [happend, sent_append, allocations_append, bindings_append, crossings_append]
    simp only [List.length_append, ih]
    -- an event that sends something has one cause
    cases e with
    | translated m i =>
      show 0 + _ = 0 + _ + (0 + _) + (0 + _)
      omega
    | taken d =>
      show 0 + _ = 0 + _ + (0 + _) + (0 + _)
      omega
    | sent cause d =>
      cases cause with
      | allocation m i =>
        show 1 + _ = 1 + _ + (0 + _) + (0 + _)
        omega
      | receiver c i q =>
        show 1 + _ = 0 + _ + (1 + _) + (0 + _)
        omega
      | edge a =>
        show 1 + _ = 0 + _ + (0 + _) + (1 + _)
        omega

/-- The allocations in the methods that can run, counted once for each context. -/
def allocationCount (p : Program) (u : Universe) (calls : CallGraph QSiteId QMethodId) : Nat :=
  (calls.reachable.map fun m => ((statementsAt p u m).filter p.isAllocation).length).sum

theorem length_allocations_le (hM : Marked p s H) :
    (allocations H).length ≤ allocationCount p s.world s.calls := by
  have hle := (hM.allocations.trans ((List.take_sublist _ _).flatMap _)).length_le
  simpa [List.length_flatMap, allocationCount] using hle

/-- The calls on a pointer, if it is a variable. -/
def callsOn (p : Program) : Pointer → List StmtId
  | .var _ v => (p.usesOf v).calls
  | .staticField _ | .instanceField _ _ | .arrayElems _ => []

/-- The objects that variables refer to, each counted once for each call on the variable. -/
def receptionCount (p : Program) (u : Universe) : Nat :=
  (u.pointers.entries.map fun (h, key) =>
    (u.sets.get? h).elim 0 AscendingSet.size * (callsOn p key).length).sum

theorem length_bindings_le (hM : Marked p s H) : (bindings H).length ≤ receptionCount p s.world := by
  -- the objects at a variable with the calls on it
  let pairs : PointerId × Pointer → List (QObjId × StmtId) := fun entry =>
    ((s.world.sets.get? entry.1).elim [] AscendingSet.toList) ×ˢ callsOn p entry.2
  let context : Pointer → ContextId := fun key => key.var?.elim .empty Prod.fst
  let receptions := s.world.pointers.entries.flatMap fun entry =>
    (pairs entry).map fun pair => (context entry.2, pair.2, pair.1)
  -- an object that has been bound is in the set of the receiver
  have hsub : bindings H ⊆ receptions := by
    rintro ⟨c, i, q⟩ h
    obtain ⟨x, v, hx, ⟨set, hset, hq⟩, hi⟩ := hM.held c i q h
    refine List.mem_flatMap.2 ⟨(x, .var c v), Table.mem_entries.2 hx, ?_⟩
    refine List.mem_map.2 ⟨(q, i), List.mem_product.2 ⟨?_, hi⟩, rfl⟩
    rw [hset]
    exact AscendingSet.mem_toList.2 hq
  have hlength : receptions.length = receptionCount p s.world := by
    simp only [receptions, pairs, List.length_flatMap, List.length_map, List.length_product,
      receptionCount]
    refine congrArg List.sum (List.map_congr_left fun entry _ => ?_)
    cases s.world.sets.get? entry.1 <;> rfl
  rw [← hlength]
  exact (List.subperm_of_subset hM.bindings hsub).length_le

/-- Deliveries along edges are no more than there are pairs of an edge and an object. -/
theorem length_crossings_le (hL : Ledger s H) (hv : Valid p σ s) :
    (crossings H).length ≤ s.flow.size * s.world.objs.size := by
  obtain ⟨edges, -, hsize, hedges⟩ := hv.counted.edges
  -- each delivery stands for one of its objects
  let first : PointsTo → QObjId := fun objs => objs.toList.headD ⟨0⟩
  have hfirst : ∀ x ∈ crossings H, first x.2.objs ∈ x.2.objs := by
    intro x hx
    obtain ⟨q, hq⟩ := AscendingSet.isEmpty_eq_false_iff.1 (hL.nonempty x hx)
    cases hobjs : x.2.objs.toList with
    | nil =>
      rw [← AscendingSet.mem_toList, hobjs] at hq
      cases hq
    | cons q' rest =>
      rw [← AscendingSet.mem_toList]
      simp only [first, hobjs]
      exact List.mem_cons_self ..
  let cross : PointerId × Delivery → (PointerId × PointerId) × QObjId := fun x =>
    ((x.1, x.2.target), first x.2.objs)
  -- deliveries along one edge have no object in common, so they stand for different ones
  have hnodup : ((crossings H).map cross).Nodup := by
    refine List.pairwise_map.2 (hL.apart.imp_of_mem fun {x y} hx hy hxy e => ?_)
    obtain ⟨hedge, hq⟩ := Prod.mk.inj e
    obtain ⟨ha, hb⟩ := Prod.mk.inj hedge
    exact hxy ha hb _ (hfirst x hx) (hq ▸ hfirst y hy)
  have hsub : (crossings H).map cross ⊆ edges ×ˢ s.world.objs.handles := by
    intro z hz
    obtain ⟨x, hx, rfl⟩ := List.mem_map.1 hz
    obtain ⟨-, o, -, ho, -⟩ := hv.holds x.1 _ (hL.held x hx _ (hfirst x hx))
    refine List.mem_product.2 ⟨(hedges _ _).2 (hL.edge x hx), Table.mem_handles.2 ?_⟩
    exact Table.has_of_name ho
  have hle := (List.subperm_of_subset hnodup hsub).length_le
  rw [List.length_map, List.length_product, hsize] at hle
  simpa [Table.handles] using hle

/-! ## Runs -/

/-- A run sends no set along an edge that shares an object with another one, and binds no object twice
at one call site.  So it processes no more deliveries than there are allocations in the methods that
can run, objects at the receivers of calls, and pairs of an edge and an object. -/
theorem solve_sends_once (hp : p.Built) {order : Order} {out : Output}
    (h : solve p σ order budget = .ok out) :
    ∃ n s, steps p σ budget n (start p order) = .ok (.finished s out.completed) ∧
      out = s.output out.completed ∧ SendsOnce s (history p σ budget n (start p order)) ∧
      out.processed ≤ allocationCount p out.world out.calls + receptionCount p out.world +
        out.flow.size * out.world.objs.size := by
  obtain ⟨n, s, hrun, e, hs, -⟩ := exists_steps_of_solve hp.wellFormed h
  have hM : Marked p s (history p σ budget n (start p order)) := (marked_steps hp.wellFormed hrun).2
  have hL : Ledger s (history p σ budget n (start p order)) := ledger_steps hp.wellFormed hrun
  refine ⟨n, s, hrun, e, hL.sendsOnce hM.bindings, ?_⟩
  rw [e]
  show s.processed ≤ allocationCount p s.world s.calls + receptionCount p s.world +
    s.flow.size * s.world.objs.size
  -- what has been processed has been sent before
  have hsent := hL.balanced.length_eq
  rw [List.length_append, hL.counted, length_sent] at hsent
  have hallocations := length_allocations_le hM
  have hbindings := length_bindings_le hM
  have hcrossings := length_crossings_le hL hs.valid
  omega

/-- The run on the box program sends nothing twice, and a budget that stops it after three deliveries
changes nothing in that. -/
theorem boxProgram_sends_once :
    ∃ out n s, boxProgram.Built ∧ solve boxProgram (.callSite 1) .fifo (some 3) = .ok out ∧
      out.completed = false ∧ out.processed = 3 ∧
      out = s.output out.completed ∧
      SendsOnce s (history boxProgram (.callSite 1) (some 3) n (start boxProgram .fifo)) ∧
      out.processed ≤ allocationCount boxProgram out.world out.calls +
        receptionCount boxProgram out.world + out.flow.size * out.world.objs.size := by
  have hrun : ((solve boxProgram (.callSite 1) .fifo (some 3)).map
      fun out => (out.completed, out.processed)).toOption = some (false, 3) := by
    decide +kernel
  obtain ⟨out, hout, hresult⟩ := Outcome.exists_of_toOption_map hrun
  obtain ⟨hcompleted, hprocessed⟩ := Prod.mk.inj hresult
  obtain ⟨n, s, -, e, hsends, hbound⟩ := solve_sends_once boxProgram_built hout
  exact ⟨out, n, s, boxProgram_built, hout, hcompleted, hprocessed, e, hsends, hbound⟩

end PointerAnalysis.Solver
