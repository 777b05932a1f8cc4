import PointerAnalysis.Proofs.Solver.Traces
import PointerAnalysis.Proofs.Solver.Correctness

/-!
# Budgets

A budget decides nothing but when a run stops.  Until then the run takes the steps of every run with
a larger budget, so the longer run goes on from where the shorter one has stopped, and keeps all that
was there under the same handles.

## Main definitions

- `Output.Extends`: an output continues another one.
- `Spent`: a state in which a run stops because of its budget.

## Main statements

- `steps_within`: with the smaller budget a run takes the same steps, or stops at one of them.
- `solve_prefix`: what a run leaves behind is a prefix of what a longer run leaves behind, and a
  budget is enough when it covers the deliveries that the run without one processes.
-/

namespace PointerAnalysis

/-! ## Flow graphs that grow -/

namespace FlowGraph

/-- The later graph `g'` has all edges of `g`. -/
structure Extends (g g' : FlowGraph) : Prop where
  size : g.size ≤ g'.size
  edges : ∀ x y, g.hasEdge x y = true → g'.hasEdge x y = true

theorem Extends.refl (g : FlowGraph) : g.Extends g := ⟨Nat.le_refl _, fun _ _ h => h⟩

theorem Extends.trans {g g' g'' : FlowGraph} (h : g.Extends g') (h' : g'.Extends g'') :
    g.Extends g'' :=
  ⟨Nat.le_trans h.size h'.size, fun x y e => h'.edges x y (h.edges x y e)⟩

theorem extends_addEdge (g : FlowGraph) (a b : PointerId) : g.Extends (g.addEdge a b).2 where
  size := by
    cases h : g.hasEdge a b with
    | true => rw [addEdge_of_hasEdge h]
    | false =>
      rw [size_addEdge h]
      exact Nat.le_succ _
  edges _ _ h := hasEdge_addEdge.2 (Or.inl h)

end FlowGraph

namespace Solver

variable {p : Program} {σ : Sensitivity} {budget m : Option Nat} {n : Nat} {s s' : State}

/-- Whatever a move does, the flow graph keeps its edges. -/
theorem Move.flow_extends (h : Move p σ s s') : s.flow.Extends s'.flow := by
  cases h with
  | @flow a b _ h =>
    cases hedge : s.flow.hasEdge a b with
    | true =>
      rw [addFlow_eq_of_hasEdge hedge] at h
      obtain ⟨-, rfl⟩ := Prod.mk.inj (Except.ok.inj h)
      exact .refl _
    | false =>
      cases hset : s.world.sets.get? a with
      | none =>
        rw [addFlow_eq_error hedge hset] at h
        cases h
      | some objs =>
        rw [addFlow_eq hedge hset] at h
        obtain ⟨-, rfl⟩ := Prod.mk.inj (Except.ok.inj h)
        exact FlowGraph.extends_addEdge _ _ _
  | @callOn _ _ _ _ _ _ _ _ _ _ decl =>
    -- binding `this` interns a location and sends an object there
    cases hself : decl.body.bind Body.self with
    | none => exact .refl _
    | some v => exact .refl _
  | visit _ => exact .refl _
  | arrive _ _ => exact .refl _
  | alloc _ _ _ _ => exact .refl _
  | send => exact .refl _
  | mention _ => exact .refl _
  | callStatically _ _ _ _ _ _ _ => exact .refl _

theorem flow_extends_of_moves (h : Moves p σ s s') : s.flow.Extends s'.flow := by
  induction h with
  | refl => exact .refl _
  | tail _ hmove ih => exact ih.trans hmove.flow_extends

/-! ## Deliveries processed -/

section Processed

variable {r : Progress} {k : Nat}

/-- A step processes one delivery or none, and none beyond the budget. -/
theorem step_processed (wf : p.WellFormed) (e : step p σ budget s = .ok r) :
    r.state.processed = s.processed ∨
      r.state.processed = s.processed + 1 ∧ ∀ b, budget = some b → s.processed < b := by
  rcases step_cases p σ budget s with ⟨h, -, e'⟩ | ⟨-, -, e'⟩ | ⟨-, -, e'⟩ |
    ⟨-, hbudget, d, w, hpop, e'⟩
  · obtain ⟨s₁, hrun, rfl⟩ := eq_running_of_map (e'.symm.trans e)
    exact Or.inl (costs_visitMethod wf σ h _ _ _ hrun).processed
  · obtain rfl := Except.ok.inj (e'.symm.trans e)
    exact Or.inl rfl
  · obtain rfl := Except.ok.inj (e'.symm.trans e)
    exact Or.inl rfl
  · obtain ⟨s₁, hrun, rfl⟩ := eq_running_of_map (e'.symm.trans e)
    exact Or.inr ⟨(process_paid wf σ hpop hrun).2.1, hbudget⟩

theorem processed_mono (wf : p.WellFormed) (e : steps p σ budget k s = .ok r) :
    s.processed ≤ r.state.processed := by
  refine steps_keep (P := fun s' => s.processed ≤ s'.processed) ?_ (Nat.le_refl _) e
  intro s₁ r₁ hle hr₁
  rcases step_processed wf hr₁ with h | ⟨h, -⟩
  · omega
  · omega

theorem processed_le_budget (wf : p.WellFormed) (hs : s.processed ≤ n)
    (e : steps p σ (some n) k s = .ok r) : r.state.processed ≤ n := by
  refine steps_keep (P := fun s' => s'.processed ≤ n) ?_ hs e
  intro s₁ r₁ hle hr₁
  rcases step_processed wf hr₁ with h | ⟨h, hlt⟩
  · omega
  · have := hlt n rfl
    omega

end Processed

/-! ## Runs that stop early -/

/-- All that can run is visited, a delivery waits, and no budget of `n` is left for it. -/
structure Spent (n : Nat) (s : State) : Prop where
  visited : s.calls.reachable.length ≤ s.visited
  waiting : ∃ d w, s.workList.pop? = some (d, w)
  processed : n ≤ s.processed

section Within

variable (hnm : ∀ b, m = some b → n ≤ b)
include hnm

/-- A step is the same under a larger budget, unless the smaller one is spent. -/
theorem step_within (s : State) :
    step p σ (some n) s = step p σ m s ∨
      Spent n s ∧ step p σ (some n) s = .ok (.finished s false) := by
  unfold step
  cases hnext : s.calls.reachable[s.visited]? with
  | some h => exact Or.inl rfl
  | none =>
    cases hpop : s.workList.pop? with
    | none => exact Or.inl rfl
    | some r =>
      obtain ⟨d, w⟩ := r
      by_cases hn : n ≤ s.processed
      · refine Or.inr ⟨⟨List.getElem?_eq_none_iff.1 hnext, ⟨d, w, hpop⟩, hn⟩, ?_⟩
        simp only [Option.any_some, hn, decide_true, if_true]
        rfl
      · -- the larger budget is not spent either
        have hm : m.any (· ≤ s.processed) = false := by
          cases m with
          | none => rfl
          | some b =>
            have := hnm b rfl
            simp only [Option.any_some, decide_eq_false_iff_not]
            omega
        left
        simp only [Option.any_some, hn, hm, decide_false]

/-- Under the smaller budget a run ends as under the larger one, or it stops at one of the states
that the other run comes by. -/
theorem steps_within (k : Nat) (s : State) :
    steps p σ (some n) k s = steps p σ m k s ∨
      ∃ j < k, ∃ s', steps p σ m j s = .ok (.running s') ∧ Spent n s' ∧
        steps p σ (some n) k s = .ok (.finished s' false) := by
  induction k generalizing s with
  | zero => exact Or.inl rfl
  | succ k ih =>
    rcases step_within (p := p) (σ := σ) hnm s with heq | ⟨hspent, hstop⟩
    · rw [steps, steps, heq]
      cases hr : step p σ m s with
      | error e => exact Or.inl rfl
      | ok r =>
        cases r with
        | finished s₁ completed => exact Or.inl rfl
        | running s₁ =>
          -- the first step is shared, and the others are compared by induction
          rcases ih s₁ with heq | ⟨j, hj, s', hrun, hspent, hstop⟩
          · exact Or.inl heq
          · refine Or.inr ⟨j + 1, Nat.succ_lt_succ hj, s', ?_, hspent, hstop⟩
            rw [steps, hr]
            exact hrun
    · refine Or.inr ⟨0, Nat.succ_pos k, s, rfl, hspent, ?_⟩
      rw [steps, hstop]
      rfl

end Within

/-- Where a budget is spent, a run without one goes on with the delivery that waits. -/
theorem Spent.processed_lt (wf : p.WellFormed) (h : Spent n s) {k : Nat} {r : Progress}
    (e : steps p σ none (k + 1) s = .ok r) : n < r.state.processed := by
  obtain ⟨d, w, hpop⟩ := h.waiting
  obtain ⟨r₁, hr₁, e⟩ := Outcome.bind_eq_ok.1 e
  rcases step_cases p σ none s with ⟨h', hnext, -⟩ | ⟨-, hnone, -⟩ | ⟨-, ⟨b, hb, -⟩, -⟩ |
    ⟨-, -, d', w', hpop', e'⟩
  · have := (List.getElem?_eq_some_iff.1 hnext).1
    have := h.visited
    omega
  · cases hpop.symm.trans hnone
  · cases hb
  · obtain ⟨s₁, hrun, rfl⟩ := eq_running_of_map (e'.symm.trans hr₁)
    have hone := (process_paid wf σ hpop' hrun).2.1
    have hmono : s₁.processed ≤ r.state.processed := processed_mono wf e
    have := h.processed
    omega

/-! ## Outputs that continue each other -/

/-- The output `b` continues the output `a`: tables, reachable methods and calls of `a` are prefixes
of those of `b`, every pointer refers to at least as much, and references flow at least where they
did. -/
structure Output.Extends (a b : Output) : Prop where
  world : a.world.Extends b.world
  heap : a.heap.objects.Extends b.heap.objects
  reachable : a.calls.reachable <+: b.calls.reachable
  edges : a.calls.edges <+: b.calls.edges
  sets : ∀ h set, a.world.sets.get? h = some set →
    ∃ set', b.world.sets.get? h = some set' ∧ ∀ q ∈ set, q ∈ set'
  flow : a.flow.Extends b.flow

/-- What moves lead to continues what was there, if every pointer has a set before and after. -/
theorem extends_of_moves (h : Moves p σ s s') (completed completed' : Bool)
    (hsets : s.world.sets.size = s.world.pointers.size)
    (hsets' : s'.world.sets.size = s'.world.pointers.size) :
    (s.output completed).Extends (s'.output completed') where
  world := (grown_of_moves h).world
  heap := (grown_of_moves h).heap
  reachable := (grown_of_moves h).reachable
  edges := (grown_of_moves h).edges
  sets x set hset := by
    have hgrown := grown_of_moves h
    -- the pointer is in the longer table too, and so is its set
    have hx : s.world.pointers.Has x := Nat.lt_of_lt_of_eq (Table.has_of_get? hset) hsets
    obtain ⟨key, hkey⟩ := Table.exists_get? hx
    have hx' : s'.world.sets.Has x :=
      Nat.lt_of_lt_of_eq (Table.has_of_get? (hgrown.world.pointers.get? hkey)) hsets'.symm
    obtain ⟨set', hset'⟩ := Table.exists_get? hx'
    refine ⟨set', hset', fun q hq => ?_⟩
    obtain ⟨set₁, hset₁, hq'⟩ := hgrown.holds x q ⟨set, hset, hq⟩
    obtain rfl := Option.some.inj (hset'.symm.trans hset₁)
    exact hq'
  flow := flow_extends_of_moves h

theorem Output.Extends.refl (a : Output) : a.Extends a where
  world := .refl _
  heap := .refl _
  reachable := List.prefix_refl _
  edges := List.prefix_refl _
  sets _ set hset := ⟨set, hset, fun _ hq => hq⟩
  flow := .refl _

/-! ## Whole runs -/

theorem processed_le_of_solve (wf : p.WellFormed) {order : Order} {out : Output}
    (h : solve p σ order (some n) = .ok out) : out.processed ≤ n := by
  rw [solve_eq_steps] at h
  -- the number of steps is too large to be looked at
  generalize 2 ^ rounds p σ - 1 = k at h
  obtain ⟨r, hr, rfl⟩ := Outcome.map_eq_ok.1 h
  have hle := processed_le_budget wf (Nat.zero_le n) hr
  cases r with
  | running s => exact hle
  | finished s completed => exact hle

/-- Under the smaller budget a run ends as under the larger one, or it stops after as many deliveries
as it may process, in a state from where the other run goes on.  Without a budget it does go on. -/
theorem solve_within (wf : p.WellFormed) (σ : Sensitivity) (order : Order)
    (hnm : ∀ b, m = some b → n ≤ b) :
    solve p σ order (some n) = solve p σ order m ∨
      ∃ s, solve p σ order (some n) = .ok (s.output false) ∧ s.processed = n ∧
        ∀ b, solve p σ order m = .ok b →
          ∃ s', Moves p σ s s' ∧ b = s'.output b.completed ∧ (m = none → n < b.processed) := by
  have hbudget : ∀ out, solve p σ order (some n) = .ok out → out.processed ≤ n := fun out =>
    processed_le_of_solve wf
  simp only [solve_eq_steps] at hbudget ⊢
  generalize 2 ^ rounds p σ - 1 = k at hbudget ⊢
  rcases steps_within (p := p) (σ := σ) hnm k (start p order) with heq |
    ⟨j, hj, s, hrun, hspent, hstop⟩
  · exact Or.inl (congrArg _ heq)
  · rw [hstop] at hbudget ⊢
    refine Or.inr ⟨s, rfl, Nat.le_antisymm (hbudget _ rfl) hspent.processed, fun b hb => ?_⟩
    -- the larger budget leaves at least one step to take
    obtain ⟨i, rfl⟩ : ∃ i, k = j + (i + 1) := ⟨k - j - 1, by omega⟩
    rw [steps_add, hrun] at hb
    obtain ⟨r, hr, rfl⟩ := Outcome.map_eq_ok.1 hb
    have hmoves := moves_of_steps wf hr
    have hgoes : m = none → n < r.state.processed := by
      rintro rfl
      exact hspent.processed_lt wf hr
    cases r with
    | running s' => exact ⟨s', hmoves, rfl, hgoes⟩
    | finished s' completed => exact ⟨s', hmoves, rfl, hgoes⟩

/-- A run with a budget is a prefix of every run with a larger one and of the run without any.  Its
errors are theirs; what it leaves behind, they continue.  It is complete when its budget covers the
deliveries of the run without any, and then it leaves the same behind. -/
theorem solve_prefix (hp : p.Built) (σ : Sensitivity) (order : Order) (n : Nat) (m : Option Nat)
    (hnm : ∀ b, m = some b → n ≤ b) :
    (∀ e, solve p σ order (some n) = .error e → solve p σ order m = .error e) ∧
      (∀ a b, solve p σ order (some n) = .ok a → solve p σ order m = .ok b → a.Extends b) ∧
      ∀ out, solve p σ order none = .ok out → ∃ a, solve p σ order (some n) = .ok a ∧
        (a.completed = true ↔ out.processed ≤ n) ∧ a.processed = min n out.processed ∧
        (a.completed = true → a = out) := by
  have wf := hp.wellFormed
  refine ⟨fun e he => ?_, fun a b ha hb => ?_, fun out hout => ?_⟩
  · rcases solve_within wf σ order hnm with heq | ⟨s, hstop, -⟩
    · rw [← heq]
      exact he
    · cases hstop.symm.trans he
  · rcases solve_within wf σ order hnm with heq | ⟨s, hstop, -, hgoes⟩
    · obtain rfl := Except.ok.inj (ha.symm.trans (heq.trans hb))
      exact .refl a
    · obtain ⟨s', hmoves, hs', -⟩ := hgoes b hb
      obtain rfl := Except.ok.inj (hstop.symm.trans ha)
      have hsets := (legible_of_solve wf ha).sets
      have hsets' := (legible_of_solve wf hb).sets
      rw [hs'] at hsets' ⊢
      exact extends_of_moves hmoves _ _ hsets hsets'
  · have hcompleted := completed_of_solve wf hout
    rcases solve_within wf σ order (n := n) (m := none) (fun b hb => by cases hb) with heq |
      ⟨s, hstop, hprocessed, hgoes⟩
    · -- the budget covers all deliveries
      have hout' := heq.trans hout
      have hle := processed_le_of_solve wf hout'
      exact ⟨out, hout', by simp [hcompleted, hle], (Nat.min_eq_right hle).symm, fun _ => rfl⟩
    · -- the run without a budget processes one more delivery at least
      obtain ⟨s', -, -, hlt⟩ := hgoes out hout
      have hlt := hlt rfl
      refine ⟨s.output false, hstop, ?_, ?_, fun hc => absurd hc Bool.false_ne_true⟩
      · exact ⟨fun hc => absurd hc Bool.false_ne_true, fun hle => absurd hle (by omega)⟩
      · exact hprocessed.trans (Nat.min_eq_left (Nat.le_of_lt hlt)).symm

/-- A run on the box program that stops after one delivery is a prefix of the whole run. -/
theorem boxProgram_prefix :
    ∃ a b, boxProgram.Built ∧ solve boxProgram (.object 1) .fifo (some 1) = .ok a ∧
      solve boxProgram (.object 1) .fifo none = .ok b ∧ a.completed = false ∧ a.processed = 1 ∧
      a.Extends b := by
  obtain ⟨-, hextends, hcovers⟩ :=
    solve_prefix boxProgram_built (.object 1) .fifo 1 none fun b hb => by cases hb
  have hmore : ((solve boxProgram (.object 1) .fifo none).map fun out =>
      decide (2 ≤ out.processed)).toOption = some true := by decide +kernel
  cases hb : solve boxProgram (.object 1) .fifo none with
  | error e =>
    rw [hb] at hmore
    cases hmore
  | ok b =>
    rw [hb] at hmore
    have hlt : 2 ≤ b.processed := of_decide_eq_true (Option.some.inj hmore)
    obtain ⟨a, ha, hiff, hprocessed, -⟩ := hcovers b hb
    refine ⟨a, b, boxProgram_built, ha, rfl, ?_, by omega, hextends a b ha hb⟩
    cases hc : a.completed with
    | true => exact absurd (hiff.1 hc) (by omega)
    | false => rfl

end Solver

end PointerAnalysis
