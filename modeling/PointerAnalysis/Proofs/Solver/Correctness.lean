import PointerAnalysis.Proofs.Solution
import PointerAnalysis.Proofs.Solver.Termination

/-!
# Runs find the least solution

The handles in the output of a run can be read off as names, each in one way.  Read so, the output
is a solution.  It lies within every closed solution, whatever the budget, and when the run came to
its end it is closed itself.

## Main definitions

- `Output.solution`: the solution that an output describes.
- `Output.Legible`: every handle in an output has a name, and no two have the same.

## Main statements

- `solve_closed`: a run without a budget finds a closed solution.
- `solve_least`: what a run finds is part of every closed solution.
-/

namespace PointerAnalysis.Solver

variable {p : Program} {σ : Sensitivity} {order : Order} {budget : Option Nat} {s : State}
  {out : Output}

/-! ## Reading an output -/

/-- The solution that an output describes. -/
def Output.solution (out : Output) : Solution := .ofFacts out.facts

/-- An output can be read: its handles have names, no two of them the same, and sets and graphs
hold no other handles. -/
structure Output.Legible (out : Output) : Prop where
  faithful : out.world.Faithful out.heap
  contexts : ∀ h, out.world.contexts.table.Has h →
    ∃ t, out.world.contextName? out.heap h = some t
  objs : ∀ h, out.world.objs.Has h → ∃ o, out.world.objName? out.heap h = some o
  sites : ∀ h, out.world.sites.Has h → ∃ n, out.world.siteName? out.heap h = some n
  methods : ∀ h, out.world.methods.Has h → ∃ n, out.world.methodName? out.heap h = some n
  pointers : ∀ h, out.world.pointers.Has h → ∃ x, out.world.pointerName? out.heap h = some x
  /-- Every pointer has a set. -/
  sets : out.world.sets.size = out.world.pointers.size
  holds : ∀ h q, out.world.Holds h q → out.world.objs.Has q
  flow : ∀ a b, out.flow.hasEdge a b = true →
    out.world.pointers.Has a ∧ out.world.pointers.Has b
  reachable : ∀ h ∈ out.calls.reachable, out.world.methods.Has h
  edges : ∀ e ∈ out.calls.edges, out.world.sites.Has e.site ∧ out.world.methods.Has e.callee

theorem Valid.legible (hv : Valid p σ s) (completed : Bool) : (s.output completed).Legible where
  faithful := hv.rows.faithful
  contexts _ := (hv.rows.named.contexts.mono fun _ ⟨t, ht, _⟩ => ⟨t, ht⟩).exists_name
  objs _ := (hv.rows.named.objs.mono fun _ ⟨o, ho, _⟩ => ⟨o, ho⟩).exists_name
  sites _ := hv.rows.named.sites.exists_name
  methods _ := (hv.rows.named.methods.mono fun _ ⟨t, m, hm, _⟩ => ⟨(t, m), hm⟩).exists_name
  pointers _ := (hv.rows.named.pointers.mono fun _ ⟨x, hx, _⟩ => ⟨x, hx⟩).exists_name
  sets := hv.rows.sets
  holds h q hq := by
    obtain ⟨x, o, -, ho, -⟩ := hv.holds h q hq
    exact Table.has_of_name ho
  flow a b hab := by
    obtain ⟨x, y, hx, hy, -⟩ := hv.flow a b hab
    exact ⟨Table.has_of_name hx, Table.has_of_name hy⟩
  reachable h hh := by
    obtain ⟨n, hn⟩ := hv.reachable h hh
    exact Table.has_of_name hn
  edges e he := by
    obtain ⟨t, i, t', m, hs, hm, -⟩ := hv.edges e he
    exact ⟨Table.has_of_name hs, Table.has_of_name hm⟩

/-! ## Outputs and states -/

/-- What an output says its state knows. -/
theorem State.knows_of_output {completed : Bool} {f : Fact} (hf : (s.output completed).facts f) :
    s.Knows f := by
  refine Knows.mono (.refl _) (.refl _) (fun _ _ h => h) (fun _ h => h) (fun _ h => h)
    (fun h q hq => ?_) hf
  -- nothing counts as on its way in an output
  rcases hq with hq | ⟨d, hd, -⟩
  · exact Or.inl hq
  · cases hd

/-- Where nothing is on its way, an output says all that its state knows. -/
theorem State.facts_output {completed : Bool} (hempty : s.workList.toList = []) :
    (s.output completed).facts = s.Knows := by
  show Solver.Knows s.world s.heap s.flow s.calls [] =
    Solver.Knows s.world s.heap s.flow s.calls s.workList.toList
  rw [hempty]

/-- A run that gives an output stops in a settled state, which is at its end if the run is
complete. -/
theorem exists_settled_of_solve (wf : p.WellFormed) (h : solve p σ order budget = .ok out) :
    ∃ s, Settled p σ s ∧ out = s.output out.completed ∧
      (out.completed = true →
        s.calls.reachable.length ≤ s.visited ∧ s.workList.toList = []) := by
  rw [solve_eq_steps] at h
  -- the number of steps is too large to be looked at
  generalize 2 ^ rounds p σ - 1 = n at h
  have hsound : Sound p σ budget (steps p σ budget n (start p order)) := sound_steps wf order n
  cases hrun : steps p σ budget n (start p order) with
  | error e =>
    rw [hrun] at h
    cases h
  | ok r =>
    rw [hrun] at h hsound
    obtain rfl : r.output = out := Except.ok.inj h
    cases r with
    | running s => exact ⟨s, hsound, rfl, fun hc => absurd hc Bool.false_ne_true⟩
    | finished s completed =>
      obtain ⟨hs, hall, hend⟩ := hsound
      refine ⟨s, hs, rfl, fun hc => ⟨hall, ?_⟩⟩
      obtain rfl : completed = true := hc
      exact hend

/-! ## What runs find -/

/-- Runs find nothing but what follows from the rules. -/
theorem least_of_solve (wf : p.WellFormed) (h : solve p σ order budget = .ok out) {f : Fact}
    (hf : out.facts f) : Least p σ f := by
  obtain ⟨s, hs, e, -⟩ := exists_settled_of_solve wf h
  rw [e] at hf
  exact hs.valid.knows (State.knows_of_output hf)

/-- Complete runs find all that follows from the rules, and meet no statement that fails. -/
theorem closed_of_solve (wf : p.WellFormed) (h : solve p σ order budget = .ok out)
    (hc : out.completed = true) : Closed p σ out.facts ∧ ∀ e, ¬ Fails p out.facts e := by
  obtain ⟨s, hs, e, hend⟩ := exists_settled_of_solve wf h
  obtain ⟨hall, hempty⟩ := hend hc
  rw [e, State.facts_output hempty]
  exact hs.closed hall hempty

theorem legible_of_solve (wf : p.WellFormed) (h : solve p σ order budget = .ok out) :
    out.Legible := by
  obtain ⟨s, hs, e, -⟩ := exists_settled_of_solve wf h
  rw [e]
  exact hs.valid.legible _

/-- A run without a budget is complete if it gives an output, and fails for a statement that the
rules reach otherwise. -/
theorem solve_none_cases (wf : p.WellFormed) (σ : Sensitivity) (order : Order) :
    (∃ out, solve p σ order none = .ok out ∧ out.completed = true) ∨
      ∃ e, solve p σ order none = .error (.error e) ∧ Fails p (Least p σ) e := by
  have hends := steps_ends wf σ order
  rw [solve_eq_steps]
  generalize 2 ^ rounds p σ - 1 = n at hends ⊢
  rcases hends with ⟨s, hrun, -⟩ | ⟨e, hrun, hfails⟩
  · rw [hrun]
    exact Or.inl ⟨s.output true, rfl, rfl⟩
  · rw [hrun]
    exact Or.inr ⟨e, rfl, hfails⟩

theorem completed_of_solve (wf : p.WellFormed) (h : solve p σ order none = .ok out) :
    out.completed = true := by
  rcases solve_none_cases wf σ order with ⟨out', h', hc⟩ | ⟨e, h', -⟩
  · obtain rfl := Except.ok.inj (h.symm.trans h')
    exact hc
  · cases h.symm.trans h'

/-! ## Main statements -/

/-- A run without a budget that gives an output has found a closed solution, in which every
statement that is reached can be carried out.  The output can be read in one way only. -/
theorem solve_closed (hp : p.Built) (h : solve p σ order none = .ok out) :
    out.completed = true ∧ out.solution.Closed p σ ∧ out.solution.Feasible p ∧ out.Legible := by
  have wf := hp.wellFormed
  have hc := completed_of_solve wf h
  obtain ⟨hclosed, hno⟩ := closed_of_solve wf h hc
  -- what a run finds exists in the program
  have hfits : ∀ f, out.facts f → Fits p σ f := fun f hf => (least_of_solve wf h hf).fits wf
  exact ⟨hc, Solution.closed_ofFacts hclosed, Solution.feasible_ofFacts wf hfits hno,
    legible_of_solve wf h⟩

/-- The run on the box program finds a closed solution. -/
theorem boxProgram_closed :
    ∃ out, boxProgram.Built ∧ solve boxProgram (.object 1) .fifo none = .ok out ∧
      out.solution.Closed boxProgram (.object 1) := by
  cases h : solve boxProgram (.object 1) .fifo none with
  | ok out => exact ⟨out, boxProgram_built, rfl, (solve_closed boxProgram_built h).2.1⟩
  | error e =>
    have hok : (solve boxProgram (.object 1) .fifo none).isOk = true := by decide +kernel
    rw [h] at hok
    cases hok

/-- What a run finds is part of every closed solution, whatever the budget, so a complete run finds
the least one.  The output can be read in one way only. -/
theorem solve_least (hp : p.Built) (h : solve p σ order budget = .ok out) :
    (∀ S : Solution, S.Closed p σ → out.solution.Within S) ∧
      (out.completed = true → out.solution.Closed p σ) ∧ out.Legible := by
  have wf := hp.wellFormed
  refine ⟨fun S hS => ?_, fun hc => ?_, legible_of_solve wf h⟩
  · -- a closed solution is a closed set of facts, and the least one is part of it
    have hle : ∀ f, out.facts f → S.facts f := fun f hf =>
      (least_of_solve wf h hf).le hS.facts
    exact
      { reaches := fun t m => hle (.reaches t m)
        calls := fun kind t i t' m => hle (.calls kind t i t' m)
        refers := fun x o => hle (.refers x o) }
  · exact Solution.closed_ofFacts (closed_of_solve wf h hc).1

/-- A run on the box program that stops after one delivery finds nothing beyond any closed
solution. -/
theorem boxProgram_least :
    ∃ out, boxProgram.Built ∧ solve boxProgram (.object 1) .lifo (some 1) = .ok out ∧
      out.completed = false ∧
      ∀ S : Solution, S.Closed boxProgram (.object 1) → out.solution.Within S := by
  have hstops : ((solve boxProgram (.object 1) .lifo (some 1)).map Output.completed).toOption =
      some false := by decide +kernel
  cases h : solve boxProgram (.object 1) .lifo (some 1) with
  | ok out =>
    rw [h] at hstops
    exact ⟨out, boxProgram_built, rfl, Option.some.inj hstops,
      (solve_least boxProgram_built h).1⟩
  | error e =>
    rw [h] at hstops
    cases hstops

end PointerAnalysis.Solver
