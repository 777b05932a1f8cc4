import PointerAnalysis.Proofs.Solver.Settled

/-!
# Runs, step by step

A run takes its steps in rounds of doubling length.  Here it is shown to be nothing but one step
after another, and what one step keeps is lifted to any number of them.

## Main definitions

- `steps`: so many steps, or fewer if the run is over before.
- `Progress.state`: the state that a run has come to.
- `Sound`: what is true of the outcome of any number of steps.

## Main statements

- `steps_keep`: what every step keeps, a run keeps.
- `solve_eq_steps`: a whole run takes `2 ^ rounds - 1` steps.
- `Settled.step_sound`, `sound_steps`: one step, and any number of steps from the start.
-/

namespace PointerAnalysis.Solver

variable {p : Program} {σ : Sensitivity} {budget : Option Nat} {s s' : State}

/-! ## Steps in sequence -/

/-- Goes on after some steps, unless the run is over. -/
def Progress.andThen (r : Progress) (next : State → Outcome Progress) : Outcome Progress :=
  match r with
  | .running s => next s
  | .finished s completed => .ok (.finished s completed)

/-- Takes `n` steps, or fewer if the run is over before. -/
def steps (p : Program) (σ : Sensitivity) (budget : Option Nat) : Nat → State → Outcome Progress
  | 0, s => .ok (.running s)
  | n + 1, s => step p σ budget s >>= fun r => r.andThen (steps p σ budget n)

/-- The state that a run has come to. -/
def Progress.state : Progress → State
  | .running s | .finished s _ => s

/-- What every step keeps, a run keeps. -/
theorem steps_keep {P : State → Prop} {n : Nat} {r : Progress}
    (hstep : ∀ s r, P s → step p σ budget s = .ok r → P r.state) (hs : P s)
    (e : steps p σ budget n s = .ok r) : P r.state := by
  induction n generalizing s with
  | zero =>
    obtain rfl := Except.ok.inj e
    exact hs
  | succ n ih =>
    obtain ⟨r₁, hr₁, e⟩ := Outcome.bind_eq_ok.1 e
    have hP := hstep s r₁ hs hr₁
    cases r₁ with
    | running s₁ => exact ih hP e
    | finished s₁ completed =>
      obtain rfl := Except.ok.inj e
      exact hP

/-- Steps may be counted in two parts. -/
theorem steps_add (m n : Nat) (s : State) :
    steps p σ budget (m + n) s =
      steps p σ budget m s >>= fun r => r.andThen (steps p σ budget n) := by
  induction m generalizing s with
  | zero => rw [Nat.zero_add]; rfl
  | succ m ih =>
    rw [Nat.succ_add, steps, steps]
    cases hstep : step p σ budget s with
    | error e => rfl
    | ok r =>
      cases r with
      | running s' => exact ih s'
      | finished s' completed => rfl

/-- A round is `2 ^ n` steps: each half of it is a round of its own. -/
theorem advance_eq_steps (n : Nat) (s : State) :
    advance p σ budget n s = steps p σ budget (2 ^ n) s := by
  induction n generalizing s with
  | zero =>
    show step p σ budget s = step p σ budget s >>= fun r => r.andThen (steps p σ budget 0)
    cases hstep : step p σ budget s with
    | error e => rfl
    | ok r => cases r <;> rfl
  | succ n ih =>
    rw [Nat.pow_succ, Nat.mul_two, steps_add, ← ih]
    show (advance p σ budget n s >>= _) = _
    refine congrArg _ (funext fun r => ?_)
    cases r with
    | running s' => exact ih s'
    | finished s' completed => rfl

/-- The rounds from the `j`-th on double in length, so their lengths add up to a difference of
powers. -/
theorem climb_eq_steps (rounds j : Nat) (s : State) :
    climb p σ budget rounds j s = steps p σ budget (2 ^ (rounds + j) - 2 ^ j) s := by
  induction rounds generalizing j s with
  | zero =>
    rw [Nat.zero_add, Nat.sub_self]
    rfl
  | succ rounds ih =>
    -- the first round takes `2 ^ j` steps, and the others take the rest
    have hsplit : 2 ^ (rounds + 1 + j) - 2 ^ j =
        2 ^ j + (2 ^ (rounds + (j + 1)) - 2 ^ (j + 1)) := by
      have hle : 2 ^ (j + 1) ≤ 2 ^ (rounds + (j + 1)) :=
        Nat.pow_le_pow_right (by omega) (by omega)
      have he : rounds + 1 + j = rounds + (j + 1) := by omega
      rw [he]
      rw [Nat.pow_succ] at hle ⊢
      omega
    rw [hsplit, steps_add, ← advance_eq_steps]
    show (advance p σ budget j s >>= _) = _
    refine congrArg _ (funext fun r => ?_)
    cases r with
    | running s' => exact ih (j + 1) s'
    | finished s' completed => rfl

/-- A whole run is a number of steps. -/
theorem solve_eq_steps (p : Program) (σ : Sensitivity) (order : Order) (budget : Option Nat) :
    solve p σ order budget =
      Progress.output <$> steps p σ budget (2 ^ rounds p σ - 1) (start p order) := by
  rw [solve, climb_eq_steps]
  rfl

/-! ## One step -/

/-- A step that has run a computation forgets its empty answer. -/
theorem bind_running (x : Outcome (Unit × State)) :
    (x >>= fun r => match r with | ((), s) => Pure.pure (Progress.running s)) =
      x.map fun r => .running r.2 := by
  cases x with
  | error e => rfl
  | ok r => rfl

/-- A step that runs a computation goes on from the state that the computation leaves behind. -/
theorem eq_running_of_map {x : Outcome (Unit × State)} {r : Progress}
    (h : (x.map fun r => Progress.running r.2) = .ok r) :
    ∃ s, x = .ok ((), s) ∧ r = .running s := by
  cases x with
  | error e => cases h
  | ok a => exact ⟨a.2, rfl, (Except.ok.inj h).symm⟩

/-- A step visits a method, ends the run, or processes a delivery. -/
theorem step_cases (p : Program) (σ : Sensitivity) (budget : Option Nat) (s : State) :
    (∃ m, s.calls.reachable[s.visited]? = some m ∧
      step p σ budget s =
        (visitMethod p σ m { s with visited := s.visited + 1 }).map fun r => .running r.2) ∨
    (s.calls.reachable.length ≤ s.visited ∧ s.workList.pop? = none ∧
      step p σ budget s = .ok (.finished s true)) ∨
    (s.calls.reachable.length ≤ s.visited ∧ (∃ b, budget = some b ∧ b ≤ s.processed) ∧
      step p σ budget s = .ok (.finished s false)) ∨
    (s.calls.reachable.length ≤ s.visited ∧ (∀ b, budget = some b → s.processed < b) ∧
      ∃ d w, s.workList.pop? = some (d, w) ∧
        step p σ budget s =
          (process p σ d { s with workList := w, processed := s.processed + 1 }).map
            fun r => .running r.2) := by
  unfold step
  -- methods are visited before anything is taken from the work list
  cases hm : s.calls.reachable[s.visited]? with
  | some m => exact Or.inl ⟨m, rfl, bind_running _⟩
  | none =>
    have hall : s.calls.reachable.length ≤ s.visited := List.getElem?_eq_none_iff.1 hm
    apply Or.inr
    cases hpop : s.workList.pop? with
    | none => exact Or.inl ⟨hall, rfl, rfl⟩
    | some r =>
      obtain ⟨d, w⟩ := r
      apply Or.inr
      cases budget with
      | none => exact Or.inr ⟨hall, fun b hb => (by cases hb), d, w, rfl, bind_running _⟩
      | some b =>
        -- the budget is looked at only when there is a delivery to process
        by_cases hb : b ≤ s.processed
        · exact Or.inl ⟨hall, ⟨b, rfl, hb⟩, by simp [hb]; rfl⟩
        · refine Or.inr ⟨hall, ?_, d, w, rfl, ?_⟩
          · intro b' e
            cases e
            exact Nat.lt_of_not_le hb
          · simp only [Option.any_some, hb, decide_false, Bool.false_eq_true, if_false]
            exact bind_running _

/-- What is true of the outcome of a number of steps.  States are settled, a run that is over has
visited everything and is complete unless the budget was spent, and errors are those of statements
that the least closed set reaches. -/
def Sound (p : Program) (σ : Sensitivity) (budget : Option Nat) : Outcome Progress → Prop
  | .ok (.running s) => Settled p σ s
  | .ok (.finished s completed) =>
    Settled p σ s ∧ s.calls.reachable.length ≤ s.visited ∧
      if completed then s.workList.toList = []
      else ∃ b, budget = some b ∧ b ≤ s.processed
  | .error e => Reports p σ e

/-- One step keeps a settled state settled, or fails with a reason. -/
theorem Settled.step_sound (hs : Settled p σ s) (wf : p.WellFormed) :
    Sound p σ budget (step p σ budget s) := by
  have hran : ∀ {x : SolverM Unit} {s₀ : State}, Ensures (settling p σ) x s₀ (fun _ _ => True) →
      Sound p σ budget ((x s₀).map fun r => .running r.2) := by
    intro x s₀ h
    cases hx : x s₀ with
    | ok r => exact (h.of_ok hx).1
    | error e => exact h.of_error hx
  rcases step_cases p σ budget s with ⟨m, hm, e⟩ | ⟨hall, hpop, e⟩ | ⟨hall, hb, e⟩ |
    ⟨hall, -, d, w, hpop, e⟩
  · rw [e]
    exact hran (hs.ensures_visit wf hm)
  -- a run that ends here leaves the state as it is, so only the reason for the end is new
  · rw [e]
    exact ⟨hs, hall, WorkList.toList_eq_nil_of_pop? hpop⟩
  · rw [e]
    exact ⟨hs, hall, hb⟩
  · rw [e]
    exact hran (hs.ensures_process wf hpop)

/-! ## Runs -/

/-- Any number of steps do what one step does. -/
theorem Settled.steps_sound (hs : Settled p σ s) (wf : p.WellFormed) (n : Nat) :
    Sound p σ budget (steps p σ budget n s) := by
  -- what one step keeps, any number of steps keeps
  induction n generalizing s with
  | zero => exact hs
  | succ n ih =>
    have hstep : Sound p σ budget (step p σ budget s) := hs.step_sound wf
    rw [steps]
    cases hr : step p σ budget s with
    | error e => rw [hr] at hstep; exact hstep
    | ok r =>
      rw [hr] at hstep
      cases r with
      | running s' => exact ih hstep
      | finished s' completed => exact hstep

/-- The tables before anything has been met. -/
theorem rows_empty : Rows p σ {} {} where
  named :=
    -- the empty context is there from the beginning, and the entry method runs under it
    { contexts := fun c es hes => by
        obtain ⟨-, rfl⟩ := ContextPool.get?_initial.1 hes
        exact ⟨[], rfl, least_closed _ (.methodContext (least_closed _ .entry))⟩
      objs := Table.all_empty _
      sites := Table.all_empty _
      methods := Table.all_empty _
      pointers := Table.all_empty _ }
  faithful :=
    { contexts := ContextPool.distinct_initial
      objs := Table.distinct_empty
      sites := Table.distinct_empty
      methods := Table.distinct_empty
      pointers := Table.distinct_empty
      heap := fun h h' o o' ho => by
        rw [Table.get?_empty] at ho
        cases ho }
  empty := rfl
  heap := Table.all_empty _
  sets := rfl

/-- A run begins settled: the entry method waits to be visited. -/
theorem settled_start (p : Program) (σ : Sensitivity) (order : Order) :
    Settled p σ (start p order) := by
  have hentry : Least p σ (.reaches [] p.entry) := least_closed _ .entry
  have hrows : Rows p σ {} {} := rows_empty
  obtain ⟨hc, hn⟩ := hrows.internMethod (q := ⟨.empty, p.entry⟩) (t := []) (m := p.entry) rfl hentry
  -- no location has been met yet, so nothing refers to anything
  have hnoset : ∀ h set, (start p order).world.sets.get? h ≠ some set := by
    intro h set hset
    cases hset
  have hnohold : ∀ h q, ¬ (start p order).world.Holds h q := fun h q ⟨set, hset, _⟩ =>
    hnoset h set hset
  refine
    { valid :=
        { rows := hc.rows
          ascending := fun h set hset => absurd hset (hnoset h set)
          holds := fun h q hq => absurd hq (hnohold h q)
          pending := by intro d hd; cases hd
          flow := by intro a b e; cases e
          covered := by intro a b q e; cases e
          counted := FlowGraph.counted_empty
          reachable := fun m hm => ?_
          nodup := List.pairwise_singleton _ _
          edges := by intro e he; cases he
          indexed := CallGraph.indexed_empty.addEntry _ }
      entry := ⟨_, List.mem_singleton_self _, hn⟩
      linked := by intro e he; cases he
      visited := by intro i hi; cases hi
      dereferenced := fun h q hq => absurd hq (hnohold h q) }
  obtain rfl := List.mem_singleton.1 hm
  exact ⟨_, hn⟩

/-- What holds of any number of steps holds from the start of a run. -/
theorem sound_steps (wf : p.WellFormed) (order : Order) (n : Nat) :
    Sound p σ budget (steps p σ budget n (start p order)) :=
  (settled_start p σ order).steps_sound wf n

end PointerAnalysis.Solver
