import PointerAnalysis.Solver.Rules

/-!
# Runs of the analysis

A run repeats one step: it visits the next reachable method, or, when all are visited,
processes the next delivery.  It is complete when neither is left.  A budget limits the number of
deliveries that are processed.

## Length of a run

A run is cut off after `2 ^ rounds - 1` steps, where `rounds` is computed from the program and from
the greatest length of a context.  Every run without a budget ends before that: there are at most
`(a + 1) ^ k` contexts with `k` elements out of `a`, every method is visited once under each of
them, and every delivery is caused by an allocation, by a receiver, or by an object that crosses an
edge for the first time.  `climb` spends the steps in rounds of doubling length, so that nothing
depends on the size of the bound.
-/

namespace PointerAnalysis.Solver

/-! ## One step -/

/-- What a step leads to. -/
inductive Progress where
  | running (s : State)
  /-- The run is over; it is complete unless the budget was spent. -/
  | finished (s : State) (completed : Bool)
deriving DecidableEq, Repr

/-- The state before the first step: the entry method is reachable under the empty context. -/
def start (p : Program) (order : Order) : State :=
  let (m, world) := ({} : Universe).method ⟨.empty, p.entry⟩
  { world, calls := ({} : CallGraph QSiteId QMethodId).addEntry m, workList := { order } }

/-- One step of a run. -/
def step (p : Program) (σ : Sensitivity) (budget : Option Nat) (s : State) : Outcome Progress :=
  match s.calls.reachable[s.visited]? with
  | some m => do
    let ((), s) ← (visitMethod p σ m).run { s with visited := s.visited + 1 }
    return .running s
  | none =>
    match s.workList.pop? with
    | none => pure (.finished s true)
    | some (d, workList) =>
      if budget.any (· ≤ s.processed) then
        pure (.finished s false)
      else do
        let ((), s) ← (process p σ d).run { s with workList, processed := s.processed + 1 }
        return .running s

/-! ## Many steps -/

/-- Takes `2 ^ n` steps, or fewer if the run is over before. -/
def advance (p : Program) (σ : Sensitivity) (budget : Option Nat) :
    (n : Nat) → State → Outcome Progress
  | 0, s => step p σ budget s
  | n + 1, s => do
    match ← advance p σ budget n s with
    | .running s => advance p σ budget n s
    | .finished s completed => return .finished s completed

/-- Takes `2 ^ j` steps, then `2 ^ (j + 1)` and so on, for a number of rounds. -/
def climb (p : Program) (σ : Sensitivity) (budget : Option Nat) :
    (rounds j : Nat) → State → Outcome Progress
  | 0, _, s => pure (.running s)
  | rounds + 1, j, s => do
    match ← advance p σ budget j s with
    | .running s => climb p σ budget rounds (j + 1) s
    | .finished s completed => return .finished s completed

/-- The number of binary digits of a number. -/
def bits (n : Nat) : Nat := n.log2 + 1

/-- The rounds that any run on a program needs at most. -/
def rounds (p : Program) (σ : Sensitivity) : Nat :=
  let contexts := σ.depth * bits (p.stmts.size + p.classes.size + 1)
  let rows := bits (p.methods.size + p.vars.size + p.fields.size + p.stmts.size)
  3 * contexts + 5 * rows + 8

/-! ## Whole runs -/

/-- What a run leaves behind. -/
structure Output where
  world : Universe
  heap : Heap
  flow : FlowGraph
  calls : CallGraph QSiteId QMethodId
  /-- The number of deliveries processed. -/
  processed : Nat
  /-- Whether the run came to its end. -/
  completed : Bool
deriving DecidableEq, Repr

/-- The output of a run that stops in a state. -/
def State.output (s : State) (completed : Bool) : Output :=
  { world := s.world, heap := s.heap, flow := s.flow, calls := s.calls,
    processed := s.processed, completed }

/-- The output of the last state of a run.  A run that was cut off is not complete. -/
def Progress.output : Progress → Output
  | .running s => s.output false
  | .finished s completed => s.output completed

/-- Runs the analysis. -/
def solve (p : Program) (σ : Sensitivity) (order : Order) (budget : Option Nat) :
    Outcome Output :=
  Progress.output <$> climb p σ budget (rounds p σ) 0 (start p order)

end PointerAnalysis.Solver
