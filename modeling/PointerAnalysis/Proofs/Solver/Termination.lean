import Mathlib.Tactic.Linarith
import Mathlib.Tactic.Ring
import PointerAnalysis.Proofs.Program.Build
import PointerAnalysis.Proofs.Solver.Accounting
import PointerAnalysis.Proofs.Solver.Sizes

/-!
# Every run ends

Each step visits a method or processes a delivery.  The methods visited are among the finitely many
that can be reachable, and the deliveries processed are paid for out of sets of bounded size along
edges of bounded number.  So a run without a budget comes to its end, and it does so before it would
be cut off.

## Main statements

- `Valid.credit_le`: the credit of a state is bounded by the sizes of its tables.
- `steps_ends`: after `2 ^ rounds - 1` steps a run without a budget is over.
- `exists_steps_of_solve`: a run with an output has visited every reachable method.
- `solve_terminates`: whole runs end with an error or with an empty work list.
-/

namespace PointerAnalysis.Solver

variable {p : Program} {σ : Sensitivity} {s : State}

/-! ## Bounds -/

theorem lt_two_pow_bits (n : Nat) : n < 2 ^ bits n := Nat.lt_log2_self

/-- The number of contexts is bounded by a power of two whose exponent a run can compute. -/
theorem Valid.contexts_le_pow (wf : p.WellFormed) (hv : Valid p σ s) :
    s.world.contexts.table.size ≤ 2 ^ (σ.depth * bits (Sensitivity.base p)) :=
  calc s.world.contexts.table.size
      ≤ Sensitivity.base p ^ σ.depth := hv.contexts_le wf
    _ ≤ (2 ^ bits (Sensitivity.base p)) ^ σ.depth :=
        Nat.pow_le_pow_left (Nat.le_of_lt (lt_two_pow_bits _)) _
    _ = 2 ^ (σ.depth * bits (Sensitivity.base p)) := by rw [← Nat.pow_mul, Nat.mul_comm]

/-- The credit of a state is bounded by the sizes of its tables. -/
theorem Valid.credit_le (hv : Valid p σ s) :
    credit p s ≤ s.world.pointers.size *
      ((s.world.pointers.size + wage p) * s.world.objs.size) := by
  rw [credit, ← hv.rows.sets]
  apply Table.total_le
  intro h set hset
  refine Nat.mul_le_mul (Nat.add_le_add_right ?_ _) (hv.set_le hset)
  rw [hv.rows.sets]
  exact hv.successors_le h

/-- The numbers of methods, variables, fields and statements lie below `r`, and there are at most
`c` contexts. -/
theorem bound_lt {c r m v f n : Nat} (hc : 1 ≤ c) (hr : m + v + f + n < r) :
    (n + 1) * (c * m) +
        (c * v + f + c * n * f + c * n) *
          ((c * v + f + c * n * f + c * n + 5 * n) * (c * n)) <
      c ^ 3 * r ^ 5 * 256 - 1 := by
  have hr1 : 1 ≤ r := by omega
  -- there are at most `c * r ^ 2` pointers, and so on for the other tables
  have hpointers : c * v + f + c * n * f + c * n ≤ c * (r * r) := by
    have hf : f ≤ c * f := Nat.le_mul_of_pos_left f hc
    have hsum : v + f + n * f + n ≤ r * r := by nlinarith
    nlinarith [Nat.mul_le_mul_left c hsum]
  have hwage : c * v + f + c * n * f + c * n + 5 * n ≤ 6 * (c * (r * r)) := by
    have hn : n ≤ c * (r * r) := by nlinarith [Nat.mul_le_mul hc (Nat.mul_le_mul hr1 hr1)]
    omega
  have hobjs : c * n ≤ c * r := Nat.mul_le_mul_left c (by omega)
  have hone : 1 ≤ c ^ 3 * r ^ 5 := Nat.mul_pos (Nat.pow_pos hc) (Nat.pow_pos hr1)
  have hvisits : (n + 1) * (c * m) ≤ c ^ 3 * r ^ 5 :=
    calc (n + 1) * (c * m) ≤ r * (c * r) :=
          Nat.mul_le_mul (by omega) (Nat.mul_le_mul_left c (by omega))
      _ = c * r ^ 2 := by ring
      _ ≤ c ^ 3 * r ^ 5 := Nat.mul_le_mul (Nat.le_self_pow (by omega) c)
          (Nat.pow_le_pow_right hr1 (by omega))
  have hcredit : (c * v + f + c * n * f + c * n) *
      ((c * v + f + c * n * f + c * n + 5 * n) * (c * n)) ≤ 6 * (c ^ 3 * r ^ 5) :=
    calc (c * v + f + c * n * f + c * n) *
          ((c * v + f + c * n * f + c * n + 5 * n) * (c * n))
        ≤ c * (r * r) * (6 * (c * (r * r)) * (c * r)) :=
          Nat.mul_le_mul hpointers (Nat.mul_le_mul hwage hobjs)
      _ = 6 * (c ^ 3 * r ^ 5) := by ring
  omega

theorem Settled.visited_le (hs : Settled p σ s) : s.visited ≤ s.calls.reachable.length := by
  apply Nat.le_of_not_lt
  intro hlt
  obtain ⟨h, t, m, hh, -⟩ := hs.visited _ hlt
  exact Nat.lt_irrefl _ (List.getElem?_eq_some_iff.1 hh).1

/-- A run that has not ended yet has not taken all the steps it may take. -/
theorem Settled.steps_lt (hs : Settled p σ s) (wf : p.WellFormed) (hpaid : Paid p s) :
    s.visited + s.processed < 2 ^ rounds p σ - 1 := by
  have hv := hs.valid
  let c := 2 ^ (σ.depth * bits (Sensitivity.base p))
  let r := 2 ^ bits (p.methods.size + p.vars.size + p.fields.size + p.stmts.size)
  have hcontexts : s.world.contexts.table.size ≤ c := hv.contexts_le_pow wf
  -- the bound on steps, written with the bounds on contexts and rows
  have hrounds : 2 ^ rounds p σ = c ^ 3 * r ^ 5 * 256 := by
    have hsplit : rounds p σ = σ.depth * bits (Sensitivity.base p) * 3 +
        bits (p.methods.size + p.vars.size + p.fields.size + p.stmts.size) * 5 + 8 := by
      unfold rounds Sensitivity.base
      ring
    have hc : 2 ^ (σ.depth * bits (Sensitivity.base p) * 3) = c ^ 3 := Nat.pow_mul ..
    have hr : 2 ^ (bits (p.methods.size + p.vars.size + p.fields.size + p.stmts.size) * 5) =
        r ^ 5 := Nat.pow_mul ..
    rw [hsplit, Nat.pow_add, Nat.pow_add, hc, hr]
  have hvisits : s.visited ≤ c * p.methods.size :=
    Nat.le_trans hs.visited_le (Nat.le_trans (hv.reachable_le wf) (Nat.mul_le_mul_right _ hcontexts))
  have hobjs : s.world.objs.size ≤ c * p.stmts.size :=
    Nat.le_trans hv.objs_le (Nat.mul_le_mul_right _ hcontexts)
  have hpointers : s.world.pointers.size ≤ c * p.vars.size + p.fields.size +
      c * p.stmts.size * p.fields.size + c * p.stmts.size := by
    have h := hv.pointers_le wf
    have h₁ := Nat.mul_le_mul_right p.vars.size hcontexts
    have h₂ := Nat.mul_le_mul_right p.fields.size hobjs
    omega
  have hcredit := Nat.le_trans hv.credit_le (Nat.mul_le_mul hpointers
    (Nat.mul_le_mul (Nat.add_le_add_right hpointers (wage p)) hobjs))
  have hspent := Nat.mul_le_mul_left (p.stmts.size + 1) hvisits
  rw [Nat.succ_mul] at hspent
  have hbound := bound_lt (c := c) (r := r) Nat.one_le_two_pow
    (lt_two_pow_bits (p.methods.size + p.vars.size + p.fields.size + p.stmts.size))
  have hpaid' := hpaid
  unfold Paid at hpaid'
  rw [hrounds]
  unfold wage at hcredit
  omega

/-! ## Ends -/

theorem paid_start (p : Program) (order : Order) : Paid p (start p order) := Nat.zero_le _

/-- A run without a budget is over before it would be cut off: it has come to an empty work list
with every reachable method visited, or to an error of a statement that can not be carried out. -/
theorem steps_ends (wf : p.WellFormed) (σ : Sensitivity) (order : Order) :
    (∃ s, steps p σ none (2 ^ rounds p σ - 1) (start p order) = .ok (.finished s true) ∧
      Settled p σ s ∧ s.calls.reachable.length ≤ s.visited ∧ s.workList.toList = []) ∨
    ∃ e, steps p σ none (2 ^ rounds p σ - 1) (start p order) = .error (.error e) ∧
      Fails p (Least p σ) e := by
  have hlast : ∀ s, Settled p σ s → Paid p s →
      s.visited + s.processed < 2 ^ rounds p σ - 1 := fun s hs => hs.steps_lt wf
  generalize 2 ^ rounds p σ - 1 = n at hlast ⊢
  have hsound : Sound p σ none (steps p σ none n (start p order)) := sound_steps wf order n
  cases hrun : steps p σ none n (start p order) with
  | error e =>
    rw [hrun] at hsound
    obtain ⟨e, rfl, hfails⟩ := hsound
    exact Or.inr ⟨e, rfl, hfails⟩
  | ok r =>
    rw [hrun] at hsound
    cases r with
    | running s =>
      -- a run that goes on would have taken fewer steps than it has
      obtain ⟨hpaid, hsum⟩ := steps_paid wf (paid_start p order) hrun
      have hlt := hlast s hsound hpaid
      change s.visited + s.processed = 0 + 0 + n at hsum
      omega
    | finished s completed =>
      obtain ⟨hs, hall, hend⟩ := hsound
      cases completed with
      | true => exact Or.inl ⟨s, rfl, hs, hall, hend⟩
      | false =>
        obtain ⟨b, hb, -⟩ := hend
        cases hb

/-! ## Whole runs -/

/-- A run that has an output has come to a stop, with every reachable method visited, whether its
work list is empty or its budget is spent. -/
theorem exists_steps_of_solve (wf : p.WellFormed) {order : Order} {budget : Option Nat}
    {out : Output} (h : solve p σ order budget = .ok out) :
    ∃ n s, steps p σ budget n (start p order) = .ok (.finished s out.completed) ∧
      out = s.output out.completed ∧ Settled p σ s ∧ s.calls.reachable.length ≤ s.visited := by
  have hlast : ∀ s, Settled p σ s → Paid p s →
      s.visited + s.processed < 2 ^ rounds p σ - 1 := fun s hs => hs.steps_lt wf
  rw [solve_eq_steps] at h
  -- the number of steps is too large to be looked at
  generalize 2 ^ rounds p σ - 1 = n at h hlast
  have hsound : Sound p σ budget (steps p σ budget n (start p order)) := sound_steps wf order n
  obtain ⟨r, hrun, rfl⟩ := Outcome.map_eq_ok.1 h
  rw [hrun] at hsound
  cases r with
  | running s =>
    -- a run that goes on would have taken fewer steps than it has
    obtain ⟨hpaid, hsum⟩ := steps_paid wf (paid_start p order) hrun
    have hlt := hlast s hsound hpaid
    change s.visited + s.processed = 0 + 0 + n at hsum
    omega
  | finished s completed => exact ⟨n, s, hrun, rfl, hsound.1, hsound.2.1⟩

/-- A run on a built program needs no cut-off: after finitely many steps its work list is empty
with every reachable method visited, or a statement has ended it with an error.  The outcome of
`solve` is the outcome of those steps. -/
theorem solve_terminates (hp : p.Built) (σ : Sensitivity) (order : Order) :
    ∃ n < 2 ^ rounds p σ,
      (∃ s, steps p σ none n (start p order) = .ok (.finished s true) ∧
        s.workList.toList = [] ∧ s.calls.reachable.length ≤ s.visited ∧
        solve p σ order none = .ok (s.output true)) ∨
      ∃ e, steps p σ none n (start p order) = .error (.error e) ∧
        solve p σ order none = .error (.error e) := by
  have hends := steps_ends hp.wellFormed σ order
  have hsolve := solve_eq_steps p σ order none
  have hlt : 2 ^ rounds p σ - 1 < 2 ^ rounds p σ := Nat.sub_lt (Nat.two_pow_pos _) Nat.one_pos
  -- the number of steps is too large to be looked at
  generalize 2 ^ rounds p σ - 1 = n at hends hsolve hlt
  refine ⟨n, hlt, ?_⟩
  rcases hends with ⟨s, hrun, -, hall, hempty⟩ | ⟨e, hrun, -⟩
  · refine Or.inl ⟨s, hrun, hempty, hall, ?_⟩
    rw [hsolve, hrun]
    rfl
  · refine Or.inr ⟨e, hrun, ?_⟩
    rw [hsolve, hrun]
    rfl

/-- The box program comes to its end without an error. -/
theorem boxProgram_terminates :
    boxProgram.Built ∧ ∃ n < 2 ^ rounds boxProgram (.object 1), ∃ s,
      steps boxProgram (.object 1) none n (start boxProgram .fifo) = .ok (.finished s true) ∧
        s.workList.toList = [] := by
  refine ⟨boxProgram_built, ?_⟩
  obtain ⟨n, hn, ⟨s, hrun, hempty, -⟩ | ⟨e, -, hsolve⟩⟩ :=
    solve_terminates boxProgram_built (.object 1) .fifo
  · exact ⟨n, hn, s, hrun, hempty⟩
  · have hok : (solve boxProgram (.object 1) .fifo none).isOk = true := by decide +kernel
    rw [hsolve] at hok
    cases hok

end PointerAnalysis.Solver
