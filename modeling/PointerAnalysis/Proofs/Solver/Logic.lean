import PointerAnalysis.Proofs.Outcome
import PointerAnalysis.Solver.State

/-!
# A program logic for runs

What is proved of the rules of the analysis has one shape: an invariant is kept, the state grows in
a certain way, errors have a cause, and at the end some condition holds.  A discipline fixes the
first three.  `Ensures` then speaks of the condition only, and composing computations composes
their growth.

## Main definitions

- `Discipline`: an invariant, a way to grow, and the errors that may be reported.
- `Ensures`: a computation keeps a discipline and ends with a condition.

## Main statements

- `Ensures.bind`: computations in sequence.
- `Ensures.forM`: a computation for each element of a list.
- `Ensures.resume`: from one discipline to another.
-/

namespace PointerAnalysis.Solver

/-- What every part of a computation has to respect. -/
structure Discipline where
  invariant : State → Prop
  /-- How a later state is related to an earlier one. -/
  grows : State → State → Prop
  reports : Halt → Prop
  refl : ∀ s, grows s s
  trans : ∀ {s s' s''}, grows s s' → grows s' s'' → grows s s''

/-- Begun in `s`, the computation ends in a state with the invariant, grown out of `s`, where `Q`
holds, or else it reports one of the errors it may report. -/
def Ensures (D : Discipline) {α : Type} (x : SolverM α) (s : State) (Q : α → State → Prop) : Prop :=
  match x s with
  | .ok (a, s') => D.invariant s' ∧ D.grows s s' ∧ Q a s'
  | .error e => D.reports e

/-! ## Running -/

section Running

variable {α β : Type} {s s' : State} {x : SolverM α} {f : α → SolverM β}

/-- A computation that succeeds is followed by the next one, in the state that it leaves. -/
theorem bind_run {a : α} (hx : x s = .ok (a, s')) : (x >>= f) s = f a s' := by
  show (x s >>= fun r => f r.1 r.2) = _
  rw [hx]
  rfl

/-- A computation that fails is followed by nothing. -/
theorem bind_run_error {e : Halt} (hx : x s = .error e) : (x >>= f) s = .error e := by
  show (x s >>= fun r => f r.1 r.2) = _
  rw [hx]
  rfl

/-- An answer about the program or about the state does not change the state. -/
theorem lift_run {x : Outcome α} {a : α} (hx : x = .ok a) :
    (liftM x : SolverM α) s = .ok (a, s) := by
  rw [hx]
  rfl

theorem lift_run_error {x : Outcome α} {e : Halt} (hx : x = .error e) :
    (liftM x : SolverM α) s = .error e := by
  rw [hx]
  rfl

end Running

namespace Ensures

variable {D D' : Discipline} {α β : Type} {s s' : State} {P Q : α → State → Prop}
  {R : β → State → Prop}

/-! ## Outcomes -/

/-- What is ensured holds of the state in which the computation ends. -/
theorem of_ok {x : SolverM α} (h : Ensures D x s Q) {a : α} (e : x s = .ok (a, s')) :
    D.invariant s' ∧ D.grows s s' ∧ Q a s' := by
  unfold Ensures at h
  rw [e] at h
  exact h

/-- If the computation fails, the error is one that may be reported. -/
theorem of_error {x : SolverM α} (h : Ensures D x s Q) {e : Halt} (he : x s = .error e) :
    D.reports e := by
  unfold Ensures at h
  rw [he] at h
  exact h

theorem ok {x : SolverM α} {a : α} (e : x s = .ok (a, s')) (hi : D.invariant s')
    (hg : D.grows s s') (hq : Q a s') : Ensures D x s Q := by
  unfold Ensures
  rw [e]
  exact ⟨hi, hg, hq⟩

theorem error {x : SolverM α} {e : Halt} (he : x s = .error e) (hr : D.reports e) :
    Ensures D x s Q := by
  unfold Ensures
  rw [he]
  exact hr

/-! ## Composition -/

/-- A computation that does nothing ensures what holds already. -/
theorem pure {a : α} (hi : D.invariant s) (hq : Q a s) : Ensures D (Pure.pure a) s Q :=
  ok rfl hi (D.refl s) hq

/-- A condition may be weakened, with all that is known about the end of the computation. -/
theorem mono {x : SolverM α} (h : Ensures D x s P)
    (hpq : ∀ a s', D.invariant s' → D.grows s s' → P a s' → Q a s') : Ensures D x s Q := by
  cases hx : x s with
  | ok r =>
    obtain ⟨a, s'⟩ := r
    obtain ⟨hi, hg, hp⟩ := h.of_ok hx
    exact ok hx hi hg (hpq a s' hi hg hp)
  | error e => exact error hx (h.of_error hx)

/-- What the first computation ensures is at the disposal of the second, and growth is composed. -/
theorem bind {x : SolverM α} {f : α → SolverM β} (h : Ensures D x s P)
    (hf : ∀ a s', D.invariant s' → D.grows s s' → P a s' → Ensures D (f a) s' R) :
    Ensures D (x >>= f) s R := by
  -- an error of the first part is the error of the whole
  cases hx : x s with
  | ok r =>
    obtain ⟨a, s'⟩ := r
    obtain ⟨hi, hg, hp⟩ := h.of_ok hx
    have hfa := hf a s' hi hg hp
    cases hy : f a s' with
    | ok r =>
      obtain ⟨b, s''⟩ := r
      obtain ⟨hi', hg', hr⟩ := hfa.of_ok hy
      exact ok ((bind_run hx).trans hy) hi' (D.trans hg hg') hr
    | error e => exact error ((bind_run hx).trans hy) (hfa.of_error hy)
  | error e => exact error (bind_run_error hx) (h.of_error hx)

/-- What a computation ensures under one discipline, seen under another and from an earlier
state. -/
theorem resume {x y : SolverM α} {s₀ : State} (h : Ensures D x s P) (hrun : y s₀ = x s)
    (hok : ∀ a s', D.invariant s' → D.grows s s' → P a s' →
      D'.invariant s' ∧ D'.grows s₀ s' ∧ Q a s')
    (herr : ∀ e, D.reports e → D'.reports e) : Ensures D' y s₀ Q := by
  -- both computations run alike, so both end well or both fail
  cases hx : x s with
  | ok r =>
    obtain ⟨a, s'⟩ := r
    obtain ⟨hi, hg, hp⟩ := h.of_ok hx
    obtain ⟨hi', hg', hq⟩ := hok a s' hi hg hp
    exact ok (hrun.trans hx) hi' hg' hq
  | error e => exact error (hrun.trans hx) (herr e (h.of_error hx))

/-! ## Primitive computations -/

/-- To look at the state is to go on in the state that is looked at. -/
theorem get_bind {f : State → SolverM β} (h : Ensures D (f s) s R) :
    Ensures D (get >>= f) s R := h

/-- Nothing follows an error. -/
theorem throw_bind {e : Halt} {f : α → SolverM β} (he : D.reports e) :
    Ensures D (MonadExcept.throw e >>= f) s R :=
  error (bind_run_error rfl) he

/-- An answer is handed on. -/
theorem lift_bind {x : Outcome α} {f : α → SolverM β} {a : α} (hx : x = .ok a)
    (hf : Ensures D (f a) s R) : Ensures D (liftM x >>= f) s R := by
  subst hx
  exact hf

/-- A refusal is reported. -/
theorem lift_bind_error {x : Outcome α} {f : α → SolverM β} {e : Halt} (hx : x = .error e)
    (he : D.reports e) : Ensures D (liftM x >>= f) s R := by
  subst hx
  exact error rfl he

/-! ## Repetition -/

/-- Conditions that growth keeps hold for all elements of a list, once they have been brought about
for one after the other. -/
theorem forM {xs : List α} {f : α → SolverM Unit} {P : α → State → Prop} (hi : D.invariant s)
    (hstable : ∀ x s s', D.grows s s' → P x s → P x s')
    (hf : ∀ x ∈ xs, ∀ s', D.invariant s' → D.grows s s' → Ensures D (f x) s' fun _ => P x) :
    Ensures D (xs.forM f) s fun _ s' => ∀ x ∈ xs, P x s' := by
  induction xs generalizing s with
  | nil => exact pure hi (by simp)
  | cons x xs ih =>
    rw [List.forM_eq_forM, List.forM_cons]
    -- what holds of `x` now is kept by the rest of the loop
    apply bind (hf x (List.mem_cons_self ..) s hi (D.refl s))
    intro _ s' hi' hg' hx
    refine mono (ih hi' fun y hy s'' hi'' hg'' =>
      hf y (List.mem_cons_of_mem _ hy) s'' hi'' (D.trans hg' hg'')) fun _ s'' _ hg'' hxs => ?_
    exact List.forall_mem_cons.2 ⟨hstable x s' s'' hg'' hx, hxs⟩

end Ensures

end PointerAnalysis.Solver
