import Mathlib.Logic.Equiv.Basic
import PointerAnalysis.Proofs.Renaming
import PointerAnalysis.Proofs.Solver.Confluence

/-!
# More statements, more facts

A run on a program finds nothing that a run on a program with more statements does not find, and it
does not fail unless the other run fails.  Nothing depends on the order of the statements: if they
are permuted then a run finds the same, with the statements renamed.  The order of statements shows
only in handles and in the order of deliveries, and neither of them matters.

## Main statements

- `solve_monotone`: runs find more where there are more statements, and the same where the statements
  are permuted.
-/

namespace PointerAnalysis

/-- To permute the statements of a program is to embed it in another one, and that one in the
first. -/
theorem Program.embedsIn_of_perm {p p' : Program} {φ : Equiv.Perm StmtId}
    (hd : p'.declarations = p.declarations) (hs : ∀ s, p'.stmts.get? (φ s) = p.stmts.get? s) :
    p.EmbedsIn p' φ ∧ p'.EmbedsIn p φ.symm := by
  constructor
  · exact { declarations := hd, stmts := fun s site hsite => (hs s).trans hsite }
  · refine { declarations := hd.symm, stmts := fun s site hsite => ?_ }
    rw [← hs, Equiv.apply_symm_apply]
    exact hsite

namespace Solver

variable {p p' : Program} {σ : Sensitivity} {order : Order} {φ : StmtId → StmtId}

/-- Where a run on the larger program gives an output, so does a run on the smaller one, and the
output of the larger says all that it says. -/
theorem exists_solve_of_embedsIn (hp : p.Built) (hp' : p'.Built) (h : p.EmbedsIn p' φ)
    (order : Order) {order' : Order} {out' : Output} (hout' : solve p' σ order' none = .ok out') :
    ∃ out, solve p σ order none = .ok out ∧ ∀ f, out.facts f → out'.facts (f.rename φ) := by
  have hexact' := exact_of_solve hp'.wellFormed hout'
  rcases solve_none_cases hp.wellFormed σ order with ⟨out, hout, -⟩ | ⟨e, -, hfails⟩
  · refine ⟨out, hout, fun f hf => (hexact'.facts _).2 (h.least hp hp' ?_)⟩
    exact ((exact_of_solve hp.wellFormed hout).facts f).1 hf
  · -- the run on the larger program would have met a statement that fails
    obtain ⟨e', hfails'⟩ := h.fails hp hp' hfails
    obtain ⟨-, hno⟩ := closed_of_solve hp'.wellFormed hout' (completed_of_solve hp'.wellFormed hout')
    exact absurd (hfails'.mono fun f hf => (hexact'.facts f).2 hf) (hno e')

/-- Runs without a budget, in whatever orders.  If all statements of a program are statements of
another one, then all that a run finds on it is found on the other one, with the statements
renamed; and if the other run gives an output at all, so does this one.  If the statements of the
two programs differ by a permutation, then both runs fail, or both give an output and find the
same. -/
theorem solve_monotone (hp : p.Built) (hp' : p'.Built) (σ : Sensitivity) (order order' : Order) :
    (∀ φ out', p.EmbedsIn p' φ → solve p' σ order' none = .ok out' →
      ∃ out, solve p σ order none = .ok out ∧ ∀ f, out.facts f → out'.facts (f.rename φ)) ∧
    ∀ φ : Equiv.Perm StmtId, p.EmbedsIn p' φ → p'.EmbedsIn p φ.symm →
      (∃ e e', solve p σ order none = .error (.error e) ∧
        solve p' σ order' none = .error (.error e')) ∨
      ∃ out out', solve p σ order none = .ok out ∧ solve p' σ order' none = .ok out' ∧
        ∀ f, out.facts f ↔ out'.facts (f.rename φ) := by
  refine ⟨fun φ out' h hout' => exists_solve_of_embedsIn hp hp' h order hout', fun φ h h' => ?_⟩
  rcases solve_none_cases hp.wellFormed σ order with ⟨out, hout, -⟩ | ⟨e, he, -⟩
  · -- each output says what the other one says
    obtain ⟨out', hout', hback⟩ := exists_solve_of_embedsIn hp' hp h' order' hout
    obtain ⟨out₁, hout₁, hforth⟩ := exists_solve_of_embedsIn hp hp' h order hout'
    obtain rfl := Except.ok.inj (hout.symm.trans hout₁)
    refine Or.inr ⟨out, out', hout, hout', fun f => ⟨hforth f, fun hf => ?_⟩⟩
    have hf := hback _ hf
    rwa [Fact.rename_leftInverse φ.leftInverse_symm] at hf
  · rcases solve_none_cases hp'.wellFormed σ order' with ⟨out', hout', -⟩ | ⟨e', he', -⟩
    · obtain ⟨out, hout, -⟩ := exists_solve_of_embedsIn hp hp' h order hout'
      cases he.symm.trans hout
    · exact Or.inl ⟨e, e', he, he'⟩

/-! ## A permuted program -/

/-- The steps of the box program, with the statements of `main` from the last to the first. -/
def reversedBoxSteps : List Draft.Step :=
  [.declareClass "Box" none,
    .declareField ⟨0⟩ "item" false,
    .declareMethod ⟨0⟩ ⟨"void main()"⟩ .static,
    .declareMethod ⟨0⟩ ⟨"void put(Box)"⟩ .member,
    .declareParam ⟨1⟩ "p",
    .declareVar ⟨0⟩ "x",
    .declareVar ⟨0⟩ "y",
    .setEntry ⟨0⟩,
    .append ⟨0⟩ (.load ⟨3⟩ (some ⟨2⟩) ⟨⟨0⟩, "item"⟩),
    .append ⟨0⟩ (.invoke
      { kind := .virtual, methodRef := ⟨⟨0⟩, ⟨"void put(Box)"⟩⟩, receiver := some ⟨2⟩, args := [⟨2⟩] }),
    .append ⟨0⟩ (.alloc ⟨2⟩ (.cls ⟨0⟩)),
    .append ⟨1⟩ (.store (some ⟨0⟩) ⟨⟨0⟩, "item"⟩ ⟨1⟩)]

/-- The program that these steps build. -/
def reversedBox : Program :=
  { boxProgram with
    stmts := ⟨#[
      { stmt := .load ⟨3⟩ (some ⟨2⟩) ⟨⟨0⟩, "item"⟩, method := ⟨0⟩ },
      { stmt := .invoke
          { kind := .virtual, methodRef := ⟨⟨0⟩, ⟨"void put(Box)"⟩⟩, receiver := some ⟨2⟩
            args := [⟨2⟩] }
        method := ⟨0⟩ },
      { stmt := .alloc ⟨2⟩ (.cls ⟨0⟩), method := ⟨0⟩ },
      { stmt := .store (some ⟨0⟩) ⟨⟨0⟩, "item"⟩ ⟨1⟩, method := ⟨1⟩ }]⟩
    dereferences :=
      ⟨#[{ fieldStores := [⟨3⟩] }, {}, { fieldLoads := [⟨0⟩], calls := [⟨1⟩] }, {}]⟩ }

theorem reversedBox_built : reversedBox.Built := ⟨reversedBoxSteps, by decide +kernel⟩

/-- The permutation that swaps the first and the third statement. -/
theorem boxProgram_embedsIn_reversedBox :
    boxProgram.EmbedsIn reversedBox (Equiv.swap ⟨0⟩ ⟨2⟩) ∧
      reversedBox.EmbedsIn boxProgram (Equiv.swap ⟨0⟩ ⟨2⟩ : Equiv.Perm StmtId).symm := by
  refine Program.embedsIn_of_perm rfl fun s => ?_
  by_cases h : s.index < 4
  · obtain ⟨n⟩ := s
    revert n
    decide
  · -- there are no other statements
    have hnone : ¬ boxProgram.stmts.Has s := h
    have hnone' : ¬ reversedBox.stmts.Has s := h
    have hne : s ≠ ⟨0⟩ ∧ s ≠ ⟨2⟩ := by
      constructor <;> rintro rfl <;> exact h (by decide)
    rw [Equiv.swap_apply_of_ne_of_ne hne.1 hne.2, Table.get?_eq_none_iff.2 hnone,
      Table.get?_eq_none_iff.2 hnone']

/-- With the statements of `main` in reverse, a run on the box program finds the same. -/
theorem boxProgram_monotone :
    boxProgram.Built ∧ reversedBox.Built ∧
      ∃ out out', solve boxProgram (.callSite 1) .fifo none = .ok out ∧
        solve reversedBox (.callSite 1) .lifo none = .ok out' ∧
        ∀ f, out.facts f ↔ out'.facts (f.rename (Equiv.swap ⟨0⟩ ⟨2⟩)) := by
  refine ⟨boxProgram_built, reversedBox_built, ?_⟩
  obtain ⟨h, h'⟩ := boxProgram_embedsIn_reversedBox
  rcases (solve_monotone boxProgram_built reversedBox_built (.callSite 1) .fifo .lifo).2 _ h h' with
    ⟨e, e', he, -⟩ | hfound
  · have hok : (solve boxProgram (.callSite 1) .fifo none).isOk = true := by decide +kernel
    rw [he] at hok
    cases hok
  · exact hfound

end Solver

end PointerAnalysis
