import PointerAnalysis.Proofs.CallGraph.FromHierarchy
import PointerAnalysis.Proofs.Result.Projections
import PointerAnalysis.Proofs.Result.Summary

/-!
# No handle dangles

A run on a built program follows no handle that names no row, neither in the program nor among what
it has met itself.  The same is true of the call graph of the class hierarchy, and of every question
to the result of a run.

## Main definitions

- `Result.Answers`: every question to a result is answered.

## Main statements

- `solve_ne_dangling`: a run ends with an output or with an error of the program.
- `Presentable.answers`: what a result mentions is there, so that its questions are answered.
- `analysis_safe`: analyses of built programs follow no dangling handle.
-/

namespace PointerAnalysis

open Solver

/-! ## Runs -/

namespace Solver

variable {p : Program} {σ : Sensitivity} {order : Order} {budget : Option Nat}

theorem steps_ne_dangling (wf : p.WellFormed) (n : Nat) :
    steps p σ budget n (start p order) ≠ .error .dangling := by
  intro h
  have hsound : Sound p σ budget (steps p σ budget n (start p order)) := sound_steps wf order n
  rw [h] at hsound
  -- the errors of a run are those of statements
  obtain ⟨e, he, -⟩ := hsound
  cases he

theorem solve_ne_dangling (wf : p.WellFormed) : solve p σ order budget ≠ .error .dangling := by
  have hsteps : ∀ n, steps p σ budget n (start p order) ≠ .error .dangling :=
    steps_ne_dangling wf
  rw [solve_eq_steps]
  generalize 2 ^ rounds p σ - 1 = n
  specialize hsteps n
  cases hrun : steps p σ budget n (start p order) with
  | ok r => exact fun h => by cases h
  | error e =>
    rw [hrun] at hsteps
    intro h
    exact hsteps (congrArg Except.error (Except.error.inj h))

end Solver

/-! ## Questions to a result -/

namespace Program

variable {p : Program}

theorem has_of_methodSignature {m : MethodId} {signature : String}
    (h : p.methodSignature m = .ok signature) : p.methods.Has m := by
  obtain ⟨decl, hd, -⟩ := Outcome.bind_eq_ok.1 h
  exact has_of_methodAt hd

theorem has_of_ownerOf {s : StmtId} {m : MethodId} (h : p.ownerOf s = .ok m) : p.stmts.Has s := by
  obtain ⟨site, hs, -⟩ := ownerOf_eq_ok.1 h
  exact Table.has_of_get? hs

end Program

namespace Result

variable {r : Result} {p : Program}

/-- Every question to a result is answered, and what an answer mentions can be looked up. -/
structure Answers (r : Result) (p : Program) : Prop where
  reachable : ∀ h ∈ r.output.calls.reachable, ∃ q, r.output.world.methodAt h = .ok q
  edges : ∀ e ∈ r.output.calls.edges, (∃ q, r.output.world.siteAt e.site = .ok q) ∧
    ∃ q, r.output.world.methodAt e.callee = .ok q
  plainCallGraph : ∃ g, r.plainCallGraph = .ok g ∧ (∀ m ∈ g.reachable, p.methods.Has m) ∧
    ∀ e ∈ g.edges, p.stmts.Has e.site ∧ p.methods.Has e.callee
  summary : ∃ S, r.summary p = .ok S
  toDot : ∃ text, r.toDot p = .ok text
  pointsTo : ∀ v, ∃ os, r.pointsTo v = .ok os ∧ ∀ o ∈ os, ∃ label, r.objLabel p o = .ok label
  pointsToUnder : ∀ c v, ∃ qs, r.pointsToUnder c v = .ok qs
  contextsOf : ∀ v, ∃ cs, r.contextsOf v = .ok cs ∧
    ∀ c ∈ cs, ∃ elems, r.contextElems c = .ok elems
  mayAlias : ∀ v w, ∃ b, r.mayAlias v w = .ok b
  staticFields : ∀ f, ∃ os, r.staticFieldPointsTo f = .ok os
  instanceFields : ∀ o f, ∃ os, r.instanceFieldPointsTo o f = .ok os
  arrays : ∀ o, ∃ os, r.arrayPointsTo o = .ok os

/-- The contexts of a variable have rows. -/
theorem Readable.exists_contextsOf (hr : r.Readable) (v : VarId) :
    ∃ cs, r.contextsOf v = .ok cs ∧ ∀ c ∈ cs, ∃ elems, r.contextElems c = .ok elems := by
  obtain ⟨cs, hcs, -, hmem⟩ := hr.exists_nodup_contextsOf v
  refine ⟨cs, hcs, fun c hc => ?_⟩
  obtain ⟨h, hrow⟩ := (hmem c).1 hc
  -- the pointer has a name, and so has its context
  obtain ⟨x, hx⟩ := hr.legible.pointers h (Table.has_of_get? hrow)
  obtain ⟨key, hkey, hname⟩ := Option.bind_eq_some_iff.1 hx
  obtain rfl := Option.some.inj (hrow.symm.trans hkey)
  obtain ⟨t, ht, -⟩ := Option.map_eq_some_iff.1 hname
  obtain ⟨elems, helems, -⟩ := Option.bind_eq_some_iff.1 ht
  exact ⟨elems, Outcome.ofRow_eq_ok.2 helems⟩

/-- What a presentable result mentions is there, so that every question is answered. -/
theorem Presentable.answers (hr : r.Presentable p) : r.Answers p := by
  have hreadable := hr.readable
  have hlegible := hreadable.legible
  have hreferences := hreadable.referencesAgree
  obtain ⟨g, hg, hreachable, hedges⟩ := hr.exists_namedCallGraph
  obtain ⟨S, hS, -⟩ := hr.lookup_summary
  -- handles that the call graph mentions name rows
  have hmethod : ∀ {h}, r.output.world.methods.Has h → ∃ q, r.output.world.methodAt h = .ok q :=
    fun hh => (Table.exists_get? hh).imp fun _ h => Outcome.ofRow_eq_ok.2 h
  have hsite : ∀ {h}, r.output.world.sites.Has h → ∃ q, r.output.world.siteAt h = .ok q :=
    fun hh => (Table.exists_get? hh).imp fun _ h => Outcome.ofRow_eq_ok.2 h
  exact
    { reachable := fun h hh => hmethod (hlegible.reachable h hh)
      edges := fun e he => ⟨hsite (hlegible.edges e he).1, hmethod (hlegible.edges e he).2⟩
      plainCallGraph := by
        refine ⟨g, hg, fun m hm => ?_, fun e he => ?_⟩
        · obtain ⟨signature, hs⟩ := hreachable m hm
          exact Program.has_of_methodSignature hs
        · obtain ⟨⟨caller, howner, -⟩, signature, hs⟩ := hedges e he
          exact ⟨Program.has_of_ownerOf howner, Program.has_of_methodSignature hs⟩
      summary := ⟨S, hS⟩
      toDot := hr.exists_toDot
      pointsTo := fun v => hr.exists_label_of_collects (hreadable.pointsTo v)
      pointsToUnder := fun c v => (hreferences.pointsToUnder c v).imp fun _ h => h.1
      contextsOf := hreadable.exists_contextsOf
      mayAlias := fun v w => by
        obtain ⟨b, -, -, hb, -⟩ := hreferences.mayAlias v w
        exact ⟨b, hb⟩
      staticFields := fun f => (hreadable.staticFieldPointsTo f).imp fun _ h => h.1
      instanceFields := fun o f => (hreferences.instanceFieldPointsTo o f).imp fun _ h => h.1
      arrays := fun o => (hreferences.arrayPointsTo o).imp fun _ h => h.1 }

end Result

/-! ## Main statements -/

/-- No handle dangles in an analysis of a built program: not in any number of steps of a run, not in
the call graph of the class hierarchy, not in lookups of methods, and, if the run gives an output,
neither while its index is made nor in any question to the result. -/
theorem analysis_safe {p : Program} (hp : p.Built) (σ : Sensitivity) (order : Order)
    (budget : Option Nat) :
    (∀ n, steps p σ budget n (start p order) ≠ .error .dangling) ∧
      solve p σ order budget ≠ .error .dangling ∧
      (∃ g, p.hierarchyCallGraph = .ok g ∧ (∀ m ∈ g.reachable, p.methods.Has m) ∧
        ∀ e ∈ g.edges, p.stmts.Has e.site ∧ p.methods.Has e.callee) ∧
      (∀ c s m, p.declaredMethod? c s = some m → p.methods.Has m) ∧
      ∀ out label, solve p σ order budget = .ok out →
        ∃ r, Result.ofOutput label out = .ok r ∧ r.output = out ∧ r.Answers p := by
  have wf := hp.wellFormed
  refine ⟨steps_ne_dangling wf, solve_ne_dangling wf, ?_,
    fun c s m => Program.has_of_declaredMethod?, fun out label h => ?_⟩
  · obtain ⟨g, hg, hcoherent, -⟩ := Program.exists_hierarchyCallGraph wf
    refine ⟨g, hg, hcoherent.methods, fun e he => ?_⟩
    obtain ⟨m, -, call, ⟨_, _, _, _, _, hs⟩, -, hmay⟩ := hcoherent.edges e he
    exact ⟨Program.has_of_stmtAt hs, hmay.has⟩
  · obtain ⟨r, hr, hout⟩ := exists_ofOutput_of_solve wf h label
    exact ⟨r, hr, hout, (presentable_of_solve hp h hr).answers⟩

/-- A run on the box program that stops after two deliveries has a result that answers every
question. -/
theorem boxProgram_safe :
    ∃ out r, boxProgram.Built ∧ solve boxProgram (.type 2) .lifo (some 2) = .ok out ∧
      Result.ofOutput (Sensitivity.type 2).label out = .ok r ∧ r.Answers boxProgram := by
  obtain ⟨out, hout⟩ : ∃ out, solve boxProgram (.type 2) .lifo (some 2) = .ok out :=
    Outcome.exists_eq_ok (by decide +kernel)
  obtain ⟨-, -, -, -, hanswers⟩ := analysis_safe boxProgram_built (.type 2) .lifo (some 2)
  obtain ⟨r, hr, -, hr'⟩ := hanswers out _ hout
  exact ⟨out, r, boxProgram_built, hout, hr, hr'⟩

end PointerAnalysis
