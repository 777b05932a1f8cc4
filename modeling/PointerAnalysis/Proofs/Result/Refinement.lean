import PointerAnalysis.Proofs.Context.Coarsening
import PointerAnalysis.Proofs.Result.Queries
import PointerAnalysis.Proofs.Solver.Confluence

/-!
# Finer contexts find less

The more an analysis tells contexts apart, the less its result says once contexts are left out
again.  Results have handles of their own, so the objects of two results are matched by their
allocation statements.  A finer analysis also fails only where a coarser one does.

## Main definitions

- `Result.Within`: one result says no more than another.
- `Sensitivity.Sharper`: the sensitivities that tell more contexts apart than another.

## Main statements

- `exists_within_of_coarsening`: a finer analysis succeeds where a coarser one does, and its result
  is within the coarser one.
- `analyzeWith_within_insensitive`, `analyzeWith_within_of_sharper`: the analyses that are finer.
-/

namespace PointerAnalysis

open Solver

namespace Result

/-! ## Comparing results -/

/-- Objects of two results come from one allocation statement. -/
def SameSite (r r' : Result) (o o' : ObjId) : Prop :=
  ∃ obj obj', r.obj o = .ok obj ∧ r'.obj o' = .ok obj' ∧ obj'.site = obj.site

/-- Both results answer, and every object in the answer of `r` is in that of `r'`. -/
def Covers (r r' : Result) (answer answer' : Outcome (AscendingSet ObjId)) : Prop :=
  ∃ os os', answer = .ok os ∧ answer' = .ok os' ∧ ∀ o ∈ os, ∃ o' ∈ os', SameSite r r' o o'

/-- The result `r` says no more than `r'`, contexts left out. -/
structure Within (r r' : Result) : Prop where
  reachable : ∀ m, r.isReachable m = true → r'.isReachable m = true
  calls : ∃ g g', r.plainCallGraph = .ok g ∧ r'.plainCallGraph = .ok g' ∧
    (∀ m ∈ g.reachable, m ∈ g'.reachable) ∧ ∀ e ∈ g.edges, e ∈ g'.edges
  vars : ∀ v, Covers r r' (r.pointsTo v) (r'.pointsTo v)
  staticFields : ∀ f, Covers r r' (r.staticFieldPointsTo f) (r'.staticFieldPointsTo f)
  /-- The objects of `r` are there in `r'`, with all that their fields and elements refer to. -/
  objects : ∀ o obj, r.obj o = .ok obj → ∃ o', r'.objAt? obj.site = some o' ∧ SameSite r r' o o' ∧
    (∀ f, Covers r r' (r.instanceFieldPointsTo o f) (r'.instanceFieldPointsTo o' f)) ∧
    Covers r r' (r.arrayPointsTo o) (r'.arrayPointsTo o')

variable {r r' : Result}

/-- The object of an allocation statement is found by it. -/
theorem Readable.objAt?_eq (hr : r.Readable) {o : ObjId} {obj : Obj} (ho : r.obj o = .ok obj) :
    r.objAt? obj.site = some o := by
  have ho : r.output.heap.objects.get? o = some obj := Outcome.ofRow_eq_ok.1 ho
  cases hfind : r.objAt? obj.site with
  | none => simpa using Table.find?_eq_none hfind ho
  | some o' =>
    obtain ⟨obj', ho', hs⟩ := Table.get?_find? hfind
    exact congrArg some (hr.legible.faithful.heap _ _ _ _ ho' ho (of_decide_eq_true hs))

/-- An object that a result knows under some context is one of the result. -/
theorem exists_obj_of_facts {o : ObjName}
    (ho : r.output.facts (.object o)) : ∃ id obj, r.obj id = .ok obj ∧ obj.site = o.site := by
  obtain ⟨h, hh⟩ := ho
  obtain ⟨q, -, hn⟩ := Option.bind_eq_some_iff.1 hh
  obtain ⟨-, obj, hobj, hs⟩ := Universe.objKeyName?_eq_some.1 hn
  exact ⟨q.entity, obj, Outcome.ofRow_eq_ok.2 hobj, hs⟩

end Result

/-! ## Exact results -/

section Exact

variable {p : Program} {σ τ : Sensitivity} {r r' : Result}

/-- Everything a result of `σ` says is said by a result of `τ`, once contexts are forgotten. -/
theorem facts_of_coarsening (κ : Coarsening p σ τ) (hr : r.output.Exact p σ)
    (hr' : r'.output.Exact p τ) {f : Fact} (hf : r.output.facts f) : κ.pull r'.output.facts f := by
  have hfacts : r'.output.facts = Least p τ := funext fun f => propext (hr'.facts f)
  rw [hfacts]
  exact κ.least ((hr.facts f).1 hf)

/-- An answer covers another one if it collects from the locations that are left when contexts are
forgotten. -/
theorem covers_of_coarsening (κ : Coarsening p σ τ) (hr : r.output.Exact p σ)
    (hr' : r'.output.Exact p τ) {X X' : PointerName → Prop} (hX : ∀ x, X x → X' (κ.pointer x))
    {answer answer' : Outcome (AscendingSet ObjId)}
    (h : r.Collects X answer) (h' : r'.Collects X' answer') :
    Result.Covers r r' answer answer' := by
  obtain ⟨os, hos, hmem⟩ := h
  obtain ⟨os', hos', hmem'⟩ := h'
  refine ⟨os, os', hos, hos', fun o ho => ?_⟩
  obtain ⟨obj, x, t, hobj, hx, hf⟩ := (hmem o).1 ho
  have hf' : r'.output.facts (.refers (κ.pointer x) ⟨κ.heap t, obj.site⟩) :=
    facts_of_coarsening κ hr hr' hf
  -- what a location refers to is an object of the result
  have hobject : r'.output.facts (.object ⟨κ.heap t, obj.site⟩) :=
    (hr'.facts _).2 (least_closed _ (.referent ((hr'.facts _).1 hf')))
  obtain ⟨o', obj', hobj', hs⟩ := Result.exists_obj_of_facts hobject
  have hs : obj'.site = obj.site := hs
  exact ⟨o', (hmem' o').2 ⟨obj', _, _, hobj', hX x hx, by rw [hs]; exact hf'⟩,
    obj, obj', hobj, hobj', hs⟩

/-- Edges of calls are told apart by their ends: their kind is that of the statement. -/
theorem kind_eq_of_calls (wf : p.WellFormed) (hr : r.output.Exact p σ) (hr' : r'.output.Exact p τ)
    {kind kind' : CallKind} {s : StmtId} {t t₁ t' t₁' : ContextName} {m m' : MethodId}
    (h : r.output.facts (.calls kind t s t₁ m)) (h' : r'.output.facts (.calls kind' t' s t₁' m')) :
    kind' = kind := by
  obtain ⟨-, -, -, call, hs, rfl⟩ := ((hr.facts _).1 h).fits wf
  obtain ⟨-, -, -, call', hs', rfl⟩ := ((hr'.facts _).1 h').fits wf
  obtain rfl := Stmt.invoke.inj (Except.ok.inj (hs.symm.trans hs'))
  rfl

/-- Results of finer rules are within results of coarser ones. -/
theorem within_of_coarsening (wf : p.WellFormed) (κ : Coarsening p σ τ) (hr : r.output.Exact p σ)
    (hr' : r'.output.Exact p τ) (hreadable : r.Readable) (hreadable' : r'.Readable) :
    r.Within r' := by
  have hfacts : ∀ {f}, r.output.facts f → κ.pull r'.output.facts f := facts_of_coarsening κ hr hr'
  have hreaches : ∀ {m}, (∃ t, r.output.facts (.reaches t m)) →
      ∃ t, r'.output.facts (.reaches t m) := fun h => h.elim fun t ht => ⟨κ.method t, hfacts ht⟩
  obtain ⟨g, hg, hmethods, hedges, -⟩ := hreadable.exists_plainCallGraph
  obtain ⟨g', hg', hmethods', hedges', hhas'⟩ := hreadable'.exists_plainCallGraph
  refine
    { reachable := fun m hm => ?_
      calls := ⟨g, g', hg, hg', fun m hm => ?_, fun e he => ?_⟩
      vars := fun v => ?_
      staticFields := fun f => ?_
      objects := fun o obj ho => ?_ }
  · exact (hreadable'.isReachable_iff m).2 (hreaches ((hreadable.isReachable_iff m).1 hm))
  · exact (hmethods' m).2 (hreaches ((hmethods m).1 hm))
  · obtain ⟨t, t', hcalls⟩ := hedges e he
    obtain ⟨e', he', hs, hm⟩ := hhas' _ _ _ _ _ (hfacts hcalls)
    obtain ⟨t₁, t₁', hcalls'⟩ := hedges' e' he'
    rw [hs] at hcalls'
    have hk := kind_eq_of_calls wf hr hr' hcalls hcalls'
    cases e
    cases e'
    cases hs
    cases hm
    cases hk
    exact he'
  · refine covers_of_coarsening κ hr hr' ?_ (hreadable.pointsTo v) (hreadable'.pointsTo v)
    intro x hx
    obtain ⟨t, rfl⟩ := hx
    exact ⟨κ.method t, rfl⟩
  · refine covers_of_coarsening κ hr hr' ?_ (hreadable.staticFieldPointsTo f)
      (hreadable'.staticFieldPointsTo f)
    intro x hx
    rw [hx]
    rfl
  · -- the object exists under some context, and so it does under the coarser one
    obtain ⟨t, ht⟩ := hr.heap o obj (Outcome.ofRow_eq_ok.1 ho)
    have hobject : r'.output.facts (.object ⟨κ.heap t, obj.site⟩) := hfacts ((hr.facts _).2 ht)
    obtain ⟨o', obj', ho', hs⟩ := Result.exists_obj_of_facts hobject
    have hs : obj'.site = obj.site := hs
    refine ⟨o', hs ▸ hreadable'.objAt?_eq ho', ⟨obj, obj', ho, ho', hs⟩, fun f => ?_, ?_⟩
    · refine covers_of_coarsening κ hr hr' ?_ (hreadable.instanceFieldPointsTo ho f)
        (hreadable'.instanceFieldPointsTo ho' f)
      intro x hx
      obtain ⟨t, rfl⟩ := hx
      exact ⟨κ.heap t, by rw [hs]; rfl⟩
    · refine covers_of_coarsening κ hr hr' ?_ (hreadable.arrayPointsTo ho)
        (hreadable'.arrayPointsTo ho')
      intro x hx
      obtain ⟨t, rfl⟩ := hx
      exact ⟨κ.heap t, by rw [hs]; rfl⟩

end Exact

/-! ## Analyses -/

section Analyses

variable {p : Program} {σ τ : Sensitivity} {a b : Analyzer}

/-- The results of analyses without a budget are exact. -/
theorem exact_of_analyzeWith (hp : p.Built) (ha : a.config.budget = none) {r : Result}
    (h : a.analyzeWith p σ = .ok r) : r.output.Exact p σ := by
  have hsolve := (readable_of_analyzeWith hp h).1
  rw [ha] at hsolve
  exact exact_of_solve hp.wellFormed hsolve

/-- Where an analysis with coarser contexts gives a result, one with finer contexts does, and its
result is within the other one.  The orders of deliveries may differ. -/
theorem exists_within_of_coarsening (hp : p.Built) (κ : Coarsening p σ τ)
    (ha : a.config.budget = none) (hb : b.config.budget = none) {r' : Result}
    (h : a.analyzeWith p τ = .ok r') : ∃ r, b.analyzeWith p σ = .ok r ∧ r.Within r' := by
  have wf := hp.wellFormed
  have hexact := exact_of_analyzeWith hp ha h
  obtain ⟨hsolve, hreadable⟩ := readable_of_analyzeWith hp h
  rcases solve_none_cases wf σ b.config.order with ⟨out, hout, -⟩ | ⟨e, -, hfails⟩
  · obtain ⟨r, hr, -⟩ := exists_analyzeWith_of_solve hp (hb ▸ hout)
    exact ⟨r, hr, within_of_coarsening wf κ (exact_of_analyzeWith hp hb hr) hexact
      (readable_of_analyzeWith hp hr).2 hreadable⟩
  · -- what fails would have failed with coarser contexts
    rw [ha] at hsolve
    obtain ⟨-, hno⟩ := closed_of_solve wf hsolve (completed_of_solve wf hsolve)
    exact absurd ((κ.fails hfails).mono fun f hf => (hexact.facts f).2 hf) (hno e)

end Analyses

/-! ## Main statements -/

/-- If the analysis without contexts gives a result, so does every analysis with contexts, and its
result is within the one without. -/
theorem analyzeWith_within_insensitive {p : Program} (hp : p.Built) (σ : Sensitivity)
    {a b : Analyzer} (ha : a.config.budget = none) (hb : b.config.budget = none) {r' : Result}
    (h : a.analyzeWith p .insensitive = .ok r') :
    ∃ r, b.analyzeWith p σ = .ok r ∧ r.Within r' :=
  exists_within_of_coarsening hp (.toInsensitive p σ) ha hb h

/-- An analyzer without a budget. -/
def Analyzer.unlimited (order : Order) : Analyzer := ⟨⟨.insensitive, order, none⟩, rfl⟩

/-- On the box program, two receivers find no more than none. -/
theorem boxProgram_within_insensitive :
    boxProgram.Built ∧
      ∃ r r', (Analyzer.unlimited .lifo).analyzeWith boxProgram (.object 2) = .ok r ∧
        (Analyzer.unlimited .fifo).analyzeWith boxProgram .insensitive = .ok r' ∧ r.Within r' := by
  refine ⟨boxProgram_built, ?_⟩
  have hok : ((Analyzer.unlimited .fifo).analyzeWith boxProgram .insensitive).isOk = true := by
    decide +kernel
  obtain ⟨r', hr'⟩ := Outcome.exists_eq_ok hok
  obtain ⟨r, hr, hw⟩ := analyzeWith_within_insensitive boxProgram_built (.object 2)
    (b := Analyzer.unlimited .lifo) rfl rfl hr'
  exact ⟨r, r', hr, hr', hw⟩

namespace Sensitivity

/-- The first sensitivity tells more contexts apart than the second: it keeps more elements, or
receivers instead of the classes that allocated them. -/
inductive Sharper : Sensitivity → Sensitivity → Prop where
  | callSite {k n : Nat} (hk : 1 ≤ k) (hn : k ≤ n) : Sharper (.callSite n) (.callSite k)
  | object {k n : Nat} (hk : 1 ≤ k) (hn : k ≤ n) : Sharper (.object n) (.object k)
  | type {k n : Nat} (hk : 1 ≤ k) (hn : k ≤ n) : Sharper (.type n) (.type k)
  | objectType (k : Nat) : Sharper (.object k) (.type k)

/-- Contexts of a sharper sensitivity can be made coarser. -/
theorem Sharper.exists_coarsening {σ τ : Sensitivity} (h : σ.Sharper τ) (p : Program) :
    Nonempty (Coarsening p σ τ) := by
  cases h with
  | callSite _ hn => exact ⟨.callSite p hn⟩
  | object _ hn => exact ⟨.object p hn⟩
  | type _ hn => exact ⟨.type p hn⟩
  | objectType k => exact ⟨.objectToType p k⟩

end Sensitivity

/-- If an analysis gives a result, so does every sharper one, and its result is within the other
one. -/
theorem analyzeWith_within_of_sharper {p : Program} (hp : p.Built) {σ τ : Sensitivity}
    (hsharper : σ.Sharper τ) {a b : Analyzer} (ha : a.config.budget = none)
    (hb : b.config.budget = none) {r' : Result} (h : a.analyzeWith p τ = .ok r') :
    ∃ r, b.analyzeWith p σ = .ok r ∧ r.Within r' :=
  (hsharper.exists_coarsening p).elim fun κ => exists_within_of_coarsening hp κ ha hb h

/-- On the box program, three call sites find no more than one, and two receivers no more than the
classes that allocated them. -/
theorem boxProgram_within_of_sharper :
    boxProgram.Built ∧
      (∃ r r', (Analyzer.unlimited .fifo).analyzeWith boxProgram (.callSite 3) = .ok r ∧
        (Analyzer.unlimited .fifo).analyzeWith boxProgram (.callSite 1) = .ok r' ∧ r.Within r') ∧
      ∃ r r', (Analyzer.unlimited .lifo).analyzeWith boxProgram (.object 2) = .ok r ∧
        (Analyzer.unlimited .fifo).analyzeWith boxProgram (.type 2) = .ok r' ∧ r.Within r' := by
  refine ⟨boxProgram_built, ?_, ?_⟩
  · have hok : ((Analyzer.unlimited .fifo).analyzeWith boxProgram (.callSite 1)).isOk = true := by
      decide +kernel
    obtain ⟨r', hr'⟩ := Outcome.exists_eq_ok hok
    obtain ⟨r, hr, hw⟩ := analyzeWith_within_of_sharper boxProgram_built
      (.callSite (n := 3) (Nat.le_refl 1) (by decide)) (b := Analyzer.unlimited .fifo) rfl rfl hr'
    exact ⟨r, r', hr, hr', hw⟩
  · have hok : ((Analyzer.unlimited .fifo).analyzeWith boxProgram (.type 2)).isOk = true := by
      decide +kernel
    obtain ⟨r', hr'⟩ := Outcome.exists_eq_ok hok
    obtain ⟨r, hr, hw⟩ := analyzeWith_within_of_sharper boxProgram_built (.objectType 2)
      (b := Analyzer.unlimited .lifo) rfl rfl hr'
    exact ⟨r, r', hr, hr', hw⟩

end PointerAnalysis
