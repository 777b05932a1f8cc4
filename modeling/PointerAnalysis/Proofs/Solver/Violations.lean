import PointerAnalysis.Proofs.Solver.Confluence

/-!
# Errors and violations

Fields and targets of calls are looked up when they are needed, so a statement that can not be
carried out is an error only if it is reached.  A run without a budget reports an error exactly if
the least solution contains such a statement, whatever the order of deliveries; where there are
several, the one that is reported depends on the order.

## Main definitions

- `Solution.least`: what all closed solutions have in common.
- `Solution.Violation`: a statement that is reached and can not be carried out.

## Main statements

- `Fails.exists_violation`, `Violation.exists_fails`: facts make a statement fail exactly if their
  solution contains a violation.
- `solve_error_iff`: a run fails if the least solution contains a violation, and reports one that
  is there.
-/

namespace PointerAnalysis

open Solver

/-! ## Violations -/

/-- The ways in which a program can break the rules of its language. -/
inductive ViolationKind where
  | unresolvedField
  | malformed
  | arityMismatch
deriving DecidableEq, Repr

/-- The violation that an error reports, if the program is to blame. -/
def AnalysisError.violation? : AnalysisError → Option ViolationKind
  | malformed _ => some .malformed
  | unresolvedField _ _ => some .unresolvedField
  | arityMismatch _ _ _ => some .arityMismatch
  | config _ | serialization => none

/-- A reference names no field, or one of the other sort than an access demands. -/
inductive FieldRef.Violates (p : Program) (isStatic : Bool) (r : FieldRef) :
    ViolationKind → Prop where
  | unresolved (h : ∀ f, p.resolveField r ≠ .ok f) : Violates p isStatic r .unresolvedField
  | sort {f : FieldId} {decl : FieldDecl} (hf : p.resolveField r = .ok f)
      (hd : p.fieldAt f = .ok decl) (hs : decl.isStatic ≠ isStatic) :
      Violates p isStatic r .malformed

namespace Solution

/-- A solution contains a statement that can not be carried out. -/
inductive Violation (p : Program) (S : Solution) : ViolationKind → Prop where
  | loadStatic {t : ContextName} {m : MethodId} {s : StmtId} {lhs : VarId} {r : FieldRef}
      {kind : ViolationKind} (hm : S.reaches t m) (hs : p.Executes m s (.load lhs none r))
      (hr : r.Violates p true kind) : Violation p S kind
  | storeStatic {t : ContextName} {m : MethodId} {s : StmtId} {r : FieldRef} {rhs : VarId}
      {kind : ViolationKind} (hm : S.reaches t m) (hs : p.Executes m s (.store none r rhs))
      (hr : r.Violates p true kind) : Violation p S kind
  | callStatic {t : ContextName} {m m' : MethodId} {s : StmtId} {call : Invoke}
      {decl : MethodDecl} (hm : S.reaches t m) (hs : p.Executes m s (.invoke call))
      (hk : call.kind = .static) (ht : targetOf p call none = .ok (some m'))
      (hd : p.methodAt m' = .ok decl) (hstatic : decl.isStatic = false) :
      Violation p S .malformed
  | loadField {t : ContextName} {v : VarId} {o : ObjName} {s : StmtId} {lhs : VarId}
      {r : FieldRef} {kind : ViolationKind} (hv : S.refers (.var t v) o)
      (hs : p.stmtAt s = .ok (.load lhs (some v) r)) (hr : r.Violates p false kind) :
      Violation p S kind
  | storeField {t : ContextName} {v : VarId} {o : ObjName} {s : StmtId} {r : FieldRef}
      {rhs : VarId} {kind : ViolationKind} (hv : S.refers (.var t v) o)
      (hs : p.stmtAt s = .ok (.store (some v) r rhs)) (hr : r.Violates p false kind) :
      Violation p S kind
  | callOn {t : ContextName} {v : VarId} {o : ObjName} {s : StmtId} {call : Invoke} {c : ClassId}
      {m : MethodId} {decl : MethodDecl} (hv : S.refers (.var t v) o)
      (hs : p.stmtAt s = .ok (.invoke call)) (hb : call.receiver = some v)
      (hd : Dispatches p call o c m decl) (hstatic : decl.isStatic = true) :
      Violation p S .malformed
  /-- A call with more or fewer arguments than its target has parameters. -/
  | arity {kind : CallKind} {t t' : ContextName} {s : StmtId} {m : MethodId} {call : Invoke}
      {decl : MethodDecl} {body : Body} (hc : S.calls kind t s t' m)
      (hs : p.stmtAt s = .ok (.invoke call)) (hd : p.methodAt m = .ok decl)
      (hb : decl.body = some body) (hl : call.args.length ≠ body.params.length) :
      Violation p S .arityMismatch

/-! ## The least solution -/

/-- What all closed solutions have in common. -/
def least (p : Program) (σ : Sensitivity) : Solution where
  reaches t m := ∀ S : Solution, S.Closed p σ → S.reaches t m
  calls kind t s t' m := ∀ S : Solution, S.Closed p σ → S.calls kind t s t' m
  refers x o := ∀ S : Solution, S.Closed p σ → S.refers x o

variable {p : Program} {σ : Sensitivity}

/-- What all closed solutions have in common lies in each of them. -/
theorem least_within {S : Solution} (h : S.Closed p σ) : (least p σ).Within S where
  reaches _ _ hf := hf S h
  calls _ _ _ _ _ hf := hf S h
  refers _ _ hf := hf S h

/-- The least solution is what the least facts say. -/
theorem least_eq_ofFacts (p : Program) (σ : Sensitivity) :
    least p σ = ofFacts (Least p σ) := by
  -- closed solutions are closed sets of facts, and the other way round
  have hclosed : (ofFacts (Least p σ)).Closed p σ := closed_ofFacts least_closed
  have hle : ∀ {S : Solution} {f : Fact}, S.Closed p σ → Least p σ f → S.facts f :=
    fun hS hf => hf.le hS.facts
  have hwithin := least_within hclosed
  unfold least ofFacts
  congr 1
  · funext t m
    exact propext ⟨hwithin.reaches t m, fun h S hS => hle hS h⟩
  · funext kind t s t' m
    exact propext ⟨hwithin.calls kind t s t' m, fun h S hS => hle hS h⟩
  · funext x o
    exact propext ⟨hwithin.refers x o, fun h S hS => hle hS h⟩

theorem closed_least (p : Program) (σ : Sensitivity) : (least p σ).Closed p σ := by
  rw [least_eq_ofFacts]
  exact closed_ofFacts least_closed

end Solution

/-! ## Failing facts -/

section Fails

variable {p : Program} {σ : Sensitivity} (wf : p.WellFormed)
include wf

/-- A field access that fails reports in what way its reference is wrong. -/
theorem exists_violates_of_error {isStatic : Bool} {r : FieldRef} {e : AnalysisError}
    (hr : p.classes.Has r.cls) (he : resolveFieldAs p isStatic r = .error (.error e)) :
    ∃ kind, e.violation? = some kind ∧ r.Violates p isStatic kind := by
  rcases wf.resolveField_cases hr with ⟨f, hf, hh⟩ | ⟨cls, hcls⟩
  · obtain ⟨decl, hd⟩ := Program.exists_fieldAt hh
    obtain ⟨name, hname⟩ := wf.exists_fieldName hh
    simp only [resolveFieldAs, hf, hd, hname, bind, Except.bind, pure, Except.pure,
      Outcome.defect] at he
    -- the field is of the other sort
    split at he
    · cases he
    · rename_i hs
      refine ⟨.malformed, ?_, .sort hf hd hs⟩
      split at he
      · cases he
        rfl
      · cases he
        rfl
  · have hrun : resolveFieldAs p isStatic r = .error (.error (.unresolvedField cls r.name)) := by
      rw [resolveFieldAs, hcls]
      rfl
    rw [hrun] at he
    cases he
    exact ⟨.unresolvedField, rfl, .unresolved fun f hf => by rw [hcls] at hf; cases hf⟩

/-- A field access fails with an error of the kind its reference violates. -/
theorem FieldRef.Violates.exists_error {isStatic : Bool} {r : FieldRef} {kind : ViolationKind}
    (hr : p.classes.Has r.cls) (h : r.Violates p isStatic kind) :
    ∃ e, resolveFieldAs p isStatic r = .error (.error e) ∧ e.violation? = some kind := by
  cases h with
  | unresolved h =>
    rcases wf.resolveField_cases hr with ⟨f, hf, -⟩ | ⟨cls, hcls⟩
    · exact absurd hf (h f)
    · exact ⟨.unresolvedField cls r.name, by rw [resolveFieldAs, hcls]; rfl, rfl⟩
  | @sort f decl hf hd hs =>
    obtain ⟨name, hname⟩ := wf.exists_fieldName (Table.has_of_get? (Outcome.ofRow_eq_ok.1 hd))
    simp only [resolveFieldAs, hf, hd, hname, bind, Except.bind, Outcome.defect, if_neg hs]
    cases isStatic with
    | true => exact ⟨_, rfl, rfl⟩
    | false => exact ⟨_, rfl, rfl⟩

/-- An object that exists was allocated by code of some class. -/
theorem exists_writtenIn {o : ObjName} {type : RefType} (h : p.Allocates o.site type) :
    ∃ c, p.WrittenIn o.site c := by
  obtain ⟨lhs, halloc⟩ := h
  obtain ⟨site, hsite, -⟩ := Program.stmtAt_eq_ok.1 halloc
  obtain ⟨owner, howner⟩ := Program.exists_methodAt (wf.stmtMethod o.site site hsite)
  exact ⟨owner.owner, site, owner, Outcome.ofRow_eq_ok.2 hsite, howner, rfl⟩

variable {F : Fact → Prop}

/-- A statement that fails is a violation of the kind its error reports. -/
theorem Solver.Fails.exists_violation {e : AnalysisError} (h : Fails p F e) :
    ∃ kind, e.violation? = some kind ∧ (Solution.ofFacts F).Violation p kind := by
  -- the class that an access names exists
  have hfield : ∀ {s stmt isStatic} {r : FieldRef} {e : AnalysisError}, p.stmtAt s = .ok stmt →
      r.cls ∈ stmt.classRefs → resolveFieldAs p isStatic r = .error (.error e) →
      ∃ kind, e.violation? = some kind ∧ r.Violates p isStatic kind :=
    fun hs hr he => exists_violates_of_error wf (wf.stmt_classes hs hr) he
  cases h with
  | visit hm hx he =>
    obtain ⟨_, _, _, _, _, hs⟩ := id hx
    cases he with
    | load he =>
      obtain ⟨kind, hkind, hr⟩ := hfield hs (List.mem_singleton_self _) he
      exact ⟨kind, hkind, .loadStatic hm hx hr⟩
    | store he =>
      obtain ⟨kind, hkind, hr⟩ := hfield hs (List.mem_singleton_self _) he
      exact ⟨kind, hkind, .storeStatic hm hx hr⟩
    | call hk ht hd hstatic _ => exact ⟨_, rfl, .callStatic hm hx hk ht hd hstatic⟩
  | dereference hv hs hb he =>
    cases he with
    | store he =>
      cases hb
      obtain ⟨kind, hkind, hr⟩ := hfield hs (List.mem_singleton_self _) he
      exact ⟨kind, hkind, .storeField hv hs hr⟩
    | load he =>
      cases hb
      obtain ⟨kind, hkind, hr⟩ := hfield hs (List.mem_singleton_self _) he
      exact ⟨kind, hkind, .loadField hv hs hr⟩
    | call ha ht hd hstatic _ =>
      obtain ⟨c, hc⟩ := exists_writtenIn wf ha
      exact ⟨_, rfl, .callOn hv hs hb ⟨hc, ⟨_, ha, ht⟩, hd⟩ hstatic⟩
  | link hc hs he =>
    cases he with
    | arity hd hb hl _ => exact ⟨_, rfl, .arity hc hs hd hb hl⟩

/-- A violation makes a statement fail with an error of its kind. -/
theorem Solution.Violation.exists_fails {kind : ViolationKind}
    (h : (Solution.ofFacts F).Violation p kind) :
    ∃ e, Fails p F e ∧ e.violation? = some kind := by
  -- an access fails with the error of its reference
  have hfield : ∀ {s stmt isStatic} {r : FieldRef} {kind : ViolationKind},
      p.stmtAt s = .ok stmt → r.cls ∈ stmt.classRefs → r.Violates p isStatic kind →
      ∃ e, resolveFieldAs p isStatic r = .error (.error e) ∧ e.violation? = some kind :=
    fun hs hr h => h.exists_error wf (wf.stmt_classes hs hr)
  -- the error of a call shows the signature of its target
  have hsignature : ∀ {m decl}, p.methodAt m = .ok decl →
      ∃ signature, p.methodSignature m = .ok signature := fun hd =>
    wf.exists_methodSignature (Program.has_of_methodAt hd)
  cases h with
  | loadStatic hm hx hr =>
    obtain ⟨_, _, _, _, _, hs⟩ := id hx
    obtain ⟨e, he, hkind⟩ := hfield hs (List.mem_singleton_self _) hr
    exact ⟨e, .visit hm hx (.load he), hkind⟩
  | storeStatic hm hx hr =>
    obtain ⟨_, _, _, _, _, hs⟩ := id hx
    obtain ⟨e, he, hkind⟩ := hfield hs (List.mem_singleton_self _) hr
    exact ⟨e, .visit hm hx (.store he), hkind⟩
  | callStatic hm hx hk ht hd hstatic =>
    obtain ⟨signature, hsig⟩ := hsignature hd
    exact ⟨_, .visit hm hx (.call hk ht hd hstatic hsig), rfl⟩
  | loadField hv hs hr =>
    obtain ⟨e, he, hkind⟩ := hfield hs (List.mem_singleton_self _) hr
    exact ⟨e, .dereference hv hs rfl (.load he), hkind⟩
  | storeField hv hs hr =>
    obtain ⟨e, he, hkind⟩ := hfield hs (List.mem_singleton_self _) hr
    exact ⟨e, .dereference hv hs rfl (.store he), hkind⟩
  | callOn hv hs hb hdispatches hstatic =>
    obtain ⟨-, ⟨type, ha, ht⟩, hd⟩ := hdispatches
    obtain ⟨signature, hsig⟩ := hsignature hd
    exact ⟨_, .dereference hv hs hb (.call ha ht hd hstatic hsig), rfl⟩
  | arity hc hs hd hb hl =>
    obtain ⟨signature, hsig⟩ := hsignature hd
    exact ⟨_, .link hc hs (.arity hd hb hl hsig), rfl⟩

end Fails

/-! ## Runs that fail -/

namespace Solver

variable {p : Program}

/-- A run that gives an output meets no violation of the least solution. -/
theorem not_violation_of_solve {σ : Sensitivity} {order : Order} {out : Output}
    (wf : p.WellFormed) (h : solve p σ order none = .ok out) (kind : ViolationKind) :
    ¬ (Solution.least p σ).Violation p kind := by
  intro hv
  rw [Solution.least_eq_ofFacts] at hv
  obtain ⟨e, hfails, -⟩ := hv.exists_fails wf
  -- the output contains all least facts, and none of what it contains fails
  obtain ⟨-, hno⟩ := closed_of_solve wf h (completed_of_solve wf h)
  exact hno e (hfails.mono fun f hf => ((exact_of_solve wf h).facts f).2 hf)

/-- A run without a budget fails exactly if the least solution contains a violation, and then it
reports an error of the kind of a violation that is there. -/
theorem solve_error_iff (hp : p.Built) (σ : Sensitivity) (order : Order) :
    (Solution.least p σ).Closed p σ ∧
      ((∃ h, solve p σ order none = .error h) ↔ ∃ kind, (Solution.least p σ).Violation p kind) ∧
      ∀ h, solve p σ order none = .error h →
        ∃ e kind, h = .error e ∧ e.violation? = some kind ∧
          (Solution.least p σ).Violation p kind := by
  have wf := hp.wellFormed
  have hreport : ∀ h, solve p σ order none = .error h →
      ∃ e kind, h = .error e ∧ e.violation? = some kind ∧
        (Solution.least p σ).Violation p kind := by
    intro h herr
    rcases solve_none_cases wf σ order with ⟨out, hok, -⟩ | ⟨e, he, hfails⟩
    · cases herr.symm.trans hok
    · obtain rfl := Except.error.inj (herr.symm.trans he)
      obtain ⟨kind, hkind, hv⟩ := hfails.exists_violation wf
      rw [Solution.least_eq_ofFacts]
      exact ⟨e, kind, rfl, hkind, hv⟩
  refine ⟨Solution.closed_least p σ, ⟨fun h => ?_, fun h => ?_⟩, hreport⟩
  · obtain ⟨h, herr⟩ := h
    obtain ⟨-, kind, -, -, hv⟩ := hreport h herr
    exact ⟨kind, hv⟩
  · obtain ⟨kind, hv⟩ := h
    -- a run that succeeds has found all least facts, and no violation among them
    cases hrun : solve p σ order none with
    | error h => exact ⟨h, rfl⟩
    | ok out => exact absurd hv (not_violation_of_solve wf hrun kind)

/-! ## A failing program -/

/-- The steps of a program whose only method reads a field that does not exist, from an object that
does. -/
def strayLoadSteps : List Draft.Step :=
  [.declareClass "Box" none,
    .declareMethod ⟨0⟩ ⟨"void main()"⟩ .static,
    .declareVar ⟨0⟩ "x",
    .setEntry ⟨0⟩,
    .append ⟨0⟩ (.alloc ⟨0⟩ (.cls ⟨0⟩)),
    .append ⟨0⟩ (.load ⟨0⟩ (some ⟨0⟩) ⟨⟨0⟩, "missing"⟩)]

/-- The program that these steps build. -/
def strayLoad : Program where
  classes := ⟨#[{ name := "Box" }]⟩
  methods := ⟨#[
    { subsignature := ⟨"void main()"⟩, owner := ⟨0⟩, isStatic := true,
      body := some { stmts := [⟨0⟩, ⟨1⟩] } }]⟩
  fields := ⟨#[]⟩
  vars := ⟨#[{ name := "x", method := ⟨0⟩ }]⟩
  stmts := ⟨#[
    { stmt := .alloc ⟨0⟩ (.cls ⟨0⟩), method := ⟨0⟩ },
    { stmt := .load ⟨0⟩ (some ⟨0⟩) ⟨⟨0⟩, "missing"⟩, method := ⟨0⟩ }]⟩
  dereferences := ⟨#[{ fieldLoads := [⟨1⟩] }]⟩
  entry := ⟨0⟩
  root := none

/-- The run on this program reports the field, so the least solution contains a violation. -/
theorem strayLoad_violation :
    strayLoad.Built ∧
      solve strayLoad (.callSite 1) .lifo none =
        .error (.error (.unresolvedField "Box" "missing")) ∧
      (Solution.least strayLoad (.callSite 1)).Violation strayLoad .unresolvedField := by
  have hbuilt : strayLoad.Built := ⟨strayLoadSteps, by decide +kernel⟩
  have hrun : solve strayLoad (.callSite 1) .lifo none =
      .error (.error (.unresolvedField "Box" "missing")) := by decide +kernel
  obtain ⟨e, kind, he, hkind, hv⟩ := (solve_error_iff hbuilt (.callSite 1) .lifo).2.2 _ hrun
  obtain rfl := Halt.error.inj he
  obtain rfl := Option.some.inj hkind
  exact ⟨hbuilt, hrun, hv⟩

end Solver

end PointerAnalysis
