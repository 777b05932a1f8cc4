import PointerAnalysis.Proofs.Solver.Calls

/-!
# Visits

A visit settles every statement of a reachable method: what the statement contributes whatever its
variables refer to is known afterwards, unless the statement can not be carried out, which is
reported.

## Main statements

- `ensures_visitStmt`: one statement is settled.
- `ensures_visitMethod`: a reachable method is settled.
-/

namespace PointerAnalysis.Solver

variable {p : Program} {σ : Sensitivity} {s : State}

/-! ## Statements -/

section Resolving

variable (wf : p.WellFormed)
include wf

/-- A field reference is resolved, or else it is reported. -/
theorem ensures_resolveFieldAs {D : Discipline} {b : Bool} {r : FieldRef} {k : FieldId → SolverM Unit}
    {Q : Unit → State → Prop} (hr : p.classes.Has r.cls)
    (herr : ∀ e, resolveFieldAs p b r = .error (.error e) → D.reports (.error e))
    (hok : ∀ f, resolveFieldAs p b r = .ok f → Ensures D (k f) s Q) :
    Ensures D (liftM (resolveFieldAs p b r) >>= k) s Q := by
  rcases wf.resolveFieldAs_cases b hr with ⟨f, hf, -⟩ | ⟨e, he⟩
  · exact .lift_bind hf (hok f hf)
  · exact .lift_bind_error he (herr e he)

end Resolving

section Visit

variable (wf : p.WellFormed) (hv : Valid p σ s) {c : ContextId} {t : ContextName} {m : MethodId}
  {i : StmtId} (ht : s.world.contextName? s.heap c = some t) (hm : Least p σ (.reaches t m))
include wf hv ht hm

theorem ensures_alloc {lhs : VarId} {type : RefType} (hx : p.Executes m i (.alloc lhs type)) :
    Ensures (flowing p σ) (visitStmt p σ c i (.alloc lhs type)) s fun _ s' =>
      VisitSettled p σ s'.Knows t i (.alloc lhs type) := by
  obtain ⟨_, _, _, _, _, hs⟩ := id hx
  have hf : Least p σ (.refers (.var t lhs) ⟨σ.heapName t, i⟩) :=
    least_closed _ (.visit hm hx .alloc)
  have ho : Least p σ (.object ⟨σ.heapName t, i⟩) := least_closed _ (.referent hf)
  apply Ensures.bind (ensures_objFor hv wf hs ho)
  intro o s₁ hv₁ hg₁ hobj
  have ht₁ := Universe.contextName?_mono hg₁.1.world hg₁.1.heap ht
  refine .bind (ensures_chooseContext hv₁
    (Sensitivity.chooses_heapContext hv₁.rows.faithful.contexts hv₁.rows.empty ht₁)
    (least_closed _ (.heapContext ho))) fun hc s₂ hv₂ hg₂ hcontext => ?_
  -- the object has its name as soon as its heap context has one
  have hkey : s₂.world.objKeyName? s₂.heap ⟨hc, o⟩ = some ⟨σ.heapName t, i⟩ := by
    obtain ⟨obj, hobj, hsite⟩ := hobj
    exact Universe.objKeyName?_eq_some.2 ⟨hcontext, obj, hg₂.1.heap.get? hobj, hsite⟩
  apply Ensures.bind (ensures_internObj hv₂ hkey ho)
  intro q s₃ hv₃ hg₃ hq
  have hg₁₃ := hg₁.1.trans (hg₂.1.trans hg₃.1)
  refine .bind (ensures_internPointer hv₃ (hg₁₃.keyVar ht lhs) (least_closed _ (.holder hf)))
    fun target s₄ hv₄ hg₄ htarget => ?_
  refine .mono (ensures_deliver_singleton hv₄ htarget
    (Universe.objName?_mono hg₄.1.world hg₄.1.heap hq) hf) fun _ s₅ _ _ hknown => ?_
  constructor
  · intro f hf
    cases hf
    exact hknown
  · intro e he
    cases he

theorem ensures_callStatically {call : Invoke} (hx : p.Executes m i (.invoke call))
    (hk : call.kind = .static) :
    Ensures (running p σ) (callStatically p σ c i call) s fun _ s' =>
      VisitSettled p σ s'.Knows t i (.invoke call) := by
  obtain ⟨_, _, _, _, _, hs⟩ := id hx
  obtain ⟨target, htarget, hhas⟩ := wf.exists_targetOf
    (wf.stmt_classes hs (List.mem_singleton_self _)) none (by intro x hx; cases hx)
  apply Ensures.lift_bind htarget
  cases target with
  | none =>
    refine .pure hv ⟨fun f hf => ?_, fun e he => ?_⟩
    · cases hf with
      | call _ hm' => rw [htarget] at hm'; cases hm'
    · cases he with
      | call _ hm' => rw [htarget] at hm'; cases hm'
  | some m' =>
    obtain ⟨decl, hdecl⟩ := Program.exists_methodAt (hhas m' rfl)
    apply Ensures.lift_bind hdecl
    cases hstatic : decl.isStatic with
    | true =>
      have hf : Least p σ (.calls call.kind t i (σ.staticName t i) m') :=
        least_closed _ (.visit hm hx (.call hk htarget hdecl hstatic))
      have hreach : Least p σ (.reaches (σ.staticName t i) m') :=
        least_closed _ (.link hf hs .callee)
      refine .bind (ensures_chooseContext hv (Sensitivity.chooses_staticContext
        hv.rows.faithful.contexts hv.rows.empty ⟨c, i⟩ ht)
        (least_closed _ (.methodContext hreach))).running
        fun c' s₁ hv₁ hg₁ hc' => ?_
      have ht₁ := Universe.contextName?_mono hg₁.1.world hg₁.1.heap ht
      refine .mono (ensures_connect wf hv₁ ⟨c, i⟩ ⟨c', m'⟩ ht₁ hc' hs hf)
        fun _ s₂ _ _ hknown => ⟨fun f hf => ?_, fun e he => ?_⟩
      · cases hf with
        | call _ hm' =>
          obtain rfl := Option.some.inj (Except.ok.inj (htarget.symm.trans hm'))
          exact hknown
      · cases he with
        | call _ hm' hd' hs' =>
          obtain rfl := Option.some.inj (Except.ok.inj (htarget.symm.trans hm'))
          obtain rfl := Except.ok.inj (hdecl.symm.trans hd')
          rw [hstatic] at hs'
          cases hs'
    | false =>
      -- a method that is not static can not be called so, which is reported
      obtain ⟨signature, hsig⟩ := wf.exists_methodSignature (hhas m' rfl)
      refine .lift_bind hsig (.throw_bind ⟨_, rfl, ?_⟩)
      exact .visit hm hx (.call hk htarget hdecl hstatic hsig)

/-- A statement of a reachable method is settled. -/
theorem ensures_visitStmt {stmt : Stmt} (hx : p.Executes m i stmt) :
    Ensures (running p σ) (visitStmt p σ c i stmt) s fun _ s' =>
      VisitSettled p σ s'.Knows t i stmt := by
  obtain ⟨_, _, _, _, _, hs⟩ := id hx
  have hvar : ∀ v, s.world.pointerKeyName? s.heap (.var c v) = some (.var t v) :=
    (Grows.refl s).keyVar ht
  -- statements that wait for an object, and those without effect
  have hnothing : (∀ f, ¬ VisitYields p σ t i stmt f) → (∀ e, ¬ VisitFails p i stmt e) →
      Ensures (running p σ) (Pure.pure ()) s fun _ s' => VisitSettled p σ s'.Knows t i stmt :=
    fun hf he => .pure hv ⟨fun f h => (hf f h).elim, he⟩
  cases stmt with
  | alloc lhs type => exact (ensures_alloc wf hv ht hm hx).running
  | copy lhs rhs =>
    have hf : Least p σ (.flows (.var t rhs) (.var t lhs)) := least_closed _ (.visit hm hx .copy)
    apply Ensures.mono (ensures_flowBetween hv (hvar rhs) (hvar lhs) hf).running
    intro _ s₁ _ _ hknown
    constructor
    · intro f hf
      cases hf
      exact hknown
    · intro e he
      cases he
  | load lhs base field =>
    cases base with
    | some base => exact hnothing (by intro f hf; cases hf) (by intro e he; cases he)
    | none =>
      refine ensures_resolveFieldAs wf (wf.stmt_classes hs (List.mem_singleton_self _))
        (fun e he => ⟨e, rfl, .visit hm hx (.load he)⟩) fun g hg => ?_
      have hf : Least p σ (.flows (.staticField g) (.var t lhs)) :=
        least_closed _ (.visit hm hx (.load hg))
      refine .mono (ensures_flowBetween hv rfl (hvar lhs) hf).running
        fun _ s₁ _ _ hknown => ⟨fun f hf => ?_, fun e he => ?_⟩
      · cases hf with
        | load hg' => exact Except.ok.inj (hg.symm.trans hg') ▸ hknown
      · cases he with
        | load he => rw [hg] at he; cases he
  | store base field rhs =>
    cases base with
    | some base => exact hnothing (by intro f hf; cases hf) (by intro e he; cases he)
    | none =>
      refine ensures_resolveFieldAs wf (wf.stmt_classes hs (List.mem_singleton_self _))
        (fun e he => ⟨e, rfl, .visit hm hx (.store he)⟩) fun g hg => ?_
      have hf : Least p σ (.flows (.var t rhs) (.staticField g)) :=
        least_closed _ (.visit hm hx (.store hg))
      refine .mono (ensures_flowBetween hv (hvar rhs) rfl hf).running
        fun _ s₁ _ _ hknown => ⟨fun f hf => ?_, fun e he => ?_⟩
      · cases hf with
        | store hg' => exact Except.ok.inj (hg.symm.trans hg') ▸ hknown
      · cases he with
        | store he => rw [hg] at he; cases he
  | invoke call =>
    by_cases hk : call.kind = .static
    · rw [visitStmt, if_pos hk]
      exact ensures_callStatically wf hv ht hm hx hk
    · rw [visitStmt, if_neg hk]
      refine hnothing (fun f hf => ?_) fun e he => ?_
      · cases hf with
        | call hk' => exact hk hk'
      · cases he with
        | call hk' => exact hk hk'
  | loadArray _ _ => exact hnothing (by intro f hf; cases hf) (by intro e he; cases he)
  | storeArray _ _ => exact hnothing (by intro f hf; cases hf) (by intro e he; cases he)
  | ret _ => exact hnothing (by intro f hf; cases hf) (by intro e he; cases he)
  | nop => exact hnothing (by intro f hf; cases hf) (by intro e he; cases he)

end Visit

/-! ## Methods -/

/-- A visit settles the method that a handle names. -/
theorem ensures_visitMethod (wf : p.WellFormed) (hv : Valid p σ s) {h : QMethodId}
    {t : ContextName} {m : MethodId} (hh : s.world.methodName? s.heap h = some (t, m)) :
    Ensures (running p σ) (visitMethod p σ h) s fun _ s' => MethodSettled p σ s'.Knows t m := by
  have hm : Least p σ (.reaches t m) := hv.rows.reaches hh
  obtain ⟨q, hq, hn⟩ := Option.bind_eq_some_iff.1 hh
  obtain ⟨ht, rfl⟩ := Universe.keyName?_eq_some.1 hn
  obtain ⟨decl, hdecl⟩ := Program.exists_methodAt (hm.fits wf).2
  refine .get_bind (.lift_bind (Outcome.ofRow_eq_ok.2 hq) (.lift_bind hdecl ?_))
  -- the statements executed are those of the body that is visited
  have hsame : ∀ {i stmt}, p.Executes q.entity i stmt → ∃ body, decl.body = some body ∧
      i ∈ body.stmts ∧ p.stmtAt i = .ok stmt := by
    intro i stmt hi
    obtain ⟨decl', body, hd, hb, hi, hs⟩ := hi
    obtain rfl := Except.ok.inj (hdecl.symm.trans hd)
    exact ⟨body, hb, hi, hs⟩
  cases hb : decl.body with
  | none =>
    apply Ensures.pure hv
    intro i stmt hx
    obtain ⟨body, hb', -⟩ := hsame hx
    rw [hb] at hb'
    cases hb'
  | some body =>
    refine .mono (P := fun _ s' => ∀ i ∈ body.stmts, ∀ stmt, p.stmtAt i = .ok stmt →
      VisitSettled p σ s'.Knows t i stmt) ?_ fun _ s' _ _ hall => ?_
    · refine .forM hv (fun i _ _ hg h stmt hs => (h stmt hs).mono fun _ => hg.1.knows)
        fun i hi s₁ hv₁ hg₁ => ?_
      obtain ⟨site, hsite⟩ := Program.exists_siteAt
        ((wf.bodyStmts _ decl (Outcome.ofRow_eq_ok.1 hdecl) body hb).2 i hi)
      have hs : p.stmtAt i = .ok site.stmt :=
        Program.stmtAt_eq_ok.2 ⟨site, Outcome.ofRow_eq_ok.1 hsite, rfl⟩
      apply Ensures.lift_bind hs
      refine .mono (ensures_visitStmt wf hv₁ (Universe.contextName?_mono hg₁.1.world hg₁.1.heap ht)
        hm ⟨decl, body, hdecl, hb, hi, hs⟩) fun _ s₂ _ _ h stmt hs' => ?_
      obtain rfl := Except.ok.inj (hs.symm.trans hs')
      exact h
    · intro i stmt hx
      obtain ⟨body', hb', hi, hs⟩ := hsame hx
      obtain rfl := Option.some.inj (hb.symm.trans hb')
      exact hall i hi stmt hs

end PointerAnalysis.Solver
