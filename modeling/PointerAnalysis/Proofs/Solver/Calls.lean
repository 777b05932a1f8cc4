import PointerAnalysis.Proofs.Solver.Operations

/-!
# Calls of a run

A call is settled in the same breath in which it is found: its callee is reachable, and references
flow into the parameters and out of the result.  So at no time between two rules of the analysis
does a call in the graph lack its consequences.

## Main definitions

- `Linked`: a call in the graph is settled.
- `running`: states stay valid and grow, and calls that are found are settled.

## Main statements

- `ensures_wire`: arguments and results are wired, or their numbers differ.
- `ensures_connect`: a call is known and settled.
-/

namespace PointerAnalysis.Solver

variable {p : Program} {σ : Sensitivity} {s : State}

/-! ## Calls in a state -/

/-- A call in the graph has names, and what follows from it is known. -/
def Linked (p : Program) (s : State) (e : CallEdge QSiteId QMethodId) : Prop :=
  ∃ t i t' m call, s.world.siteName? s.heap e.site = some (t, i) ∧
    s.world.methodName? s.heap e.callee = some (t', m) ∧ p.stmtAt i = .ok (.invoke call) ∧
      LinkSettled p s.Knows call t t' m

theorem Linked.mono {s' : State} {e : CallEdge QSiteId QMethodId} (h : Linked p s e)
    (hr : Remembers s s') : Linked p s' e := by
  obtain ⟨t, i, t', m, call, hs, hm, hcall, hl⟩ := h
  exact ⟨t, i, t', m, call, Universe.siteName?_mono hr.world hr.heap hs,
    Universe.methodName?_mono hr.world hr.heap hm, hcall, hl.mono hr.knows⟩

/-- States stay valid and grow, and the calls that are found are settled. -/
def running (p : Program) (σ : Sensitivity) : Discipline where
  invariant := Valid p σ
  grows s s' := Grows s s' ∧ ∀ e ∈ s'.calls.edges, e ∈ s.calls.edges ∨ Linked p s' e
  reports := Reports p σ
  refl s := ⟨.refl s, fun _ he => Or.inl he⟩
  trans h h' := ⟨h.1.trans h'.1, fun e he =>
    (h'.2 e he).elim (fun he => (h.2 e he).imp id fun hl => hl.mono h'.1.remembers) Or.inr⟩

/-- What spreads references finds no calls. -/
theorem Ensures.running {α : Type} {x : SolverM α} {Q : α → State → Prop}
    (h : Ensures (flowing p σ) x s Q) : Ensures (running p σ) x s Q :=
  h.resume rfl (fun _ _ hi hg hq => ⟨hi, ⟨hg.1, fun _ he => Or.inl (hg.2 ▸ he)⟩, hq⟩) fun _ he => he

theorem Grows.keyVar {s' : State} (hg : Grows s s') {c : ContextId} {t : ContextName}
    (hc : s.world.contextName? s.heap c = some t) (v : VarId) :
    s'.world.pointerKeyName? s'.heap (.var c v) = some (.var t v) :=
  Universe.pointerKeyName?_eq_var.2 ⟨c, rfl, Universe.contextName?_mono hg.world hg.heap hc⟩

/-! ## Wiring -/

/-- A callee without a body takes and returns nothing. -/
theorem linkSettled_of_no_body {K : Fact → Prop} {call : Invoke} {t t' : ContextName}
    {m : MethodId} {decl : MethodDecl} (hd : p.methodAt m = .ok decl) (hb : decl.body = none)
    (hreach : K (.reaches t' m)) : LinkSettled p K call t t' m := by
  have hno : ∀ {decl' body}, p.methodAt m = .ok decl' → decl'.body = some body → False := by
    intro decl' body hd' hb'
    obtain rfl := Except.ok.inj (hd.symm.trans hd')
    rw [hb] at hb'
    cases hb'
  constructor
  · intro f hf
    cases hf with
    | callee => exact hreach
    | arg hd' hb' => exact (hno hd' hb').elim
    | result hd' hb' => exact (hno hd' hb').elim
    | resultPointer hd' hb' => exact (hno hd' hb').elim
  · intro e he
    obtain ⟨hd', hb'⟩ := he
    exact hno hd' hb'

/-- A callee with a body takes the arguments and returns its results. -/
theorem linkSettled_of_body {K : Fact → Prop} {call : Invoke} {t t' : ContextName}
    {m : MethodId} {decl : MethodDecl} {body : Body} (hd : p.methodAt m = .ok decl)
    (hb : decl.body = some body) (hl : call.args.length = body.params.length)
    (hreach : K (.reaches t' m))
    (hargs : ∀ x ∈ call.args.zip body.params, K (.flows (.var t x.1) (.var t' x.2)))
    (hpointer : ∀ r, call.result = some r → K (.pointer (.var t r)))
    (hresult : ∀ r, call.result = some r → ∀ v ∈ body.returned,
      K (.flows (.var t' v) (.var t r))) : LinkSettled p K call t t' m := by
  -- rules read the declaration of the method again, and find the same
  have hsame : ∀ {decl' body'}, p.methodAt m = .ok decl' → decl'.body = some body' →
      body' = body := by
    intro decl' body' hd' hb'
    obtain rfl := Except.ok.inj (hd.symm.trans hd')
    exact Option.some.inj (hb'.symm.trans hb)
  constructor
  · intro f hf
    cases hf with
    | callee => exact hreach
    | arg hd' hb' _ hx => exact hargs _ (hsame hd' hb' ▸ hx)
    | result hd' hb' _ hr hv => exact hresult _ hr _ (hsame hd' hb' ▸ hv)
    | resultPointer _ _ _ hr => exact hpointer _ hr
  · intro e he
    obtain ⟨hd', hb', hl'⟩ := he
    exact hl' (hsame hd' hb' ▸ hl)

section Wire

variable (wf : p.WellFormed) (hv : Valid p σ s) {call : Invoke} (site : Qualified StmtId)
  (callee : Qualified MethodId) {t t' : ContextName} {kind : CallKind}
  (ht : s.world.contextName? s.heap site.context = some t)
  (ht' : s.world.contextName? s.heap callee.context = some t')
  (hs : p.stmtAt site.entity = .ok (.invoke call))
  (hc : Least p σ (.calls kind t site.entity t' callee.entity))
include wf hv ht ht' hs hc

/-- Wiring settles a call, once its callee is reachable. -/
theorem ensures_wire (hreach : s.Knows (.reaches t' callee.entity)) :
    Ensures (flowing p σ) (wire p call site callee) s fun _ s' =>
      LinkSettled p s'.Knows call t t' callee.entity := by
  have hm : p.methods.Has callee.entity := (hc.fits wf).2.2.1
  obtain ⟨decl, hdecl⟩ := Program.exists_methodAt hm
  apply Ensures.lift_bind hdecl
  cases hb : decl.body with
  | none => exact .pure hv (linkSettled_of_no_body hdecl hb hreach)
  | some body =>
    dsimp only
    by_cases hl : call.args.length = body.params.length
    · rw [if_neg (not_not_intro hl)]
      -- arguments flow into parameters
      refine .bind (P := fun _ s' => ∀ x ∈ call.args.zip body.params,
        s'.Knows (.flows (.var t x.1) (.var t' x.2))) ?_ fun _ s₁ hv₁ hg₁ hargs => ?_
      · refine .forM hv (fun x _ _ hg h => hg.1.knows h) fun x hx s₁ hv₁ hg₁ => ?_
        exact ensures_flowBetween hv₁ (hg₁.1.keyVar ht x.1) (hg₁.1.keyVar ht' x.2)
          (least_closed _ (.link hc hs (.arg hdecl hb hl hx)))
      -- without a result variable nothing flows back
      cases hr : call.result with
      | none =>
        refine .pure hv₁ (linkSettled_of_body hdecl hb hl (hg₁.1.knows hreach) hargs ?_ ?_)
        · rw [hr]
          intro r e
          cases e
        · rw [hr]
          intro r e
          cases e
      | some result =>
        -- returned references flow into the result
        refine .bind (ensures_internPointer hv₁ (hg₁.1.keyVar ht result)
          (least_closed _ (.link hc hs (.resultPointer hdecl hb hl hr))))
          fun target s₂ hv₂ hg₂ htarget => ?_
        have hg := hg₁.1.trans hg₂.1
        refine .mono (P := fun _ s' => ∀ v ∈ body.returned,
          s'.Knows (.flows (.var t' v) (.var t result))) ?_ fun _ s₃ hv₃ hg₃ hreturned => ?_
        · refine .forM hv₂ (fun v _ _ hg h => hg.1.knows h) fun v hv' s₃ hv₃ hg₃ => ?_
          have hf : Least p σ (.flows (.var t' v) (.var t result)) :=
            least_closed _ (.link hc hs (.result hdecl hb hl hr hv'))
          refine .bind (ensures_internPointer hv₃ ((hg.trans hg₃.1).keyVar ht' v)
            (least_closed _ (.source hf))) fun source s₄ hv₄ hg₄ hsource => ?_
          have hg₂₄ := hg₃.1.trans hg₄.1
          exact ensures_addFlow hv₄ hsource
            (Universe.pointerName?_mono hg₂₄.world hg₂₄.heap htarget) hf
        · have hg₂₃ := hg₂.1.trans hg₃.1
          refine linkSettled_of_body hdecl hb hl (hg₂₃.knows (hg₁.1.knows hreach))
            (fun x hx => hg₂₃.knows (hargs x hx)) ?_ ?_
          · rw [hr]
            intro r' e
            cases e
            exact hg₃.1.knows (f := .pointer _) ⟨target, htarget⟩
          · rw [hr]
            intro r' e
            cases e
            exact hreturned
    · rw [if_pos hl]
      -- the numbers of arguments and parameters differ, which is reported
      obtain ⟨signature, hsig⟩ := wf.exists_methodSignature hm
      refine .lift_bind hsig (.throw_bind ⟨_, rfl, ?_⟩)
      exact .link hc hs (.arity hdecl hb hl hsig)

end Wire

/-! ## Connecting -/

/-- A call that is not in the graph yet, together with its callee. -/
theorem Valid.call (hv : Valid p σ s) {e : CallEdge QSiteId QMethodId}
    (hnew : s.calls.hasEdge e.site e.callee = false)
    (he : CallsIn (Least p σ) s.world s.heap e) :
    Valid p σ { s with calls := ((s.calls.addEdge e).2.reach e.callee).2 } := by
  have hreachable : ∀ m, m ∈ ((s.calls.addEdge e).2.reach e.callee).2.reachable ↔
      m ∈ s.calls.reachable ∨ m = e.callee := fun m => by
    rw [CallGraph.mem_reachable_reach, CallGraph.reachable_addEdge]
  have hedges : ((s.calls.addEdge e).2.reach e.callee).2.edges = s.calls.edges ++ [e] := by
    rw [CallGraph.edges_reach, CallGraph.edges_addEdge hnew]
  exact
    { hv with
      reachable := fun m hm => by
        rcases (hreachable m).1 hm with hm | rfl
        · exact hv.reachable m hm
        · obtain ⟨_, _, t', m, -, hm, -⟩ := he
          exact ⟨_, hm⟩
      nodup := CallGraph.nodup_reach (by
        rw [CallGraph.reachable_addEdge]
        exact hv.nodup)
      edges := fun e' he' => by
        rw [hedges, List.mem_append, List.mem_singleton] at he'
        rcases he' with he' | rfl
        · exact hv.edges e' he'
        · exact he
      indexed := (hv.indexed.addEdge hnew).reach _ }

section Connect

variable (wf : p.WellFormed) (hv : Valid p σ s) {call : Invoke} (site : Qualified StmtId)
  (callee : Qualified MethodId) {t t' : ContextName}
  (ht : s.world.contextName? s.heap site.context = some t)
  (ht' : s.world.contextName? s.heap callee.context = some t')
  (hs : p.stmtAt site.entity = .ok (.invoke call))
  (hc : Least p σ (.calls call.kind t site.entity t' callee.entity))
include wf hv hs

/-- A call that is in the graph already is of the kind of its statement. -/
theorem knows_call_of_hasEdge {siteId : QSiteId} {calleeId : QMethodId}
    (hedge : s.calls.hasEdge siteId calleeId = true)
    (hsite : s.world.siteName? s.heap siteId = some (t, site.entity))
    (hcallee : s.world.methodName? s.heap calleeId = some (t', callee.entity)) :
    s.Knows (.calls call.kind t site.entity t' callee.entity) := by
  obtain ⟨e, he, rfl, rfl⟩ := (hv.indexed.pairs _ _).1 hedge
  have hknown : s.Knows (.calls e.kind t site.entity t' callee.entity) :=
    ⟨e, he, rfl, hsite, hcallee⟩
  obtain ⟨call', hs', hk⟩ := ((hv.knows hknown).fits wf).2.2.2
  obtain rfl := Stmt.invoke.inj (Except.ok.inj (hs.symm.trans hs'))
  exact hk ▸ hknown

include ht ht' hc

/-- Connecting makes a call known and settles it. -/
theorem ensures_connect :
    Ensures (running p σ) (connect p call site callee) s fun _ s' =>
      s'.Knows (.calls call.kind t site.entity t' callee.entity) := by
  have hm : Least p σ (.reaches t' callee.entity) := least_closed _ (.link hc hs .callee)
  refine .bind (ensures_internMethod hv (Universe.keyName?_eq_some.2 ⟨ht', rfl⟩) hm).running
    fun calleeId s₁ hv₁ hg₁ hcallee => ?_
  have ht₁ := Universe.contextName?_mono hg₁.1.world hg₁.1.heap ht
  refine .bind (ensures_internSite hv₁ (Universe.keyName?_eq_some.2 ⟨ht₁, rfl⟩)).running
    fun siteId s₂ hv₂ hg₂ hsite => ?_
  have hg := hg₁.1.trans hg₂.1
  have hcallee₂ := Universe.methodName?_mono hg₂.1.world hg₂.1.heap hcallee
  -- a call that is known already was settled when it was found
  cases hedge : s₂.calls.hasEdge siteId calleeId with
  | true =>
    have hold : addCall ⟨call.kind, siteId, calleeId⟩ s₂ = .ok (false, s₂) := by
      show Except.ok ((s₂.calls.addEdge ⟨call.kind, siteId, calleeId⟩).1,
        { s₂ with calls := (s₂.calls.addEdge ⟨call.kind, siteId, calleeId⟩).2 }) = _
      rw [CallGraph.addEdge_of_hasEdge hedge]
    exact .ok (bind_run hold) hv₂ ((running p σ).refl s₂)
      (knows_call_of_hasEdge wf hv₂ site callee hs hedge hsite hcallee₂)
  | false =>
    let e : CallEdge QSiteId QMethodId := ⟨call.kind, siteId, calleeId⟩
    have hin : CallsIn (Least p σ) s₂.world s₂.heap e :=
      ⟨t, site.entity, t', callee.entity, hsite, hcallee₂, hc⟩
    -- the edge and the reachability of its callee come in one move
    let s₃ : State := { s₂ with calls := ((s₂.calls.addEdge e).2.reach calleeId).2 }
    have hv₃ : Valid p σ s₃ := hv₂.call hedge hin
    have hedges : s₃.calls.edges = s₂.calls.edges ++ [e] := by
      rw [CallGraph.edges_reach, CallGraph.edges_addEdge hedge]
    have hg₃ : Grows s₂ s₃ :=
      { Grows.refl s₂ with
        reachable := by
          have := CallGraph.reachable_reach_prefix (g := (s₂.calls.addEdge e).2) calleeId
          rw [CallGraph.reachable_addEdge] at this
          exact this
        edges := fun e' he' => hedges ▸ List.mem_append_left _ he' }
    have hreach : s₃.Knows (.reaches t' callee.entity) :=
      ⟨calleeId, CallGraph.mem_reachable_reach.2 (Or.inr rfl), hcallee₂⟩
    have hwire := ensures_wire wf hv₃ site callee (Universe.contextName?_mono hg.world hg.heap ht)
      (Universe.contextName?_mono hg.world hg.heap ht') hs hc hreach
    refine hwire.resume ?_ (fun _ s₄ hv₄ hg₄ hlink => ?_) fun _ he => he
    · have hnew : addCall e s₂ = .ok (true, { s₂ with calls := (s₂.calls.addEdge e).2 }) := by
        show Except.ok ((s₂.calls.addEdge e).1, { s₂ with calls := (s₂.calls.addEdge e).2 }) = _
        rw [CallGraph.addEdge_fst hedge]
      exact bind_run hnew
    · have hsite₄ := Universe.siteName?_mono hg₄.1.world hg₄.1.heap hsite
      have hcallee₄ := Universe.methodName?_mono hg₄.1.world hg₄.1.heap hcallee₂
      have he₄ : e ∈ s₄.calls.edges := by
        rw [hg₄.2, hedges]
        exact List.mem_append_right _ (List.mem_singleton_self e)
      refine ⟨hv₄, ⟨hg₃.trans hg₄.1, fun e' he' => ?_⟩, ⟨e, he₄, rfl, hsite₄, hcallee₄⟩⟩
      rw [hg₄.2, hedges, List.mem_append, List.mem_singleton] at he'
      -- the new call is the only one that has to be linked
      rcases he' with he' | rfl
      · exact Or.inl he'
      · exact Or.inr ⟨t, site.entity, t', callee.entity, call, hsite₄, hcallee₄, hs, hlink⟩

end Connect

end PointerAnalysis.Solver
