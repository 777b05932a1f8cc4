import PointerAnalysis.Proofs.Solver.Moves
import PointerAnalysis.Proofs.Solver.Steps

/-!
# Runs as moves

Every computation that a run consists of makes moves and nothing else, from whatever state it is
begun in.  A computation that ends with an error leaves no state behind, so nothing is said of
errors here.

## Main definitions

- `tracing`: the discipline of computations that make moves.

## Main statements

- `moves_of_step`: a step is a number of moves.
- `exists_moves_of_solve`: the output of a run is that of a state to which moves lead.
-/

namespace PointerAnalysis

namespace Solver

variable {p : Program} {σ : Sensitivity} {s s₀ : State}

/-! ## The discipline -/

/-- A computation makes moves. -/
def tracing (p : Program) (σ : Sensitivity) : Discipline where
  invariant _ := True
  grows := Moves p σ
  reports _ := True
  refl _ := .refl
  trans := .trans

/-- A computation makes moves, and leads to a state where `Q` holds. -/
abbrev Traces (p : Program) (σ : Sensitivity) {α : Type} (x : SolverM α) (s : State)
    (Q : α → State → Prop) : Prop := Ensures (tracing p σ) x s Q

namespace Traces

variable {α β : Type} {Q : α → State → Prop} {R : β → State → Prop}

/-- A computation that makes a single move. -/
theorem move {x : SolverM α} {a : α} {s' : State} (hx : x s = .ok (a, s'))
    (hm : Move p σ s s') (hq : Q a s') : Traces p σ x s Q :=
  .ok hx trivial (.single hm) hq

/-- A computation is followed through the answer of an outcome, if it has one. -/
theorem lift_bind {x : Outcome α} {f : α → SolverM β}
    (hf : ∀ a, x = .ok a → Traces p σ (f a) s R) : Traces p σ (liftM x >>= f) s R := by
  cases hx : x with
  | ok a => exact Ensures.lift_bind rfl (hf a hx)
  | error e => exact Ensures.lift_bind_error rfl trivial

/-- A computation that goes on after a move as another one does. -/
theorem resume {x y : SolverM α} {s' : State} (h : Traces p σ x s' Q) (hrun : y s = x s')
    (hm : Move p σ s s') : Traces p σ y s Q :=
  Ensures.resume h hrun
    (fun _ _ hi hg hq => ⟨hi, (Relation.ReflTransGen.single hm).trans hg, hq⟩) fun _ he => he

/-- A loop makes moves if each round does. -/
theorem forM {xs : List α} {f : α → SolverM Unit}
    (hf : ∀ x ∈ xs, ∀ s', Moves p σ s s' → Traces p σ (f x) s' fun _ _ => True) :
    Traces p σ (xs.forM f) s fun _ _ => True :=
  (Ensures.forM (P := fun _ _ => True) trivial (fun _ _ _ _ h => h)
    fun x hx s' _ hg => hf x hx s' hg).mono fun _ _ _ _ _ => trivial

end Traces

/-! ## Operations -/

theorem chooseContext_eq {choice : ContextPool → Outcome (ContextId × ContextPool)}
    {c : ContextId} {contexts : ContextPool} (h : choice s.world.contexts = .ok (c, contexts)) :
    chooseContext choice s = .ok (c, s.pooled contexts) :=
  (bind_run rfl).trans (bind_run (lift_run h))

theorem chooseContext_eq_error {choice : ContextPool → Outcome (ContextId × ContextPool)}
    {e : Halt} (h : choice s.world.contexts = .error e) : chooseContext choice s = .error e := by
  have hget : chooseContext choice s = _ := bind_run rfl
  exact hget.trans (bind_run_error (lift_run_error h))

theorem objFor_eq {i : StmtId} {o : ObjId} {heap : Heap} (h : s.heap.objFor p i = .ok (o, heap)) :
    objFor p i s = .ok (o, { s with heap }) :=
  (bind_run rfl).trans (bind_run (lift_run h))

theorem objFor_eq_error {i : StmtId} {e : Halt} (h : s.heap.objFor p i = .error e) :
    objFor p i s = .error e := by
  have hget : objFor p i s = _ := bind_run rfl
  exact hget.trans (bind_run_error (lift_run_error h))

theorem addCall_eq (e : CallEdge QSiteId QMethodId) :
    addCall e s = .ok ((s.calls.addEdge e).1, { s with calls := (s.calls.addEdge e).2 }) := rfl

theorem traces_internPointer {key : Pointer} (hk : Mentions p s key) :
    Traces p σ (internPointer key) s fun h s' => s'.world.pointers.get? h = some key :=
  .move rfl (.mention hk) (Universe.get?_pointer _ _)

theorem traces_addFlow (a b : PointerId) : Traces p σ (addFlow a b) s fun _ _ => True := by
  cases h : addFlow a b s with
  | ok r => exact .move h (.flow h) trivial
  | error e => exact .error h trivial

theorem traces_flowBetween {x y : Pointer} (hx : Mentions p s x) (hy : Mentions p s y) :
    Traces p σ (flowBetween x y) s fun _ _ => True := by
  refine .bind (traces_internPointer hx) fun a s₁ _ hg₁ _ => ?_
  refine .bind (traces_internPointer ((grown_of_moves hg₁).mentions hy)) fun b s₂ _ _ _ => ?_
  exact traces_addFlow a b

/-! ## Calls -/

/-- Wiring makes moves once the call is in the graph. -/
theorem traces_wire {e : CallEdge QSiteId QMethodId} {site : Qualified StmtId}
    {callee : Qualified MethodId} {call : Invoke} (he : e ∈ s.calls.edges)
    (hsite : s.world.sites.get? e.site = some site)
    (hcallee : s.world.methods.get? e.callee = some callee)
    (hs : p.stmtAt site.entity = .ok (.invoke call)) :
    Traces p σ (wire p call site callee) s fun _ _ => True := by
  -- both ends mention their variables, now and later
  have hcaller : ∀ {s'}, Moves p σ s s' → ∀ v ∈ (Stmt.invoke call).vars,
      Mentions p s' (.var site.context v) := fun hg v hv =>
    (grown_of_moves hg).mentions (.caller he hsite hs hv)
  apply Traces.lift_bind
  intro decl hdecl
  cases hb : decl.body with
  | none => exact .pure trivial trivial
  | some body =>
    have hcallee' : ∀ {s'}, Moves p σ s s' → ∀ v ∈ body.vars,
        Mentions p s' (.var callee.context v) := fun hg v hv =>
      (grown_of_moves hg).mentions (.callee he hcallee hdecl hb hv)
    dsimp only
    split
    · exact Traces.lift_bind fun signature _ => .throw_bind trivial
    · refine .bind (P := fun _ _ => True) ?_ fun _ s₁ _ hg₁ _ => ?_
      · -- arguments flow into parameters
        refine Traces.forM fun x hx s₁ hg₁ => ?_
        obtain ⟨ha, hp⟩ := List.of_mem_zip hx
        exact traces_flowBetween (hcaller hg₁ x.1 (by simp [Stmt.vars, Stmt.uses, ha]))
          (hcallee' hg₁ x.2 (by simp [Body.vars, hp]))
      · cases hr : call.result with
        | none => exact .pure trivial trivial
        | some result =>
          refine .bind (traces_internPointer (hcaller hg₁ result
            (by simp [Stmt.vars, Stmt.defined, hr]))) fun target s₂ _ hg₂ _ => ?_
          -- returned references flow into the result
          refine Traces.forM fun v hv s₃ hg₃ => ?_
          refine .bind (traces_internPointer (hcallee' (hg₁.trans (hg₂.trans hg₃)) v
            (by simp [Body.vars, hv]))) fun source s₄ _ _ _ => ?_
          exact traces_addFlow source target

section Connect

variable {call : Invoke} {site : Qualified StmtId} {callee : Qualified MethodId}

/-- Connecting a call interns its ends, and then asks whether it is new. -/
theorem connect_run : connect p call site callee s =
    (do
      if ← addCall (s.callEdge call.kind site callee) then
        reach (s.callEdge call.kind site callee).callee
        wire p call site callee : SolverM Unit)
      { s with world := ((s.world.method callee).2.site site).2 } :=
  (bind_run rfl).trans (bind_run rfl)

theorem connect_eq_of_hasEdge {e : CallEdge QSiteId QMethodId}
    (he : s.callEdge call.kind site callee = e) (hedge : s.calls.hasEdge e.site e.callee = true) :
    connect p call site callee s = .ok ((), s.called call.kind site callee) := by
  subst he
  rw [connect_run, State.called, CallGraph.record_of_hasEdge hedge]
  refine bind_run (a := false) ?_
  simp only [addCall_eq, CallGraph.addEdge_of_hasEdge hedge]

theorem connect_eq_of_new {e : CallEdge QSiteId QMethodId}
    (he : s.callEdge call.kind site callee = e) (hedge : s.calls.hasEdge e.site e.callee = false) :
    connect p call site callee s = wire p call site callee (s.called call.kind site callee) := by
  subst he
  rw [connect_run, State.called, CallGraph.record_of_new hedge]
  have hadd : addCall (s.callEdge call.kind site callee)
      { s with world := ((s.world.method callee).2.site site).2 } = .ok (true, { s with
        world := ((s.world.method callee).2.site site).2
        calls := (s.calls.addEdge (s.callEdge call.kind site callee)).2 }) := by
    rw [addCall_eq, CallGraph.addEdge_fst hedge]
  exact (bind_run hadd).trans (bind_run rfl)

/-- A call that is recorded is in the graph, between handles of its ends. -/
theorem State.callEdge_called (kind : CallKind)
    (hnew : s.calls.hasEdge (s.callEdge kind site callee).site
      (s.callEdge kind site callee).callee = false) :
    s.callEdge kind site callee ∈ (s.called kind site callee).calls.edges ∧
      (s.called kind site callee).world.sites.get? (s.callEdge kind site callee).site =
        some site ∧
      (s.called kind site callee).world.methods.get? (s.callEdge kind site callee).callee =
        some callee := by
  refine ⟨?_, Table.get?_intern _ _, Table.get?_intern _ _⟩
  show _ ∈ (s.calls.record _).edges
  rw [CallGraph.edges_record hnew]
  exact List.mem_append_right _ (List.mem_singleton_self _)

/-- Connecting a call makes moves, if it is a move to record the call. -/
theorem traces_connect (hs : p.stmtAt site.entity = .ok (.invoke call))
    (hmove : Move p σ s₀ (s.called call.kind site callee)) {x : SolverM Unit}
    (hx : x s₀ = connect p call site callee s) : Traces p σ x s₀ fun _ _ => True := by
  cases hedge : s.calls.hasEdge (s.callEdge call.kind site callee).site
      (s.callEdge call.kind site callee).callee with
  | true => exact .move (hx.trans (connect_eq_of_hasEdge rfl hedge)) hmove trivial
  | false =>
    obtain ⟨he, hsite, hcallee⟩ := State.callEdge_called (s := s) call.kind hedge
    exact Traces.resume (traces_wire he hsite hcallee hs) (hx.trans (connect_eq_of_new rfl hedge))
      hmove

end Connect

/-- A static call of a method that can run. -/
theorem traces_callStatically {c : ContextId} {m : MethodId} {i : StmtId} {call : Invoke}
    (hm : Runs s.world s.calls c m) (hx : p.Executes m i (.invoke call))
    (hk : call.kind = .static) : Traces p σ (callStatically p σ c i call) s fun _ _ => True := by
  obtain ⟨_, _, _, _, _, hs⟩ := id hx
  refine Traces.lift_bind fun target htarget => ?_
  cases target with
  | none => exact .pure trivial trivial
  | some m' =>
    refine Traces.lift_bind fun decl hdecl => ?_
    cases hstatic : decl.isStatic with
    | false => exact Traces.lift_bind fun signature _ => .throw_bind trivial
    | true =>
      cases hc : σ.staticContext s.world.contexts ⟨c, i⟩ with
      | error e => exact .error (bind_run_error (chooseContext_eq_error hc)) trivial
      | ok r =>
        exact traces_connect hs (.callStatically hm hx hk htarget hdecl hstatic hc)
          (bind_run (chooseContext_eq hc))

/-- A call on an object that a variable refers to. -/
theorem traces_callOn {h : PointerId} {c : ContextId} {v : VarId} {q : QObjId}
    {key : Qualified ObjId} {i : StmtId} {call : Invoke}
    (hh : s.world.pointers.get? h = some (.var c v)) (hq : s.world.Holds h q)
    (hkey : s.world.objs.get? q = some key) (hs : p.stmtAt i = .ok (.invoke call))
    (hb : call.receiver = some v) :
    Traces p σ (callOn p σ c q key i call) s fun _ _ => True := by
  refine .get_bind (Traces.lift_bind fun obj hobj => ?_)
  refine Traces.lift_bind fun target htarget => ?_
  cases target with
  | none => exact .pure trivial trivial
  | some m =>
    refine Traces.lift_bind fun decl hdecl => ?_
    cases hstatic : decl.isStatic with
    | true => exact Traces.lift_bind fun signature _ => .throw_bind trivial
    | false =>
      cases hc : σ.instanceContext s.world.contexts ⟨c, i⟩ key obj.containerClass with
      | error e => exact .error (bind_run_error (chooseContext_eq_error hc)) trivial
      | ok r =>
        have hmove := Move.callOn hh hq hkey (Outcome.ofRow_eq_ok.1 hobj) hs hb htarget hdecl
          hstatic hc
        refine traces_connect hs hmove ((bind_run (chooseContext_eq hc)).trans ?_)
        -- the receiver is sent to `this`, if the callee has one
        cases hself : decl.body.bind Body.self with
        | none => rfl
        | some self => rfl

/-! ## Statements -/

/-- An allocation in a method that can run. -/
theorem traces_alloc {c : ContextId} {m : MethodId} {i : StmtId} {lhs : VarId} {type : RefType}
    (hm : Runs s.world s.calls c m) (hx : p.Executes m i (.alloc lhs type)) :
    Traces p σ (visitStmt p σ c i (.alloc lhs type)) s fun _ _ => True := by
  cases ho : s.heap.objFor p i with
  | error e => exact .error (bind_run_error (objFor_eq_error ho)) trivial
  | ok r =>
    obtain ⟨o, heap⟩ := r
    have hobj : objFor p i s = .ok (o, { s with heap }) := objFor_eq ho
    cases hc : σ.heapContext s.world.contexts c with
    | error e =>
      exact .error ((bind_run hobj).trans
        (bind_run_error (chooseContext_eq_error (s := { s with heap }) hc))) trivial
    | ok r =>
      obtain ⟨c', contexts⟩ := r
      have hmove : Move p σ s ((s.pooled contexts).allocated heap ⟨c', o⟩) := .alloc hm hx ho hc
      refine Traces.resume (x := internPointer (.var c lhs) >>= fun target =>
        deliver target (.singleton (s.world.objs.intern ⟨c', o⟩).1)) ?_ ?_ hmove
      · refine .bind (traces_internPointer (hmove.grown.mentions
          (.visited hm hx (by simp [Stmt.vars, Stmt.defined])))) fun target s₂ _ _ _ => ?_
        exact Traces.move rfl .send trivial
      · -- the object and its context come first
        refine (bind_run hobj).trans ?_
        refine (bind_run (chooseContext_eq (s := { s with heap }) hc)).trans ?_
        exact bind_run rfl

/-- A statement of a method that can run. -/
theorem traces_visitStmt {c : ContextId} {m : MethodId} {i : StmtId} {stmt : Stmt}
    (hm : Runs s.world s.calls c m) (hx : p.Executes m i stmt) :
    Traces p σ (visitStmt p σ c i stmt) s fun _ _ => True := by
  -- whatever variable is interned stands in the statement that is visited
  have hvar : ∀ v ∈ stmt.vars, Mentions p s (.var c v) := fun v hv => .visited hm hx hv
  cases stmt with
  | alloc lhs type => exact traces_alloc hm hx
  | copy lhs rhs =>
    exact traces_flowBetween (hvar rhs (by simp [Stmt.vars, Stmt.uses]))
      (hvar lhs (by simp [Stmt.vars, Stmt.defined]))
  | load lhs base field =>
    cases base with
    | some base => exact .pure trivial trivial
    | none =>
      exact Traces.lift_bind fun f _ => traces_flowBetween .staticField
        (hvar lhs (by simp [Stmt.vars, Stmt.defined]))
  | store base field rhs =>
    cases base with
    | some base => exact .pure trivial trivial
    | none =>
      exact Traces.lift_bind fun f _ => traces_flowBetween
        (hvar rhs (by simp [Stmt.vars, Stmt.uses])) .staticField
  | invoke call =>
    by_cases hk : call.kind = .static
    · rw [visitStmt, if_pos hk]
      exact traces_callStatically hm hx hk
    · rw [visitStmt, if_neg hk]
      exact .pure trivial trivial
  | loadArray _ _ => exact .pure trivial trivial
  | storeArray _ _ => exact .pure trivial trivial
  | ret _ => exact .pure trivial trivial
  | nop => exact .pure trivial trivial

/-- A statement that follows a variable, for an object that the variable refers to. -/
theorem traces_dereferenceStmt {h : PointerId} {c : ContextId} {v : VarId} {q : QObjId}
    {key : Qualified ObjId} {i : StmtId} {stmt : Stmt}
    (hh : s.world.pointers.get? h = some (.var c v)) (hq : s.world.Holds h q)
    (hkey : s.world.objs.get? q = some key) (hs : p.stmtAt i = .ok stmt)
    (hb : stmt.base? = some v) :
    Traces p σ (dereferenceStmt p σ c q key i stmt) s fun _ _ => True := by
  have hvar : ∀ w ∈ stmt.vars, Mentions p s (.var c w) := fun w hw => .dereferenced hh hs hb hw
  cases stmt with
  | store base field rhs =>
    exact Traces.lift_bind fun f _ => traces_flowBetween
      (hvar rhs (by simp [Stmt.vars, Stmt.uses])) .instanceField
  | load lhs base field =>
    exact Traces.lift_bind fun f _ => traces_flowBetween .instanceField
      (hvar lhs (by simp [Stmt.vars, Stmt.defined]))
  | storeArray base rhs =>
    exact traces_flowBetween (hvar rhs (by simp [Stmt.vars, Stmt.uses])) .arrayElems
  | loadArray lhs base =>
    exact traces_flowBetween .arrayElems (hvar lhs (by simp [Stmt.vars, Stmt.defined]))
  | invoke call => exact traces_callOn hh hq hkey hs hb
  -- the other statements follow no variable
  | alloc _ _ => cases hb
  | copy _ _ => cases hb
  | ret _ => cases hb
  | nop => cases hb

/-! ## Steps -/

/-- The visit of a method that can run. -/
theorem traces_visitMethod {h : QMethodId} (hh : h ∈ s.calls.reachable) :
    Traces p σ (visitMethod p σ h) s fun _ _ => True := by
  refine .get_bind (Traces.lift_bind fun q hq => Traces.lift_bind fun decl hdecl => ?_)
  have hm : Runs s.world s.calls q.context q.entity := ⟨h, hh, Outcome.ofRow_eq_ok.1 hq⟩
  cases hb : decl.body with
  | none => exact .pure trivial trivial
  | some body =>
    refine Traces.forM fun i hi s₁ hg₁ => Traces.lift_bind fun stmt hs => ?_
    exact traces_visitStmt ((grown_of_moves hg₁).runs hm) ⟨decl, body, hdecl, hb, hi, hs⟩

/-- One of the statements that follow a variable. -/
theorem traces_dereferenceStmt_of_mem {h : PointerId} {c : ContextId} {v : VarId} {q : QObjId}
    {key : Qualified ObjId} (hh : s.world.pointers.get? h = some (.var c v))
    (hq : s.world.Holds h q) (hkey : s.world.objs.get? q = some key) {i : StmtId}
    (hi : i ∈ (p.usesOf v).all) :
    Traces p σ (liftM (p.stmtAt i) >>= dereferenceStmt p σ c q key i) s fun _ _ => True := by
  refine Traces.lift_bind fun stmt hs => ?_
  obtain ⟨stmt', hs', hb⟩ := Program.mem_usesOf.1 hi
  obtain rfl := Except.ok.inj (hs.symm.trans hs')
  exact traces_dereferenceStmt hh hq hkey hs hb

/-- All statements that follow a variable, for an object that the variable refers to. -/
theorem traces_dereference (wf : p.WellFormed) {h : PointerId} {c : ContextId} {v : VarId}
    {q : QObjId} (hh : s.world.pointers.get? h = some (.var c v)) (hq : s.world.Holds h q) :
    Traces p σ (dereference p σ c v q) s fun _ _ => True := by
  refine Traces.lift_bind fun uses huses => ?_
  obtain rfl : uses = p.usesOf v := wf.uses v uses (Outcome.ofRow_eq_ok.1 huses)
  refine .get_bind (Traces.lift_bind fun key hkey => ?_)
  refine Traces.forM fun i hi s₁ hg₁ => ?_
  have hgrown := grown_of_moves hg₁
  exact traces_dereferenceStmt_of_mem (hgrown.world.pointers.get? hh) (hgrown.holds _ _ hq)
    (hgrown.world.objs.get? (Outcome.ofRow_eq_ok.1 hkey)) hi

/-- What is done about objects that are new at a pointer. -/
theorem traces_followUp (wf : p.WellFormed) {h : PointerId} {fresh : PointsTo}
    (hfresh : ∀ q ∈ fresh, s.world.Holds h q) :
    Traces p σ (followUp p σ h fresh) s fun _ _ => True := by
  unfold followUp
  split
  · refine .get_bind (Traces.lift_bind fun key hkey => ?_)
    cases key with
    | var c v =>
      refine Traces.forM fun q hq s₁ hg₁ => ?_
      have hgrown := grown_of_moves hg₁
      exact traces_dereference wf (hgrown.world.pointers.get? (Outcome.ofRow_eq_ok.1 hkey))
        (hgrown.holds _ _ (hfresh q (AscendingSet.mem_toList.1 hq)))
    | staticField f => exact .pure trivial trivial
    | instanceField base f => exact .pure trivial trivial
    | arrayElems base => exact .pure trivial trivial
  · exact .pure trivial trivial

/-- A delivery that arrives and is followed up. -/
theorem traces_process (wf : p.WellFormed) {w : WorkList} {d : Delivery}
    (hpop : s.workList.pop? = some (d, w)) {x : SolverM Unit}
    (hx : x s = process p σ d { s with workList := w, processed := s.processed + 1 }) :
    Traces p σ x s fun _ _ => True := by
  cases hset : s.world.sets.get? d.target with
  | none => exact .error (hx.trans (process_eq_error hset)) trivial
  | some set =>
    refine Traces.resume (traces_followUp wf fun q hq => (holds_arrive hset).2 (Or.inr ⟨rfl, ?_⟩))
      (hx.trans (process_eq hset)) (.arrive hpop hset)
    exact AscendingSet.mem_of_mem_absorb_snd hq

/-- A step is a number of moves. -/
theorem moves_of_step (wf : p.WellFormed) {budget : Option Nat} {r : Progress}
    (h : step p σ budget s = .ok r) : Moves p σ s r.state := by
  rcases step_cases p σ budget s with ⟨m, hm, e⟩ | ⟨-, -, e⟩ | ⟨-, -, e⟩ | ⟨-, -, d, w, hpop, e⟩
  · obtain ⟨s₁, hrun, rfl⟩ := eq_running_of_map (e.symm.trans h)
    have hvisit := traces_visitMethod (p := p) (σ := σ)
      (s := { s with visited := s.visited + 1 }) (List.mem_of_getElem? hm)
    exact .head (.visit hm) (hvisit.of_ok hrun).2.1
  · obtain rfl := Except.ok.inj (e.symm.trans h)
    exact .refl
  · obtain rfl := Except.ok.inj (e.symm.trans h)
    exact .refl
  · obtain ⟨s₁, hrun, rfl⟩ := eq_running_of_map (e.symm.trans h)
    exact ((traces_process wf hpop rfl : Traces p σ (fun _ => process p σ d
      { s with workList := w, processed := s.processed + 1 }) s _).of_ok hrun).2.1

/-! ## Runs -/

theorem moves_of_steps (wf : p.WellFormed) {budget : Option Nat} {n : Nat} {r : Progress}
    (h : steps p σ budget n s = .ok r) : Moves p σ s r.state :=
  steps_keep (P := Moves p σ s) (fun _ _ hmoves hr => hmoves.trans (moves_of_step wf hr)) .refl h

/-- The output of a run is that of a settled state to which moves lead. -/
theorem exists_moves_of_solve (wf : p.WellFormed) {order : Order} {budget : Option Nat}
    {out : Output} (h : solve p σ order budget = .ok out) :
    ∃ s, Moves p σ (start p order) s ∧ Settled p σ s ∧ out = s.output out.completed := by
  rw [solve_eq_steps] at h
  -- the number of steps is too large to be looked at
  generalize 2 ^ rounds p σ - 1 = n at h
  have hsound : Sound p σ budget (steps p σ budget n (start p order)) := sound_steps wf order n
  obtain ⟨r, hrun, rfl⟩ := Outcome.map_eq_ok.1 h
  have hmoves := moves_of_steps wf hrun
  rw [hrun] at hsound
  cases r with
  | running s => exact ⟨s, hmoves, hsound, rfl⟩
  | finished s completed => exact ⟨s, hmoves, hsound.1, rfl⟩

end Solver

end PointerAnalysis
