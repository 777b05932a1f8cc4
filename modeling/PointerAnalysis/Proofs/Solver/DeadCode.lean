import PointerAnalysis.Proofs.Program.Agreement
import PointerAnalysis.Proofs.Solver.Rooted

/-!
# Dead code

A run reads the statements of methods that can run, and of no others.  It looks at a call of a method
only to make that method reachable, and at the statements that follow a variable only if the variable
belongs to a method that can run.  So a run does the same, handle for handle, on every program that
agrees on the methods that can run in the end, and mistakes in other methods go unnoticed.

## Main definitions

- `Confined`: all methods that can run are in a set.
- `Repeats`: a computation does what another one does, while the methods that can run are in a set.

## Main statements

- `repeats_visitMethod`, `repeats_followUp`: what a step does is repeated on the other program.
- `solve_eq_of_agreesOn`: a run gives the same output on a program that agrees on the methods that
  can run.
-/

namespace PointerAnalysis.Solver

variable {p p' : Program} {σ : Sensitivity} {R : MethodId → Prop} {s s' : State}

/-! ## Repetition -/

/-- All methods that can run are in `R`. -/
def Confined (R : MethodId → Prop) (s : State) : Prop := ∀ c m, Runs s.world s.calls c m → R m

theorem Confined.of_moves (h : Confined R s') (hmoves : Moves p σ s s') : Confined R s :=
  fun c m hm => h c m ((grown_of_moves hmoves).runs hm)

/-- Begun in `s`, the second computation does what the first does, if the first gives an answer and
no method outside `R` can run then. -/
def Repeats (R : MethodId → Prop) {α : Type} (x y : SolverM α) (s : State) : Prop :=
  ∀ a s', x s = .ok (a, s') → Confined R s' → y s = .ok (a, s')

namespace Repeats

variable {α β : Type} {x y : SolverM α} {f g : α → SolverM β}

theorem refl (x : SolverM α) (s : State) : Repeats R x x s := fun _ _ h _ => h

/-- Computations that begin alike. -/
theorem bind (h : ∀ a s', x s = .ok (a, s') → Repeats R (f a) (g a) s') :
    Repeats R (x >>= f) (x >>= g) s := by
  intro b s'' hrun hR
  cases hx : x s with
  | error e =>
    rw [bind_run_error hx] at hrun
    cases hrun
  | ok r =>
    obtain ⟨a, s'⟩ := r
    rw [bind_run hx] at hrun ⊢
    exact h a s' hx b s'' hrun hR

/-- Computations that begin with an answer. -/
theorem lift_bind {o o' : Outcome α}
    (h : ∀ a, o = .ok a → ∃ a', o' = .ok a' ∧ Repeats R (f a) (g a') s) :
    Repeats R (liftM o >>= f) (liftM o' >>= g) s := by
  intro b s' hrun hR
  cases ho : o with
  | error e =>
    rw [bind_run_error (lift_run_error ho)] at hrun
    cases hrun
  | ok a =>
    obtain ⟨a', ho', hrest⟩ := h a ho
    rw [bind_run (lift_run ho)] at hrun
    rw [bind_run (lift_run ho')]
    exact hrest b s' hrun hR

/-- Of a computation that fails nothing is to be repeated. -/
theorem throw_bind {e : Halt} {y : SolverM β} : Repeats R (MonadExcept.throw e >>= f) y s := by
  intro b s' hrun
  cases hrun

theorem resume {x' y' : SolverM α} {s₁ : State} (h : Repeats R x y s₁) (hx : x' s = x s₁)
    (hy : y' s = y s₁) : Repeats R x' y' s := fun a s' hrun hR =>
  hy.trans (h a s' (hx.symm.trans hrun) hR)

/-- What can run now can run later, so it may be taken to be in `R` now. -/
theorem of_traces {Q : α → State → Prop} (ht : Traces p σ x s Q)
    (h : Confined R s → Repeats R x y s) : Repeats R x y s := fun a s' hrun hR =>
  h (hR.of_moves (ht.of_ok hrun).2.1) a s' hrun hR

/-- A loop is repeated if each round is. -/
theorem forM {xs : List α} {f g : α → SolverM Unit}
    (ht : ∀ x ∈ xs, ∀ s', Moves p σ s s' → Traces p σ (f x) s' fun _ _ => True)
    (h : ∀ x ∈ xs, ∀ s', Moves p σ s s' → Repeats R (f x) (g x) s') :
    Repeats R (xs.forM f) (xs.forM g) s := by
  induction xs generalizing s with
  | nil => exact refl _ _
  | cons x xs ih =>
    rw [List.forM_eq_forM, List.forM_cons, List.forM_cons]
    intro _ s₂ hrun hR
    cases hx : f x s with
    | error e =>
      rw [bind_run_error hx] at hrun
      cases hrun
    | ok r =>
      obtain ⟨⟨⟩, s₁⟩ := r
      rw [bind_run hx] at hrun
      have hmoves : Moves p σ s s₁ := ((ht x (List.mem_cons_self ..) s .refl).of_ok hx).2.1
      have htrest := fun y hy s' hg => ht y (List.mem_cons_of_mem _ hy) s' (hmoves.trans hg)
      -- the rest of the loop keeps what can run after the first round
      have hrest : Moves p σ s₁ s₂ := ((Traces.forM htrest).of_ok hrun).2.1
      rw [bind_run (h x (List.mem_cons_self ..) s .refl _ _ hx (hR.of_moves hrest))]
      exact ih htrest (fun y hy s' hg => h y (List.mem_cons_of_mem _ hy) s' (hmoves.trans hg)) _ _
        hrun hR

end Repeats

/-! ## Calls -/

section Agreement

variable (hp : p.Built) (hp' : p'.Built) (ha : p.AgreesOn p' R)
include hp hp' ha

section Connect

variable {call : Invoke} {site : Qualified StmtId} {callee : Qualified MethodId}

theorem wire_eq (hm : R callee.entity) : wire p' call site callee = wire p call site callee := by
  unfold wire
  rw [ha.methodAt_eq hp hp' hm, Program.methodSignature_congr ha.declarations]

/-- A call that is new makes its callee reachable, and only then is the callee looked at. -/
theorem repeats_connect (hs : p.stmtAt site.entity = .ok (.invoke call)) :
    Repeats R (connect p call site callee) (connect p' call site callee) s := by
  cases hedge : s.calls.hasEdge (s.callEdge call.kind site callee).site
      (s.callEdge call.kind site callee).callee with
  | true =>
    intro a s' hrun _
    rw [connect_eq_of_hasEdge rfl hedge] at hrun ⊢
    exact hrun
  | false =>
    -- the callee is reachable now, so both programs declare it alike
    obtain ⟨he, hsite, hcallee⟩ := State.callEdge_called (s := s) call.kind hedge
    refine Repeats.resume ?_ (connect_eq_of_new rfl hedge) (connect_eq_of_new rfl hedge)
    refine Repeats.of_traces (traces_wire (σ := .insensitive) he hsite hcallee hs) fun hR => ?_
    have hreach : (s.callEdge call.kind site callee).callee ∈
        (s.called call.kind site callee).calls.reachable := by
      show _ ∈ (s.calls.record _).reachable
      rw [CallGraph.record_of_new hedge]
      exact CallGraph.mem_reachable_reach.2 (Or.inr rfl)
    rw [wire_eq hp hp' ha (hR _ _ ⟨_, hreach, hcallee⟩)]
    exact .refl _ _

end Connect

/-- A static call. -/
theorem repeats_callStatically {c : ContextId} {i : StmtId} {call : Invoke}
    (hs : p.stmtAt i = .ok (.invoke call)) :
    Repeats R (callStatically p σ c i call) (callStatically p' σ c i call) s := by
  unfold callStatically
  rw [Program.targetOf_congr ha.declarations, Program.methodSignature_congr ha.declarations]
  refine .lift_bind fun target ht => ⟨target, ht, ?_⟩
  cases target with
  | none => exact .refl _ _
  | some m =>
    refine .lift_bind fun decl hdecl => ?_
    obtain ⟨decl', hdecl', hheader⟩ := Program.methodAt_of_declarations ha.declarations hdecl
    refine ⟨decl', hdecl', ?_⟩
    rw [MethodDecl.isStatic_of_header hheader]
    cases decl.isStatic with
    | false => exact .lift_bind fun signature h => ⟨signature, h, .throw_bind⟩
    | true => exact .bind fun c' s₁ _ => repeats_connect hp hp' ha hs

/-- A call on an object. -/
theorem repeats_callOn {c : ContextId} {q : QObjId} {key : Qualified ObjId} {i : StmtId}
    {call : Invoke} (hs : p.stmtAt i = .ok (.invoke call)) :
    Repeats R (callOn p σ c q key i call) (callOn p' σ c q key i call) s := by
  unfold callOn
  rw [Program.targetOf_congr ha.declarations, Program.methodSignature_congr ha.declarations]
  refine .bind fun s₁ _ _ => .bind fun obj _ _ => ?_
  refine .lift_bind fun target ht => ⟨target, ht, ?_⟩
  cases target with
  | none => exact .refl _ _
  | some m =>
    refine .lift_bind fun decl hdecl => ?_
    obtain ⟨decl', hdecl', hheader⟩ := Program.methodAt_of_declarations ha.declarations hdecl
    refine ⟨decl', hdecl', ?_⟩
    rw [MethodDecl.isStatic_of_header hheader, MethodDecl.self_of_header hheader]
    cases decl.isStatic with
    | true => exact .lift_bind fun signature h => ⟨signature, h, .throw_bind⟩
    | false =>
      refine .bind fun c' s₁ _ => ?_
      -- the receiver is sent to `this`, if the callee has one
      cases decl.body.bind Body.self with
      | none => exact repeats_connect hp hp' ha hs
      | some self =>
        exact .bind fun target s₂ _ => .bind fun _ s₃ _ => repeats_connect hp hp' ha hs

/-! ## Statements -/

/-- A statement of a method in `R`. -/
theorem repeats_visitStmt {c : ContextId} {m : MethodId} {i : StmtId} {stmt : Stmt}
    (howner : p.ownerOf i = .ok m) (hm : R m) (hs : p.stmtAt i = .ok stmt) :
    Repeats R (visitStmt p σ c i stmt) (visitStmt p' σ c i stmt) s := by
  cases stmt with
  | alloc lhs type =>
    simp only [visitStmt, objFor, ha.objFor_eq hp hp' howner hm]
    exact .refl _ _
  | load lhs base field =>
    cases base <;> simp only [visitStmt, Program.resolveFieldAs_congr ha.declarations] <;>
      exact .refl _ _
  | store base field rhs =>
    cases base <;> simp only [visitStmt, Program.resolveFieldAs_congr ha.declarations] <;>
      exact .refl _ _
  | invoke call =>
    simp only [visitStmt]
    split
    · exact repeats_callStatically hp hp' ha hs
    · exact .refl _ _
  | copy _ _ => exact .refl _ _
  | loadArray _ _ => exact .refl _ _
  | storeArray _ _ => exact .refl _ _
  | ret _ => exact .refl _ _
  | nop => exact .refl _ _

/-- A statement, for an object that the variable it follows refers to. -/
theorem repeats_dereferenceStmt {c : ContextId} {q : QObjId} {key : Qualified ObjId} {i : StmtId}
    {stmt : Stmt} (hs : p.stmtAt i = .ok stmt) :
    Repeats R (dereferenceStmt p σ c q key i stmt) (dereferenceStmt p' σ c q key i stmt) s := by
  cases stmt with
  | load lhs base field =>
    simp only [dereferenceStmt, Program.resolveFieldAs_congr ha.declarations]
    exact .refl _ _
  | store base field rhs =>
    simp only [dereferenceStmt, Program.resolveFieldAs_congr ha.declarations]
    exact .refl _ _
  | invoke call => exact repeats_callOn hp hp' ha hs
  | alloc _ _ => exact .refl _ _
  | copy _ _ => exact .refl _ _
  | loadArray _ _ => exact .refl _ _
  | storeArray _ _ => exact .refl _ _
  | ret _ => exact .refl _ _
  | nop => exact .refl _ _

/-! ## Steps -/

/-- The visit of a method that can run. -/
theorem repeats_visitMethod {h : QMethodId} (hh : h ∈ s.calls.reachable) :
    Repeats R (visitMethod p σ h) (visitMethod p' σ h) s := by
  refine .of_traces (traces_visitMethod (p := p) (σ := σ) hh) fun hR => ?_
  refine .bind fun s₀ s₁ hget => .lift_bind fun q hq => ⟨q, hq, ?_⟩
  obtain ⟨rfl, rfl⟩ := Prod.mk.inj (Except.ok.inj hget)
  -- what is visited can run, and on such methods the programs agree
  have hm : Runs s.world s.calls q.context q.entity := ⟨h, hh, Outcome.ofRow_eq_ok.1 hq⟩
  have hin : R q.entity := hR _ _ hm
  rw [ha.methodAt_eq hp hp' hin]
  refine .lift_bind fun decl hdecl => ⟨decl, hdecl, ?_⟩
  cases hb : decl.body with
  | none => exact .refl _ _
  | some body =>
    have howner : ∀ i ∈ body.stmts, p.ownerOf i = .ok q.entity := fun i =>
      hp.owned.ownerOf _ decl body i hdecl hb
    refine .forM (p := p) (σ := σ) (fun i hi s₁ hg₁ => ?_) fun i hi s₁ _ => ?_
    · exact Traces.lift_bind fun stmt hs => traces_visitStmt ((grown_of_moves hg₁).runs hm)
        ⟨decl, body, hdecl, hb, hi, hs⟩
    · rw [ha.stmts i _ (howner i hi) hin]
      exact .lift_bind fun stmt hs => ⟨stmt, hs,
        repeats_visitStmt hp hp' ha (howner i hi) hin hs⟩

/-- All statements that follow a variable of a method in `R`. -/
theorem repeats_dereference {h : PointerId} {c : ContextId} {m : MethodId} {v : VarId} {q : QObjId}
    (hv : p.Owns m v) (hm : R m) (hh : s.world.pointers.get? h = some (.var c v))
    (hq : s.world.Holds h q) :
    Repeats R (dereference p σ c v q) (dereference p' σ c v q) s := by
  unfold dereference
  rw [ha.dereferencesOf_eq hp hp' hm hv]
  refine .lift_bind fun uses huses => ⟨uses, huses, ?_⟩
  obtain rfl : uses = p.usesOf v := hp.wellFormed.uses v uses (Outcome.ofRow_eq_ok.1 huses)
  refine .bind fun s₀ s₁ hget => .lift_bind fun key hkey => ⟨key, hkey, ?_⟩
  obtain ⟨rfl, rfl⟩ := Prod.mk.inj (Except.ok.inj hget)
  refine .forM (p := p) (σ := σ) (fun i hi s₁ hg₁ => ?_) fun i hi s₁ _ => ?_
  · have hgrown := grown_of_moves hg₁
    exact traces_dereferenceStmt_of_mem (hgrown.world.pointers.get? hh) (hgrown.holds _ _ hq)
      (hgrown.world.objs.get? (Outcome.ofRow_eq_ok.1 hkey)) hi
  · -- the method of the statement is that of the variable
    obtain ⟨stmt, hs, hb⟩ := Program.mem_usesOf.1 hi
    obtain ⟨site, hsite, -⟩ := Program.stmtAt_eq_ok.1 hs
    have howner : p.ownerOf i = .ok site.method := Program.ownerOf_eq_ok.2 ⟨site, hsite, rfl⟩
    have hsame : site.method = m :=
      (hp.owned.stmtVars _ i stmt howner hs v (Stmt.mem_vars_of_base? hb)).inj hv
    rw [ha.stmts i _ howner (hsame ▸ hm)]
    exact .lift_bind fun stmt hs => ⟨stmt, hs, repeats_dereferenceStmt hp hp' ha hs⟩

/-- What is done about objects that are new at a pointer. -/
theorem repeats_followUp (hr : Rooted p s.world s.heap s.calls) {h : PointerId} {fresh : PointsTo}
    (hfresh : ∀ q ∈ fresh, s.world.Holds h q) :
    Repeats R (followUp p σ h fresh) (followUp p' σ h fresh) s := by
  refine .of_traces (traces_followUp (σ := σ) hp.wellFormed hfresh) fun hR => ?_
  unfold followUp
  split
  · refine .bind fun s₀ s₁ hget => .lift_bind fun key hkey => ⟨key, hkey, ?_⟩
    obtain ⟨rfl, rfl⟩ := Prod.mk.inj (Except.ok.inj hget)
    cases key with
    | var c v =>
      have hkey := Outcome.ofRow_eq_ok.1 hkey
      -- a variable in use belongs to a method that can run
      obtain ⟨m, hv, hruns⟩ := hr.vars h c v hkey
      refine .forM (p := p) (σ := σ) (fun q hq s₁ hg₁ => ?_) fun q hq s₁ hg₁ => ?_
      · have hgrown := grown_of_moves hg₁
        exact traces_dereference hp.wellFormed (hgrown.world.pointers.get? hkey)
          (hgrown.holds _ _ (hfresh q (AscendingSet.mem_toList.1 hq)))
      · have hgrown := grown_of_moves hg₁
        exact repeats_dereference hp hp' ha hv (hR _ _ hruns) (hgrown.world.pointers.get? hkey)
          (hgrown.holds _ _ (hfresh q (AscendingSet.mem_toList.1 hq)))
    | staticField f => exact .refl _ _
    | instanceField base f => exact .refl _ _
    | arrayElems base => exact .refl _ _
  · exact .refl _ _

/-- A delivery that arrives and is followed up. -/
theorem repeats_process (hr : Rooted p s.world s.heap s.calls) {w : WorkList} {d : Delivery}
    (hpop : s.workList.pop? = some (d, w)) :
    Repeats R (process p σ d) (process p' σ d)
      { s with workList := w, processed := s.processed + 1 } := by
  cases hset : s.world.sets.get? d.target with
  | none =>
    intro a s' hrun
    rw [process_eq_error hset] at hrun
    cases hrun
  | some set =>
    refine Repeats.resume (repeats_followUp hp hp' ha ?_ fun q hq => ?_) (process_eq hset)
      (process_eq hset)
    · exact hr.move (σ := σ) hp.owned (.arrive hpop hset)
    · exact (holds_arrive hset).2 (Or.inr ⟨rfl, AscendingSet.mem_of_mem_absorb_snd hq⟩)

/-- A step is taken alike. -/
theorem step_eq_ok_of_agreesOn {budget : Option Nat} (hr : Rooted p s.world s.heap s.calls)
    {r : Progress} (h : step p σ budget s = .ok r) (hR : Confined R r.state) :
    step p' σ budget s = .ok r := by
  have hrepeat : ∀ {x y : SolverM Unit} {s₀ : State}, Repeats R x y s₀ →
      (x s₀).map (fun r => Progress.running r.2) = .ok r →
      (y s₀).map (fun r => Progress.running r.2) = .ok r := by
    intro x y s₀ hxy hx
    obtain ⟨s₁, hrun, rfl⟩ := eq_running_of_map hx
    rw [hxy () s₁ hrun hR]
    rfl
  -- which step is taken depends on the state alone
  revert h
  unfold step
  cases hm : s.calls.reachable[s.visited]? with
  | some m =>
    intro h
    exact (bind_running _).trans (hrepeat (repeats_visitMethod hp hp' ha (List.mem_of_getElem? hm))
      ((bind_running _).symm.trans h))
  | none =>
    cases hpop : s.workList.pop? with
    | none => exact id
    | some r =>
      obtain ⟨d, w⟩ := r
      dsimp only
      split
      · exact id
      · intro h
        exact (bind_running _).trans (hrepeat (repeats_process hp hp' ha hr hpop)
          ((bind_running _).symm.trans h))

/-! ## Runs -/

theorem steps_eq_ok_of_agreesOn {budget : Option Nat} {n : Nat}
    (hr : Rooted p s.world s.heap s.calls) {r : Progress} (h : steps p σ budget n s = .ok r)
    (hR : Confined R r.state) : steps p' σ budget n s = .ok r := by
  -- what can run after the first step can run in the end
  induction n generalizing s with
  | zero =>
    obtain rfl := Except.ok.inj h
    rfl
  | succ n ih =>
    obtain ⟨r₁, hstep, h⟩ := Outcome.bind_eq_ok.1 h
    refine Outcome.bind_eq_ok.2 ⟨r₁, ?_, ?_⟩
    · refine step_eq_ok_of_agreesOn hp hp' ha hr hstep ?_
      cases r₁ with
      | running s₁ => exact hR.of_moves (moves_of_steps hp.wellFormed h)
      | finished s₁ completed =>
        obtain rfl := Except.ok.inj h
        exact hR
    · cases r₁ with
      | running s₁ => exact ih (hr.moves hp.owned (moves_of_step hp.wellFormed hstep)) h
      | finished s₁ completed =>
        obtain rfl := Except.ok.inj h
        rfl

omit hp hp' in
theorem rounds_eq : rounds p' σ = rounds p σ := by
  have hclasses : p'.classes = p.classes := congrArg (·.classes) ha.declarations
  have hfields : p'.fields = p.fields := congrArg (·.fields) ha.declarations
  have hmethods : p'.methods.size = p.methods.size := by
    have h : (p'.methods.map MethodDecl.header).size = (p.methods.map MethodDecl.header).size :=
      congrArg (·.methods.size) ha.declarations
    simpa using h
  unfold rounds
  rw [hclasses, hfields, hmethods, ha.vars, ha.size_stmts]

end Agreement

/-- A run gives the same output, handle for handle, on every program with the same declarations,
variables and owners of statements that has the same statements in the methods that can run.  The
statements of the other methods may be any. -/
theorem solve_eq_of_agreesOn (hp : p.Built) (hp' : p'.Built) {order : Order}
    {budget : Option Nat} {out : Output} (h : solve p σ order budget = .ok out)
    (ha : p.AgreesOn p' fun m => ∃ c, Runs out.world out.calls c m) :
    solve p' σ order budget = .ok out := by
  have hstart : start p' order = start p order := by
    rw [start, start, Program.entry_congr ha.declarations]
  rw [solve_eq_steps] at h ⊢
  rw [rounds_eq ha, hstart]
  -- the number of steps is too large to be looked at
  generalize 2 ^ rounds p σ - 1 = n at h ⊢
  obtain ⟨r, hrun, rfl⟩ := Outcome.map_eq_ok.1 h
  refine Outcome.map_eq_ok.2 ⟨r, ?_, rfl⟩
  refine steps_eq_ok_of_agreesOn hp hp' ha (rooted_start p order) hrun fun c m hm => ⟨c, ?_⟩
  cases r with
  | running s => exact hm
  | finished s completed => exact hm

/-! ## A method that is never called -/

/-- The steps of a program with a method that is never called and has one statement. -/
def idleSteps (stmt : Stmt) : List Draft.Step :=
  [.declareClass "Main" none,
    .declareField ⟨0⟩ "item" false,
    .declareMethod ⟨0⟩ ⟨"void main()"⟩ .static,
    .declareMethod ⟨0⟩ ⟨"void idle()"⟩ .static,
    .declareVar ⟨0⟩ "x",
    .declareVar ⟨1⟩ "y",
    .setEntry ⟨0⟩,
    .append ⟨0⟩ (.alloc ⟨0⟩ (.cls ⟨0⟩)),
    .append ⟨1⟩ stmt]

/-- The program that these steps build, if the statement follows no variable and returns none. -/
def idleProgram (stmt : Stmt) : Program where
  classes := ⟨#[{ name := "Main" }]⟩
  methods := ⟨#[
    { subsignature := ⟨"void main()"⟩, owner := ⟨0⟩, isStatic := true,
      body := some { stmts := [⟨0⟩] } },
    { subsignature := ⟨"void idle()"⟩, owner := ⟨0⟩, isStatic := true,
      body := some { stmts := [⟨1⟩] } }]⟩
  fields := ⟨#[{ name := "item", owner := ⟨0⟩, isStatic := false }]⟩
  vars := ⟨#[{ name := "x", method := ⟨0⟩ }, { name := "y", method := ⟨1⟩ }]⟩
  stmts := ⟨#[{ stmt := .alloc ⟨0⟩ (.cls ⟨0⟩), method := ⟨0⟩ }, { stmt, method := ⟨1⟩ }]⟩
  dereferences := ⟨#[{}, {}]⟩
  entry := ⟨0⟩
  root := none

/-- An access to the field `item` as if it were static, which ends a run with an error. -/
def strayStore : Stmt := .store none ⟨⟨0⟩, "item"⟩ ⟨1⟩

theorem idleProgram_built :
    (idleProgram .nop).Built ∧ (idleProgram strayStore).Built :=
  ⟨⟨idleSteps .nop, by decide +kernel⟩, ⟨idleSteps strayStore, by decide +kernel⟩⟩

theorem idleProgram_agreesOn (stmt stmt' : Stmt) (hR : ¬ R ⟨1⟩) :
    (idleProgram stmt).AgreesOn (idleProgram stmt') R where
  declarations := rfl
  vars := rfl
  owners s := match s with
    | ⟨0⟩ => rfl
    | ⟨1⟩ => rfl
    | ⟨_ + 2⟩ => rfl
  stmts s m howner hm := match s with
    | ⟨0⟩ => rfl
    | ⟨1⟩ => by
      obtain rfl : (⟨1⟩ : MethodId) = m := Except.ok.inj howner
      exact absurd hm hR
    | ⟨_ + 2⟩ => rfl

/-- A run gives the same output whether or not the method that is never called has a mistake. -/
theorem idleProgram_solve :
    (idleProgram .nop).Built ∧ (idleProgram strayStore).Built ∧
      ∃ out, solve (idleProgram .nop) .insensitive .fifo none = .ok out ∧
        solve (idleProgram strayStore) .insensitive .fifo none = .ok out := by
  obtain ⟨hp, hp'⟩ := idleProgram_built
  have hfound : ((solve (idleProgram .nop) .insensitive .fifo none).map fun out =>
      out.world.methods).toOption = some ⟨#[⟨.empty, ⟨0⟩⟩]⟩ := by
    decide +kernel
  obtain ⟨out, h, hmethods⟩ := Outcome.exists_of_toOption_map hfound
  refine ⟨hp, hp', out, h, solve_eq_of_agreesOn hp hp' h (idleProgram_agreesOn _ _ ?_)⟩
  -- only the entry can run
  rintro ⟨c, x, -, hx⟩
  rw [hmethods] at hx
  match x with
  | ⟨0⟩ => cases hx
  | ⟨_ + 1⟩ => cases hx

end PointerAnalysis.Solver
