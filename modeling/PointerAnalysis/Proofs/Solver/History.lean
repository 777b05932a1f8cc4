import PointerAnalysis.Proofs.Solver.Accounting

/-!
# Histories of runs

The work list holds what is on its way, but not why it was sent, and what is taken off it is
forgotten.  Here every rule of the analysis is written once more, with a record of what it does: which
statements it translates, and what it sends for which cause.  The record is on the side, so that
without it the rules are the ones that run.

## Main definitions

- `Cause`: why objects are sent to a location.
- `Recorded`: a computation of a run together with the events it records.
- `stepLog`, `history`: the events of one step, and of a number of them.

## Main statements

- `Recorded.run_visitMethod`, `Recorded.run_process`: without the record, the rules are those of the
  analysis.
- `history_keeps`: what each step keeps, of the state and of the events so far, a run keeps.
-/

namespace PointerAnalysis.Solver

/-! ## Events -/

/-- Why objects are sent to a location. -/
inductive Cause where
  /-- The visit of a method has come to an allocation. -/
  | allocation (method : QMethodId) (site : StmtId)
  /-- A call in a method under a context is made on an object, which becomes the `this` of the
  callee. -/
  | receiver (context : ContextId) (site : StmtId) (obj : QObjId)
  /-- An edge of the flow graph leads here from the source. -/
  | edge (source : PointerId)
deriving DecidableEq, Repr

/-- What is recorded of a run. -/
inductive Event where
  /-- A statement takes effect in the visit of a method. -/
  | translated (method : QMethodId) (site : StmtId)
  /-- A delivery is put on the work list. -/
  | sent (cause : Cause) (d : Delivery)
  /-- A delivery is taken off the work list. -/
  | taken (d : Delivery)
deriving DecidableEq, Repr

/-- A computation of a run, and the events it records when it is begun in a state. -/
structure Recorded (α : Type) where
  run : SolverM α
  log : State → List Event

namespace Recorded

variable {α β : Type}

/-! ## Recording -/

/-- Runs one computation after another.  Nothing is recorded after an error. -/
protected def bind (x : Recorded α) (f : α → Recorded β) : Recorded β where
  run := x.run >>= fun a => (f a).run
  log s := x.log s ++
    match x.run s with
    | .ok (a, s') => (f a).log s'
    | .error _ => []

instance : Monad Recorded where
  pure a := ⟨pure a, fun _ => []⟩
  bind := Recorded.bind

/-- A computation of which nothing is recorded. -/
def silent (x : SolverM α) : Recorded α := ⟨x, fun _ => []⟩

instance : MonadLift SolverM Recorded := ⟨silent⟩

/-- Records that a statement takes effect. -/
def translate (m : QMethodId) (i : StmtId) : Recorded Unit :=
  ⟨pure (), fun _ => [.translated m i]⟩

/-- Sends objects to a pointer, for a cause. -/
def send (cause : Cause) (target : PointerId) (objs : PointsTo) : Recorded Unit :=
  ⟨deliver target objs, fun _ => [.sent cause ⟨target, objs⟩]⟩

section Run

/-- Each way to put computations together comes out the same once the record is left out; the first
is `pure`. -/
@[simp] theorem run_pure (a : α) : (pure a : Recorded α).run = pure a := rfl

@[simp] theorem run_bind (x : Recorded α) (f : α → Recorded β) :
    (x >>= f).run = x.run >>= fun a => (f a).run := rfl

@[simp] theorem run_silent (x : SolverM α) : (silent x).run = x := rfl

/-- A computation that is lifted into the recorded ones runs as it is. -/
@[simp] theorem run_liftM (x : SolverM α) : (liftM x : Recorded α).run = x := rfl

@[simp] theorem run_lift (x : Outcome α) : (liftM x : Recorded α).run = liftM x := rfl

@[simp] theorem run_translate (m : QMethodId) (i : StmtId) : (translate m i).run = pure () := rfl

/-- To send for a cause is to deliver. -/
@[simp] theorem run_send (cause : Cause) (target : PointerId) (objs : PointsTo) :
    (send cause target objs).run = deliver target objs := rfl

@[simp] theorem run_ite (c : Prop) [Decidable c] (x y : Recorded α) :
    (if c then x else y).run = if c then x.run else y.run := apply_ite run c x y

/-- A loop without the record is the loop of the computations without theirs. -/
@[simp] theorem run_forM (xs : List α) (f : α → Recorded Unit) :
    (forM xs f).run = forM xs fun a => (f a).run := by
  induction xs with
  | nil => rfl
  | cons a xs ih =>
    rw [List.forM_cons, List.forM_cons, run_bind]
    exact congrArg _ (funext fun _ => ih)

/-- What is recorded by one computation after another; the second begins in the state in which the
first ends. -/
theorem log_bind (x : Recorded α) (f : α → Recorded β) (s : State) :
    (x >>= f).log s = x.log s ++
      match x.run s with
      | .ok (a, s') => (f a).log s'
      | .error _ => [] := rfl

theorem log_bind_of_ok {x : Recorded α} {f : α → Recorded β} {s s' : State} {a : α}
    (h : x.run s = .ok (a, s')) : (x >>= f).log s = x.log s ++ (f a).log s' := by
  rw [log_bind, h]

/-- What comes after a computation of which nothing is recorded. -/
theorem log_silent_bind {x : SolverM α} {f : α → Recorded β} {s s' : State} {a : α}
    (h : x s = .ok (a, s')) : (liftM x >>= f).log s = (f a).log s' := log_bind_of_ok h

end Run

/-! ## Flow -/

/-- `Solver.addFlow`, recorded. -/
def addFlow (source target : PointerId) : Recorded Unit := do
  let s ← silent get
  let (fresh, flow) := s.flow.addEdge source target
  silent (set { s with flow })
  if fresh then
    let objs ← s.world.setOf source
    if !objs.isEmpty then
      send (.edge source) target objs

/-- `Solver.flowBetween`, recorded. -/
def flowBetween (source target : Pointer) : Recorded Unit := do
  let source ← internPointer source
  let target ← internPointer target
  addFlow source target

/-- `Solver.absorb`, recorded. -/
def absorb (target : PointerId) (objs : PointsTo) : Recorded PointsTo := do
  let s ← silent get
  let (fresh, world) ← s.world.absorb target objs
  silent (set { s with world })
  if !fresh.isEmpty then
    (s.flow.successorsOf target).forM fun next => send (.edge target) next fresh
  return fresh

/-! ## Calls -/

/-- `Solver.wire`, recorded. -/
def wire (p : Program) (call : Invoke) (site : Qualified StmtId) (callee : Qualified MethodId) :
    Recorded Unit := do
  if let some body := (← p.methodAt callee.entity).body then
    if call.args.length ≠ body.params.length then
      let signature ← p.methodSignature callee.entity
      silent (throw (.error (.arityMismatch signature call.args.length body.params.length)))
    (call.args.zip body.params).forM fun (arg, param) =>
      flowBetween (.var site.context arg) (.var callee.context param)
    if let some result := call.result then
      let target ← internPointer (.var site.context result)
      body.returned.forM fun v => do
        let source ← internPointer (.var callee.context v)
        addFlow source target

/-- `Solver.connect`, recorded. -/
def connect (p : Program) (call : Invoke) (site : Qualified StmtId)
    (callee : Qualified MethodId) : Recorded Unit := do
  let calleeId ← internMethod callee
  let siteId ← internSite site
  if ← addCall ⟨call.kind, siteId, calleeId⟩ then
    reach calleeId
    wire p call site callee

/-- `Solver.callStatically`, recorded. -/
def callStatically (p : Program) (σ : Sensitivity) (c : ContextId) (s : StmtId) (call : Invoke) :
    Recorded Unit := do
  if let some m ← targetOf p call none then
    if !(← p.methodAt m).isStatic then
      silent (throw (.error (.malformed (.staticCallOfInstance s (← p.methodSignature m)))))
    let calleeContext ← chooseContext (σ.staticContext · ⟨c, s⟩)
    connect p call ⟨c, s⟩ ⟨calleeContext, m⟩

/-- `Solver.callOn`, recorded. -/
def callOn (p : Program) (σ : Sensitivity) (c : ContextId) (receiver : QObjId)
    (q : Qualified ObjId) (s : StmtId) (call : Invoke) : Recorded Unit := do
  let obj ← (← silent get).heap.objAt q.entity
  if let some m ← targetOf p call (some obj.type) then
    let decl ← p.methodAt m
    if decl.isStatic then
      silent (throw
        (.error (.malformed (.instanceCallOfStatic call.kind s (← p.methodSignature m)))))
    let calleeContext ← chooseContext (σ.instanceContext · ⟨c, s⟩ q obj.containerClass)
    if let some self := decl.body.bind Body.self then
      let target ← internPointer (.var calleeContext self)
      send (.receiver c s receiver) target (.singleton receiver)
    connect p call ⟨c, s⟩ ⟨calleeContext, m⟩

/-! ## Methods -/

/-- `Solver.visitStmt` for a statement of the method `m`, recorded. -/
def visitStmt (p : Program) (σ : Sensitivity) (m : QMethodId) (c : ContextId) (s : StmtId) :
    Stmt → Recorded Unit
  | .alloc lhs _ => do
    let o ← objFor p s
    let heapContext ← chooseContext (σ.heapContext · c)
    let q ← internObj ⟨heapContext, o⟩
    let target ← internPointer (.var c lhs)
    send (.allocation m s) target (.singleton q)
  | .copy lhs rhs => flowBetween (.var c rhs) (.var c lhs)
  | .load lhs none field => do
    let f ← resolveFieldAs p true field
    flowBetween (.staticField f) (.var c lhs)
  | .store none field rhs => do
    let f ← resolveFieldAs p true field
    flowBetween (.var c rhs) (.staticField f)
  | .invoke call => if call.kind = .static then callStatically p σ c s call else pure ()
  | .load _ (some _) _ | .store (some _) _ _ | .loadArray _ _ | .storeArray _ _ | .ret _ | .nop =>
    pure ()

/-- `Solver.visitMethod`, recorded. -/
def visitMethod (p : Program) (σ : Sensitivity) (m : QMethodId) : Recorded Unit := do
  let q ← (← silent get).world.methodAt m
  if let some body := (← p.methodAt q.entity).body then
    body.stmts.forM fun s => do
      let stmt ← p.stmtAt s
      translate m s
      visitStmt p σ m q.context s stmt

/-! ## Dereferences -/

/-- `Solver.dereferenceStmt`, recorded. -/
def dereferenceStmt (p : Program) (σ : Sensitivity) (c : ContextId) (obj : QObjId)
    (q : Qualified ObjId) (s : StmtId) : Stmt → Recorded Unit
  | .store _ field rhs => do
    let f ← resolveFieldAs p false field
    flowBetween (.var c rhs) (.instanceField obj f)
  | .load lhs _ field => do
    let f ← resolveFieldAs p false field
    flowBetween (.instanceField obj f) (.var c lhs)
  | .storeArray _ rhs => flowBetween (.var c rhs) (.arrayElems obj)
  | .loadArray lhs _ => flowBetween (.arrayElems obj) (.var c lhs)
  | .invoke call => callOn p σ c obj q s call
  | .alloc _ _ | .copy _ _ | .ret _ | .nop => pure ()

/-- `Solver.dereference`, recorded. -/
def dereference (p : Program) (σ : Sensitivity) (c : ContextId) (v : VarId) (obj : QObjId) :
    Recorded Unit := do
  let uses ← p.dereferencesOf v
  let q ← (← silent get).world.objAt obj
  (uses.fieldStores ++ uses.fieldLoads ++ uses.arrayStores ++ uses.arrayLoads ++ uses.calls).forM
    fun s => do dereferenceStmt p σ c obj q s (← p.stmtAt s)

/-- `Solver.followUp`, recorded. -/
def followUp (p : Program) (σ : Sensitivity) (target : PointerId) (fresh : PointsTo) :
    Recorded Unit := do
  if !fresh.isEmpty then
    if let .var c v ← (← silent get).world.pointerAt target then
      fresh.toList.forM (dereference p σ c v)

/-- `Solver.process`, recorded. -/
def process (p : Program) (σ : Sensitivity) (d : Delivery) : Recorded Unit := do
  let fresh ← absorb d.target d.objs
  followUp p σ d.target fresh

/-! ## Without the record -/

section Run

variable (p : Program) (σ : Sensitivity)

/-- Computations that agree without the record, followed by such as agree. -/
theorem run_bind_eq {x : Recorded α} {y : SolverM α} {f : α → Recorded β} {g : α → SolverM β}
    (hx : x.run = y) (hf : ∀ a, (f a).run = g a) : (x >>= f).run = y >>= g := by
  rw [run_bind, hx, funext hf]

/-- Without the record, an edge is added as `Solver.addFlow` adds it. -/
@[simp] theorem run_addFlow (source target : PointerId) :
    (addFlow source target).run = Solver.addFlow source target := by
  unfold addFlow Solver.addFlow
  simp

@[simp] theorem run_flowBetween (source target : Pointer) :
    (flowBetween source target).run = Solver.flowBetween source target := by
  unfold flowBetween Solver.flowBetween
  simp

/-- Without the record, objects arrive as in `Solver.absorb`. -/
@[simp] theorem run_absorb (target : PointerId) (objs : PointsTo) :
    (absorb target objs).run = Solver.absorb target objs := by
  unfold absorb Solver.absorb
  simp

/-- Without the record, a call is wired as by `Solver.wire`. -/
@[simp] theorem run_wire (call : Invoke) (site : Qualified StmtId) (callee : Qualified MethodId) :
    (wire p call site callee).run = Solver.wire p call site callee := by
  apply run_bind_eq rfl
  intro decl
  cases decl.body with
  | none => rfl
  | some body =>
    dsimp only
    cases call.result with
    | none => simp
    | some result => simp

@[simp] theorem run_connect (call : Invoke) (site : Qualified StmtId)
    (callee : Qualified MethodId) :
    (connect p call site callee).run = Solver.connect p call site callee := by
  unfold connect Solver.connect
  simp

@[simp] theorem run_callStatically (c : ContextId) (s : StmtId) (call : Invoke) :
    (callStatically p σ c s call).run = Solver.callStatically p σ c s call := by
  apply run_bind_eq rfl
  intro target
  cases target with
  | none => rfl
  | some m => simp

/-- Without the record, a call on an object is `Solver.callOn`. -/
@[simp] theorem run_callOn (c : ContextId) (receiver : QObjId) (q : Qualified ObjId) (s : StmtId)
    (call : Invoke) :
    (callOn p σ c receiver q s call).run = Solver.callOn p σ c receiver q s call := by
  refine run_bind_eq rfl fun s' => run_bind_eq rfl fun obj => run_bind_eq rfl fun target => ?_
  cases target with
  | none => rfl
  | some m =>
    apply run_bind_eq rfl
    intro decl
    cases decl.body.bind Body.self with
    | none => simp
    | some self => simp

@[simp] theorem run_visitStmt (m : QMethodId) (c : ContextId) (s : StmtId) (stmt : Stmt) :
    (visitStmt p σ m c s stmt).run = Solver.visitStmt p σ c s stmt := by
  unfold visitStmt Solver.visitStmt
  split <;> simp

/-- Without the record, a visit is `Solver.visitMethod`. -/
@[simp] theorem run_visitMethod (m : QMethodId) :
    (visitMethod p σ m).run = Solver.visitMethod p σ m := by
  refine run_bind_eq rfl fun s => run_bind_eq rfl fun q => run_bind_eq rfl fun decl => ?_
  cases decl.body with
  | none => rfl
  | some body => simp

@[simp] theorem run_dereferenceStmt (c : ContextId) (obj : QObjId) (q : Qualified ObjId)
    (s : StmtId) (stmt : Stmt) :
    (dereferenceStmt p σ c obj q s stmt).run = Solver.dereferenceStmt p σ c obj q s stmt := by
  unfold dereferenceStmt Solver.dereferenceStmt
  split <;> simp

/-- Without the record, an object that is new at a variable is followed as by `Solver.dereference`.
-/
@[simp] theorem run_dereference (c : ContextId) (v : VarId) (obj : QObjId) :
    (dereference p σ c v obj).run = Solver.dereference p σ c v obj := by
  unfold dereference Solver.dereference
  simp

theorem run_followUp (target : PointerId) (fresh : PointsTo) :
    (followUp p σ target fresh).run = Solver.followUp p σ target fresh := by
  unfold followUp Solver.followUp
  rw [run_ite]
  refine if_congr Iff.rfl ?_ rfl
  refine run_bind_eq rfl fun s => run_bind_eq rfl fun key => ?_
  cases key with
  | var c v => simp
  | staticField f => rfl
  | instanceField base f => rfl
  | arrayElems base => rfl

/-- Without the record, a delivery is processed as by `Solver.process`. -/
theorem run_process (d : Delivery) : (process p σ d).run = Solver.process p σ d := by
  refine run_bind_eq (run_absorb ..) fun fresh => ?_
  exact run_followUp p σ d.target fresh

end Run

/-! ## Rules -/

/-- What a computation keeps of the state and of the events so far, whenever it ends without an
error. -/
def Keeps (I : State → List Event → Prop) (x : Recorded α) : Prop :=
  ∀ s H a s', I s H → x.run s = .ok (a, s') → I s' (H ++ x.log s)

namespace Keeps

variable {I : State → List Event → Prop}

/-- A computation that does nothing records nothing. -/
theorem pure (a : α) : Keeps I (Pure.pure a) := by
  intro s H b s' hI h
  cases h
  exact (List.append_nil H).symm ▸ hI

/-- What two computations keep, they keep one after the other: the events of the second come after
those of the first. -/
theorem bind {x : Recorded α} {f : α → Recorded β} (hx : Keeps I x) (hf : ∀ a, Keeps I (f a)) :
    Keeps I (x >>= f) := by
  intro s H b s'' hI h
  rw [log_bind]
  cases hrun : x.run s with
  | ok r =>
    obtain ⟨a, s'⟩ := r
    rw [run_bind, bind_run hrun] at h
    have hI' := hf a s' _ b s'' (hx s H a s' hI hrun) h
    rwa [List.append_assoc] at hI'
  | error e =>
    rw [run_bind, bind_run_error hrun] at h
    cases h

/-- A computation of which nothing is recorded has to keep what concerns the state. -/
theorem silent {x : SolverM α} (h : ∀ s H a s', I s H → x s = .ok (a, s') → I s' H) :
    Keeps I (liftM x) := by
  intro s H a s' hI hrun
  exact (List.append_nil H).symm ▸ h s H a s' hI hrun

theorem lift (x : Outcome α) : Keeps I (liftM x) := by
  apply silent
  intro s H a s' hI h
  cases x with
  | ok b => cases h; exact hI
  | error e => cases h

/-- To look at the state records nothing and changes nothing. -/
theorem get : Keeps I (Recorded.silent MonadState.get) := by
  apply silent
  intro s H a s' hI h
  cases h
  exact hI

/-- Nothing follows an error. -/
theorem throw_bind (e : Halt) (f : α → Recorded β) :
    Keeps I (Recorded.silent (MonadExcept.throw e) >>= f) := by
  intro s H a s' _ h
  cases h

/-- What each turn of a loop keeps, the loop keeps. -/
theorem forM {xs : List α} {f : α → Recorded Unit} (h : ∀ a ∈ xs, Keeps I (f a)) :
    Keeps I (xs.forM f) := by
  induction xs with
  | nil => exact pure ()
  | cons a xs ih =>
    rw [List.forM_eq_forM] at ih ⊢
    rw [List.forM_cons]
    exact (h a (List.mem_cons_self ..)).bind fun _ => ih fun b hb => h b (List.mem_cons_of_mem _ hb)

end Keeps

end Recorded

/-! ## Runs -/

section Runs

variable (p : Program) (σ : Sensitivity) (budget : Option Nat)

/-- The events of one step. -/
def stepLog (s : State) : List Event :=
  match s.calls.reachable[s.visited]? with
  | some m => (Recorded.visitMethod p σ m).log { s with visited := s.visited + 1 }
  | none =>
    match s.workList.pop? with
    | none => []
    | some (d, workList) =>
      if budget.any (· ≤ s.processed) then []
      else
        .taken d ::
          (Recorded.process p σ d).log { s with workList, processed := s.processed + 1 }

/-- The events of `n` steps, or of fewer if the run is over before. -/
def history : Nat → State → List Event
  | 0, _ => []
  | n + 1, s => stepLog p σ budget s ++
    match step p σ budget s with
    | .ok (.running s') => history n s'
    | .ok (.finished _ _) | .error _ => []

variable {p σ budget}

/-- A step that does not end the run is a visit or the processing of a delivery, and so are its
events. -/
theorem stepLog_cases {s s' : State} (h : step p σ budget s = .ok (.running s')) :
    (∃ m, s.calls.reachable[s.visited]? = some m ∧
      visitMethod p σ m { s with visited := s.visited + 1 } = .ok ((), s') ∧
      stepLog p σ budget s =
        (Recorded.visitMethod p σ m).log { s with visited := s.visited + 1 }) ∨
    ∃ d w, s.workList.pop? = some (d, w) ∧
      process p σ d { s with workList := w, processed := s.processed + 1 } = .ok ((), s') ∧
      stepLog p σ budget s = .taken d ::
        (Recorded.process p σ d).log { s with workList := w, processed := s.processed + 1 } := by
  rcases step_cases p σ budget s with ⟨m, hm, e⟩ | ⟨-, -, e⟩ | ⟨-, -, e⟩ | ⟨hall, hb, d, w, hpop, e⟩
  · -- a method is left to visit
    obtain ⟨s₁, hrun, hs₁⟩ := eq_running_of_map (e.symm.trans h)
    obtain rfl := Progress.running.inj hs₁
    refine Or.inl ⟨m, hm, hrun, ?_⟩
    rw [stepLog, hm]
  · cases e.symm.trans h
  · cases e.symm.trans h
  · -- a delivery is taken, which the budget allows
    obtain ⟨s₁, hrun, hs₁⟩ := eq_running_of_map (e.symm.trans h)
    obtain rfl := Progress.running.inj hs₁
    refine Or.inr ⟨d, w, hpop, hrun, ?_⟩
    have hnone : budget.any (· ≤ s.processed) = false := by
      cases budget with
      | none => rfl
      | some b => simpa using hb b rfl
    rw [stepLog, List.getElem?_eq_none hall, hpop]
    simp [hnone]

/-- A step that ends a run records nothing and leaves the state as it is. -/
theorem stepLog_finished {s s' : State} {completed : Bool}
    (h : step p σ budget s = .ok (.finished s' completed)) : s' = s ∧ stepLog p σ budget s = [] := by
  rcases step_cases p σ budget s with ⟨m, -, e⟩ | ⟨hall, hpop, e⟩ | ⟨hall, ⟨b, rfl, hb⟩, e⟩ |
    ⟨-, -, d, w, -, e⟩
  · obtain ⟨s₁, -, hs₁⟩ := eq_running_of_map (e.symm.trans h)
    cases hs₁
  · -- nothing is left to do
    cases e.symm.trans h
    rw [stepLog, List.getElem?_eq_none hall, hpop]
    exact ⟨rfl, rfl⟩
  · -- the budget is spent, and the delivery that was looked at stays on the work list
    cases e.symm.trans h
    rw [stepLog, List.getElem?_eq_none hall]
    refine ⟨rfl, ?_⟩
    cases s.workList.pop? with
    | none => rfl
    | some r => simp [hb]
  · obtain ⟨s₁, -, hs₁⟩ := eq_running_of_map (e.symm.trans h)
    cases hs₁

/-- What each step keeps, of the state and of the events so far, a run keeps. -/
theorem history_keeps {I : State → List Event → Prop}
    (hstep : ∀ s H s', I s H → step p σ budget s = .ok (.running s') →
      I s' (H ++ stepLog p σ budget s))
    {n : Nat} {s : State} {H : List Event} {r : Progress} (hI : I s H)
    (h : steps p σ budget n s = .ok r) : I r.state (H ++ history p σ budget n s) := by
  -- the state and the events so far vary from step to step, so the induction is for all of them
  induction n generalizing s H with
  | zero =>
    obtain rfl := Except.ok.inj h
    exact (List.append_nil H).symm ▸ hI
  | succ n ih =>
    obtain ⟨r₁, hr₁, h⟩ := Outcome.bind_eq_ok.1 h
    rw [history, hr₁]
    cases r₁ with
    | running s₁ =>
      have hI' := ih (hstep s H s₁ hI hr₁) h
      rwa [List.append_assoc] at hI'
    | finished s₁ completed =>
      -- the steps that are left are not taken
      obtain rfl := Except.ok.inj h
      obtain ⟨rfl, hnil⟩ := stepLog_finished hr₁
      rw [hnil, List.append_nil, List.append_nil]
      exact hI

end Runs

end PointerAnalysis.Solver
