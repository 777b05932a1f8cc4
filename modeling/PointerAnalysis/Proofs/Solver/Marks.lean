import PointerAnalysis.Proofs.Program.Coherent
import PointerAnalysis.Proofs.Solver.History

/-!
# What visits and dereferences leave in a history

A visit translates the statements of its method one after the other and allocates at some of them;
what follows a variable binds an object to the `this` of callees.  These are marks in the history of
a run.  The edges of the flow graph leave none, so the marks of a computation can be read off the
program.

## Main definitions

- `Mark`, `marks`: the events that are not due to an edge.
- `Recorded.Leaves`: a computation leaves no marks but those of a list.
- `Recorded.Translates`: a computation translates the statements of a list.

## Main statements

- `Recorded.leaves_visitMethod`, `Recorded.leaves_process`: the marks of both sorts of step.
- `Recorded.translates_visitMethod`: a visit translates the statements of its method.
-/

namespace PointerAnalysis

/-! ## Statements of a program -/

namespace Program

/-- Whether a statement is an allocation. -/
def isAllocation (p : Program) (i : StmtId) : Bool :=
  match p.stmtAt i with
  | .ok (.alloc _ _) => true
  | .ok _ | .error _ => false

/-- The statements of a method. -/
def statementsOf (p : Program) (m : MethodId) : List StmtId :=
  match p.methodAt m with
  | .ok decl => decl.body.elim [] Body.stmts
  | .error _ => []

variable {p : Program} {v : VarId} {i : StmtId}

/-- The calls on a variable are listed for it. -/
theorem mem_calls_usesOf :
    i ∈ (p.usesOf v).calls ↔ ∃ call, p.stmtAt i = .ok (.invoke call) ∧ call.receiver = some v := by
  refine ((p.lists_statementsOn Stmt.receiver? v).mem_iff i).trans ⟨?_, ?_⟩
  · rintro ⟨stmt, hs, hr⟩
    obtain ⟨call, rfl, hr⟩ := Stmt.receiver?_eq_some.1 hr
    exact ⟨call, hs, hr⟩
  · rintro ⟨call, hs, hr⟩
    exact ⟨.invoke call, hs, hr⟩

/-- A call on a variable is listed for it once. -/
theorem nodup_calls_usesOf : (p.usesOf v).calls.Nodup := by
  apply (p.lists_statementsOn Stmt.receiver? v).ascending.imp
  intro i j h e
  exact irrefl j (e ▸ h)

/-- Taking up the calls among the statements that follow a variable. -/
theorem flatMap_all_usesOf {β : Type} (f : StmtId → β) :
    (p.usesOf v).all.flatMap (fun i => if i ∈ (p.usesOf v).calls then [f i] else []) =
      (p.usesOf v).calls.map f := by
  -- no other statement is a call
  have hother : ∀ (xs : List StmtId) {test : Stmt → Option VarId}, p.Lists xs (test · = some v) →
      (∀ stmt, test stmt = some v → stmt.receiver? = none) →
      xs.flatMap (fun i => if i ∈ (p.usesOf v).calls then [f i] else []) = [] := by
    intro xs test hxs htest
    refine List.flatMap_eq_nil_iff.2 fun i hi => if_neg fun hcall => ?_
    obtain ⟨stmt, hs, ht⟩ := (hxs.mem_iff i).1 hi
    obtain ⟨stmt', hs', hr⟩ := ((p.lists_statementsOn Stmt.receiver? v).mem_iff i).1 hcall
    obtain rfl := Except.ok.inj (hs.symm.trans hs')
    rw [htest stmt ht] at hr
    cases hr
  have hstores := hother (p.usesOf v).fieldStores (p.lists_statementsOn Stmt.storeBase? v)
    fun stmt => by cases stmt <;> simp [Stmt.storeBase?, Stmt.receiver?]
  have hloads := hother (p.usesOf v).fieldLoads (p.lists_statementsOn Stmt.loadBase? v)
    fun stmt => by cases stmt <;> simp [Stmt.loadBase?, Stmt.receiver?]
  have harrayStores := hother (p.usesOf v).arrayStores (p.lists_statementsOn Stmt.storeArrayBase? v)
    fun stmt => by cases stmt <;> simp [Stmt.storeArrayBase?, Stmt.receiver?]
  have harrayLoads := hother (p.usesOf v).arrayLoads (p.lists_statementsOn Stmt.loadArrayBase? v)
    fun stmt => by cases stmt <;> simp [Stmt.loadArrayBase?, Stmt.receiver?]
  have hcalls : (p.usesOf v).calls.flatMap
      (fun i => if i ∈ (p.usesOf v).calls then [f i] else []) = (p.usesOf v).calls.map f := by
    rw [List.flatMap_congr fun i hi => if_pos hi, List.map_eq_flatMap]
  simp only [Dereferences.all, List.flatMap_append, hstores, hloads, harrayStores, harrayLoads,
    hcalls, List.nil_append]

end Program

namespace Solver

/-! ## Marks -/

/-- An event that is not due to an edge of the flow graph. -/
inductive Mark where
  /-- A statement has been translated in the visit of a method. -/
  | translated (method : QMethodId) (site : StmtId)
  /-- A visit has sent an object from its allocation. -/
  | allocated (method : QMethodId) (site : StmtId)
  /-- An object has been sent to the `this` of a callee. -/
  | bound (context : ContextId) (site : StmtId) (obj : QObjId)
deriving DecidableEq, Repr

/-- The mark of an event, unless the event is due to an edge or is an arrival. -/
def Event.mark? : Event → Option Mark
  | .translated m i => some (.translated m i)
  | .sent (.allocation m i) _ => some (.allocated m i)
  | .sent (.receiver c i q) _ => some (.bound c i q)
  | .sent (.edge _) _ | .taken _ => none

/-- The marks in a history. -/
def marks (H : List Event) : List Mark := H.filterMap Event.mark?

@[simp] theorem marks_append (H H' : List Event) : marks (H ++ H') = marks H ++ marks H' :=
  List.filterMap_append

@[simp] theorem marks_taken (d : Delivery) (H : List Event) : marks (.taken d :: H) = marks H := rfl

/-- The translation that a mark is left by. -/
def Mark.translation? : Mark → Option (QMethodId × StmtId)
  | .translated m i => some (m, i)
  | .allocated _ _ | .bound _ _ _ => none

/-- The allocation that a mark is left by. -/
def Mark.allocation? : Mark → Option (QMethodId × StmtId)
  | .allocated m i => some (m, i)
  | .translated _ _ | .bound _ _ _ => none

/-- The binding that a mark is left by. -/
def Mark.binding? : Mark → Option (ContextId × StmtId × QObjId)
  | .bound c i q => some (c, i, q)
  | .translated _ _ | .allocated _ _ => none

/-- What has been translated, in which visits. -/
def translations (H : List Event) : List (QMethodId × StmtId) :=
  (marks H).filterMap Mark.translation?

/-- The allocations that have sent an object, in which visits. -/
def allocations (H : List Event) : List (QMethodId × StmtId) :=
  (marks H).filterMap Mark.allocation?

/-- The objects that have been sent to the `this` of a callee, under which context and from which
call site. -/
def bindings (H : List Event) : List (ContextId × StmtId × QObjId) :=
  (marks H).filterMap Mark.binding?

@[simp] theorem translations_append (H H' : List Event) :
    translations (H ++ H') = translations H ++ translations H' := by simp [translations]

@[simp] theorem allocations_append (H H' : List Event) :
    allocations (H ++ H') = allocations H ++ allocations H' := by simp [allocations]

@[simp] theorem bindings_append (H H' : List Event) :
    bindings (H ++ H') = bindings H ++ bindings H' := by simp [bindings]

namespace Recorded

/-- Begun in `s`, the computation leaves no marks but those in `L`, in this order. -/
def Leaves (L : List Mark) {α : Type} (x : Recorded α) (s : State) : Prop :=
  (marks (x.log s)).Sublist L

namespace Leaves

variable {α β : Type} {L L' : List Mark} {s : State} {x : Recorded α} {f : α → Recorded β}

/-- A list with more marks in it allows more. -/
theorem mono (h : Leaves L x s) (hL : L.Sublist L') : Leaves L' x s := List.Sublist.trans h hL

/-- A computation that does nothing leaves no marks. -/
theorem pure (a : α) : Leaves L (Pure.pure a) s := List.nil_sublist L

/-- A computation of which nothing is recorded leaves no marks. -/
theorem silent (x : SolverM α) : Leaves L (liftM x) s := List.nil_sublist L

/-- Marks are left one after the other; none are left after an error. -/
theorem bind (hx : Leaves L x s)
    (hf : ∀ a s', x.run s = .ok (a, s') → Leaves L' (f a) s') : Leaves (L ++ L') (x >>= f) s := by
  unfold Leaves
  rw [log_bind, marks_append]
  refine List.Sublist.append hx ?_
  cases hrun : x.run s with
  | ok r => exact hf r.1 r.2 hrun
  | error e => exact List.nil_sublist L'

/-- What comes first leaves nothing. -/
theorem after (hx : Leaves [] x s)
    (hf : ∀ a s', x.run s = .ok (a, s') → Leaves L (f a) s') : Leaves L (x >>= f) s := hx.bind hf

theorem silent_bind {x : SolverM α} (hf : ∀ a s', Leaves L (f a) s') :
    Leaves L (liftM x >>= f) s :=
  (silent x).after fun a s' _ => hf a s'

/-- To look at the state leaves no marks. -/
theorem get_bind {f : State → Recorded β} (hf : Leaves L (f s) s) :
    Leaves L (Recorded.silent get >>= f) s := by
  refine (silent get).after fun a s' h => ?_
  cases h
  exact hf

/-- An answer is handed on. -/
theorem lift_bind {x : Outcome α} (hf : ∀ a, x = .ok a → Leaves L (f a) s) :
    Leaves L (liftM x >>= f) s := by
  refine (silent (liftM x)).after fun a s' h => ?_
  cases x with
  | ok b =>
    cases h
    exact hf a rfl
  | error e => cases h

/-- Nothing follows an error. -/
theorem throw_bind (e : Halt) : Leaves L (Recorded.silent (MonadExcept.throw e) >>= f) s :=
  (silent (MonadExcept.throw e)).after fun a s' h => by cases h

/-- A loop leaves the marks of its turns, in their order. -/
theorem forM {xs : List α} {f : α → Recorded Unit} {g : α → List Mark}
    (h : ∀ a ∈ xs, ∀ s, Leaves (g a) (f a) s) : Leaves (xs.flatMap g) (xs.forM f) s := by
  induction xs generalizing s with
  | nil => exact pure ()
  | cons a xs ih =>
    rw [List.forM_eq_forM] at ih ⊢
    rw [List.forM_cons, List.flatMap_cons]
    exact (h a (List.mem_cons_self ..) s).bind fun _ s' _ =>
      ih fun b hb => h b (List.mem_cons_of_mem _ hb)

theorem forM_nil {xs : List α} {f : α → Recorded Unit} (h : ∀ a ∈ xs, ∀ s, Leaves [] (f a) s) :
    Leaves [] (xs.forM f) s :=
  (forM h).mono (by simp)

end Leaves

/-! ## Flow and calls -/

section Flow

variable {p : Program} {σ : Sensitivity} {s : State}

/-- An edge leaves no mark. -/
theorem leaves_addFlow (a b : PointerId) : Leaves [] (addFlow a b) s := by
  refine .silent_bind fun s₀ s₁ => .silent_bind fun _ s₂ => ?_
  dsimp only
  split
  · refine .silent_bind fun objs s₃ => ?_
    split
    · exact List.nil_sublist []
    · exact .pure ()
  · exact .pure ()

/-- To connect two locations leaves no mark. -/
theorem leaves_flowBetween (source target : Pointer) : Leaves [] (flowBetween source target) s :=
  .silent_bind fun a _ => .silent_bind fun b _ => leaves_addFlow a b

/-- Objects that arrive are sent on along edges, which leaves no mark. -/
theorem leaves_absorb (target : PointerId) (objs : PointsTo) : Leaves [] (absorb target objs) s := by
  refine .silent_bind fun s₀ s₁ => .silent_bind fun r s₂ => .silent_bind fun _ s₃ => ?_
  dsimp only
  split
  · refine Leaves.after (.forM_nil fun t _ s => ?_) fun _ _ _ => .pure _
    exact List.nil_sublist []
  · exact .pure _

/-- A call is wired by edges alone. -/
theorem leaves_wire (call : Invoke) (site : Qualified StmtId) (callee : Qualified MethodId) :
    Leaves [] (wire p call site callee) s := by
  apply Leaves.silent_bind
  intro decl s₁
  split
  · dsimp only
    split
    · exact .silent_bind fun _ _ => .throw_bind _
    · refine Leaves.after (.forM_nil fun x _ s => leaves_flowBetween _ _) fun _ s₂ _ => ?_
      split
      · refine .silent_bind fun target s₃ => .forM_nil fun v _ s => ?_
        exact .silent_bind fun source _ => leaves_addFlow source target
      · exact .pure ()
  · exact .pure ()

/-- A call is recorded and wired without a mark. -/
theorem leaves_connect (call : Invoke) (site : Qualified StmtId) (callee : Qualified MethodId) :
    Leaves [] (connect p call site callee) s := by
  refine .silent_bind fun m s₁ => .silent_bind fun i s₂ => .silent_bind fun fresh s₃ => ?_
  split
  · exact .silent_bind fun _ s₄ => leaves_wire call site callee
  · exact .pure ()

/-- A call without a receiver binds nothing. -/
theorem leaves_callStatically (c : ContextId) (i : StmtId) (call : Invoke) :
    Leaves [] (callStatically p σ c i call) s := by
  apply Leaves.silent_bind
  intro target s₁
  split
  · refine .silent_bind fun decl s₂ => ?_
    dsimp only
    split
    · exact .silent_bind fun _ _ => .throw_bind _
    · exact .silent_bind fun _ s₃ => leaves_connect _ _ _
  · exact .pure ()

/-- A call on an object binds it once at most. -/
theorem leaves_callOn (c : ContextId) (q : QObjId) (key : Qualified ObjId) (i : StmtId)
    (call : Invoke) : Leaves [.bound c i q] (callOn p σ c q key i call) s := by
  refine .silent_bind fun s₀ s₁ => .silent_bind fun obj s₂ => .silent_bind fun target s₃ => ?_
  split
  · refine .silent_bind fun decl s₄ => ?_
    dsimp only
    split
    · exact .silent_bind fun _ _ => .throw_bind _
    · refine .silent_bind fun c' s₅ => ?_
      -- the object is bound if the callee has a `this`
      split
      · refine .silent_bind fun t s₆ => ?_
        have hsend : Leaves [.bound c i q] (send (.receiver c i q) t (.singleton q)) s₆ :=
          List.Sublist.refl _
        exact hsend.bind fun _ _ _ => leaves_connect _ _ _
      · exact (leaves_connect _ _ _).mono (List.nil_sublist _)
  · exact .pure ()

end Flow

/-! ## Visits -/

section Visits

variable {p : Program} {σ : Sensitivity} {s s' : State} {m : QMethodId}

/-- The marks of one statement in the visit of a method. -/
def visitMarks (p : Program) (m : QMethodId) (i : StmtId) : List Mark :=
  .translated m i :: if p.isAllocation i then [.allocated m i] else []

/-- Among the marks of a visit, those of allocations are for the allocations in the body. -/
theorem allocations_visitMarks (stmts : List StmtId) :
    (stmts.flatMap (visitMarks p m)).filterMap Mark.allocation? =
      (stmts.filter p.isAllocation).map fun i => (m, i) := by
  induction stmts with
  | nil => rfl
  | cons i stmts ih =>
    rw [List.flatMap_cons, List.filterMap_append, ih]
    cases h : p.isAllocation i with
    | true => simp [visitMarks, h, Mark.allocation?, List.filterMap_cons]
    | false => simp [visitMarks, h, Mark.allocation?]

/-- A visit binds nothing. -/
theorem bindings_visitMarks (stmts : List StmtId) :
    (stmts.flatMap (visitMarks p m)).filterMap Mark.binding? = [] := by
  refine List.filterMap_eq_nil_iff.2 fun mark hmark => ?_
  obtain ⟨i, -, hmark⟩ := List.mem_flatMap.1 hmark
  unfold visitMarks at hmark
  split at hmark
  · rcases List.mem_pair.1 hmark with rfl | rfl
    · rfl
    · rfl
  · obtain rfl := List.mem_singleton.1 hmark
    rfl

/-- A statement by itself leaves the mark of an allocation or none. -/
theorem leaves_visitStmt {c : ContextId} {i : StmtId} {stmt : Stmt} (hs : p.stmtAt i = .ok stmt) :
    Leaves (if p.isAllocation i then [.allocated m i] else []) (visitStmt p σ m c i stmt) s := by
  -- only an allocation leaves a mark, so for all other statements it is enough to leave none
  have hnone : ∀ {x : Recorded Unit}, Leaves [] x s →
      Leaves (if p.isAllocation i then [.allocated m i] else []) x s :=
    fun h => h.mono (List.nil_sublist _)
  cases stmt with
  | alloc lhs type =>
    have htrue : p.isAllocation i = true := by rw [Program.isAllocation, hs]
    rw [htrue]
    refine .silent_bind fun o s₁ => .silent_bind fun c' s₂ => .silent_bind fun q s₃ => ?_
    exact .silent_bind fun t s₄ => List.Sublist.refl _
  | copy lhs rhs => exact hnone (leaves_flowBetween _ _)
  | load lhs base field =>
    cases base with
    | none => exact hnone (.silent_bind fun _ s₁ => leaves_flowBetween _ _)
    | some base => exact .pure ()
  | store base field rhs =>
    cases base with
    | none => exact hnone (.silent_bind fun _ s₁ => leaves_flowBetween _ _)
    | some base => exact .pure ()
  | invoke call =>
    by_cases hk : call.kind = .static
    · rw [visitStmt, if_pos hk]
      exact hnone (leaves_callStatically c i call)
    · rw [visitStmt, if_neg hk]
      exact .pure ()
  | loadArray _ _ => exact .pure ()
  | storeArray _ _ => exact .pure ()
  | ret _ => exact .pure ()
  | nop => exact .pure ()

/-- A visit leaves the marks of its statements. -/
theorem leaves_visitMethod {q : Qualified MethodId} (hq : s.world.methods.get? m = some q) :
    Leaves ((p.statementsOf q.entity).flatMap (visitMarks p m)) (visitMethod p σ m) s := by
  refine .get_bind (.lift_bind fun q' hq' => .lift_bind fun decl hdecl => ?_)
  obtain rfl := Option.some.inj (hq.symm.trans (Outcome.ofRow_eq_ok.1 hq'))
  have hstmts : p.statementsOf q.entity = decl.body.elim [] Body.stmts := by
    rw [Program.statementsOf, hdecl]
  rw [hstmts]
  cases decl.body with
  | none => exact .pure ()
  | some body =>
    refine .forM fun i _ s₁ => .lift_bind fun stmt hs => ?_
    have htranslate : Leaves [.translated m i] (translate m i) s₁ := List.Sublist.refl _
    exact htranslate.bind fun _ _ _ => leaves_visitStmt hs

end Visits

/-! ## Dereferences -/

section Dereferences

variable {p : Program} {σ : Sensitivity} {s s' : State}

/-- The marks of an object that is new at a variable. -/
def dereferenceMarks (p : Program) (c : ContextId) (v : VarId) (q : QObjId) : List Mark :=
  (p.usesOf v).calls.map (.bound c · q)

/-- Among the statements that follow a variable, only calls leave marks. -/
theorem leaves_dereferenceStmt {c : ContextId} {v : VarId} {q : QObjId} {key : Qualified ObjId}
    {i : StmtId} {stmt : Stmt} (hs : p.stmtAt i = .ok stmt) (hb : stmt.base? = some v) :
    Leaves (if i ∈ (p.usesOf v).calls then [.bound c i q] else [])
      (dereferenceStmt p σ c q key i stmt) s := by
  -- no statement but a call binds a receiver
  have hnone : ∀ {x : Recorded Unit}, Leaves [] x s →
      Leaves (if i ∈ (p.usesOf v).calls then [.bound c i q] else []) x s :=
    fun h => h.mono (List.nil_sublist _)
  cases stmt with
  | store base field rhs => exact hnone (.silent_bind fun _ s₁ => leaves_flowBetween _ _)
  | load lhs base field => exact hnone (.silent_bind fun _ s₁ => leaves_flowBetween _ _)
  | storeArray base rhs => exact hnone (leaves_flowBetween _ _)
  | loadArray lhs base => exact hnone (leaves_flowBetween _ _)
  | invoke call =>
    rw [if_pos (Program.mem_calls_usesOf.2 ⟨call, hs, hb⟩)]
    exact leaves_callOn c q key i call
  | alloc _ _ => cases hb
  | copy _ _ => cases hb
  | ret _ => cases hb
  | nop => cases hb

/-- An object that is new at a variable is bound once at each call on the variable, at most. -/
theorem leaves_dereference (wf : p.WellFormed) {c : ContextId} {v : VarId} {q : QObjId} :
    Leaves (dereferenceMarks p c v q) (dereference p σ c v q) s := by
  apply Leaves.lift_bind
  intro uses huses
  obtain rfl := wf.uses v uses (Outcome.ofRow_eq_ok.1 huses)
  -- all that follows the variable is looked at, of which the calls are a part
  rw [dereferenceMarks, ← Program.flatMap_all_usesOf]
  refine .silent_bind fun s₀ s₁ => .silent_bind fun key s₂ => ?_
  refine .forM fun i hi s₃ => .lift_bind fun stmt hs => leaves_dereferenceStmt hs ?_
  obtain ⟨stmt', hs', hb⟩ := Program.mem_usesOf.1 hi
  obtain rfl := Except.ok.inj (hs.symm.trans hs')
  exact hb

/-- The marks of objects that are new at a pointer. -/
def arrivalMarks (p : Program) (u : Universe) (target : PointerId) (fresh : PointsTo) : List Mark :=
  match u.pointers.get? target with
  | some (.var c v) => fresh.toList.flatMap (dereferenceMarks p c v)
  | _ => []

/-- Objects that are new at a variable are bound at the calls on it, and leave no other marks. -/
theorem mem_arrivalMarks {u : Universe} {target : PointerId} {fresh : PointsTo} {mark : Mark}
    (h : mark ∈ arrivalMarks p u target fresh) :
    ∃ c v q i, mark = .bound c i q ∧ u.pointers.get? target = some (.var c v) ∧ q ∈ fresh ∧
      i ∈ (p.usesOf v).calls := by
  unfold arrivalMarks at h
  split at h
  · rename_i c v hkey
    obtain ⟨q, hq, h⟩ := List.mem_flatMap.1 h
    obtain ⟨i, hi, rfl⟩ := List.mem_map.1 h
    exact ⟨c, v, q, i, rfl, hkey, AscendingSet.mem_toList.1 hq, hi⟩
  · cases h

/-- Each object is bound at each call site once. -/
theorem nodup_bindings_arrivalMarks {u : Universe} {target : PointerId} {fresh : PointsTo}
    (hfresh : fresh.Ascending) :
    ((arrivalMarks p u target fresh).filterMap Mark.binding?).Nodup := by
  unfold arrivalMarks
  split
  · rename_i c v hkey
    -- for one object there is one binding for each call
    have hcalls : ∀ q, (dereferenceMarks p c v q).filterMap Mark.binding? =
        (p.usesOf v).calls.map fun i => (c, i, q) := by
      intro q
      rw [dereferenceMarks, List.filterMap_map]
      exact congrFun List.filterMap_eq_map' _
    rw [List.filterMap_flatMap, List.nodup_flatMap]
    refine ⟨fun q _ => ?_, hfresh.nodup.imp fun {q q'} hne => ?_⟩
    · rw [hcalls]
      exact Program.nodup_calls_usesOf.map fun i j e => (Prod.mk.inj (Prod.mk.inj e).2).1
    · -- bindings of different objects are different
      rw [Function.onFun, hcalls, hcalls]
      intro b hb hb'
      obtain ⟨i, -, rfl⟩ := List.mem_map.1 hb
      obtain ⟨j, -, e⟩ := List.mem_map.1 hb'
      exact hne (Prod.mk.inj (Prod.mk.inj e).2).2.symm
  · exact List.nodup_nil

/-- What is done about objects that are new at a pointer leaves marks only if it is the pointer of a
variable. -/
theorem leaves_followUp (wf : p.WellFormed) (target : PointerId) (fresh : PointsTo) :
    Leaves (arrivalMarks p s.world target fresh) (followUp p σ target fresh) s := by
  unfold followUp
  split
  · refine .get_bind (.lift_bind fun key hkey => ?_)
    rw [arrivalMarks, Outcome.ofRow_eq_ok.1 hkey]
    cases key with
    | var c v => exact .forM fun q _ s₁ => leaves_dereference wf
    | staticField f => exact .pure ()
    | instanceField base f => exact .pure ()
    | arrayElems base => exact .pure ()
  · exact .pure ()

/-- Processing a delivery leaves the marks of the objects that are new at its target. -/
theorem leaves_process (wf : p.WellFormed) {w : WorkList} {d : Delivery} {set : PointsTo}
    (hset : s.world.sets.get? d.target = some set) :
    Leaves (arrivalMarks p s.world d.target (set.absorb d.objs).2) (process p σ d)
      { s with workList := w, processed := s.processed + 1 } := by
  refine (leaves_absorb d.target d.objs).after fun fresh s₁ hrun => ?_
  rw [run_absorb, absorb_eq (s := { s with workList := w, processed := s.processed + 1 }) hset] at hrun
  cases hrun
  exact leaves_followUp wf d.target _

end Dereferences

end Recorded

/-! ## Translations -/

section Translations

variable {p : Program} {σ : Sensitivity} {s s' : State} {m : QMethodId}

/-- A computation that leaves no marks translates nothing. -/
theorem Recorded.Leaves.translations_eq {α : Type} {L : List Mark} {x : Recorded α}
    (h : Leaves L x s) (hL : ∀ m i, Mark.translated m i ∉ L) : translations (x.log s) = [] := by
  refine List.filterMap_eq_nil_iff.2 fun mark hmark => ?_
  cases mark with
  | translated m i => exact absurd (h.subset hmark) (hL m i)
  | allocated m i => rfl
  | bound c i q => rfl

namespace Recorded

/-- Begun in `s`, the computation translates `T`, unless it ends with an error. -/
def Translates (T : List (QMethodId × StmtId)) {α : Type} (x : Recorded α) (s : State) : Prop :=
  ∀ a s', x.run s = .ok (a, s') → translations (x.log s) = T

namespace Translates

variable {α β : Type} {T T' : List (QMethodId × StmtId)} {x : Recorded α} {f : α → Recorded β}

/-- A computation that leaves no translations translates nothing. -/
theorem of_leaves {L : List Mark} (h : Leaves L x s) (hL : ∀ m i, Mark.translated m i ∉ L) :
    Translates [] x s := fun _ _ _ => h.translations_eq hL

/-- Translations are made one after the other. -/
theorem bind (hx : Translates T x s)
    (hf : ∀ a s', x.run s = .ok (a, s') → Translates T' (f a) s') :
    Translates (T ++ T') (x >>= f) s := by
  intro b s'' h
  rw [log_bind, translations_append]
  cases hrun : x.run s with
  | ok r =>
    obtain ⟨a, s'⟩ := r
    rw [run_bind, bind_run hrun] at h
    rw [hx a s' hrun]
    exact congrArg _ (hf a s' hrun b s'' h)
  | error e =>
    rw [run_bind, bind_run_error hrun] at h
    cases h

theorem get_bind {f : State → Recorded β} (hf : Translates T (f s) s) :
    Translates T (silent get >>= f) s := by
  refine bind (T := []) (fun _ _ _ => rfl) fun a s' h => ?_
  cases h
  exact hf

theorem lift_bind {x : Outcome α} (hf : ∀ a, x = .ok a → Translates T (f a) s) :
    Translates T (liftM x >>= f) s := by
  refine bind (T := []) (fun _ _ _ => rfl) fun a s' h => ?_
  cases x with
  | ok b =>
    cases h
    exact hf a rfl
  | error e => cases h

theorem forM {xs : List α} {f : α → Recorded Unit} {g : α → List (QMethodId × StmtId)}
    (h : ∀ a ∈ xs, ∀ s, Translates (g a) (f a) s) : Translates (xs.flatMap g) (xs.forM f) s := by
  induction xs generalizing s with
  | nil => exact fun _ _ _ => rfl
  | cons a xs ih =>
    rw [List.forM_eq_forM] at ih ⊢
    rw [List.forM_cons, List.flatMap_cons]
    exact (h a (List.mem_cons_self ..) s).bind fun _ s' _ =>
      ih fun b hb => h b (List.mem_cons_of_mem _ hb)

end Translates

/-- A visit that comes to its end has translated every statement of its method, each once. -/
theorem translates_visitMethod {q : Qualified MethodId} (hq : s.world.methods.get? m = some q) :
    Translates ((p.statementsOf q.entity).map fun i => (m, i)) (visitMethod p σ m) s := by
  refine .get_bind (.lift_bind fun q' hq' => .lift_bind fun decl hdecl => ?_)
  obtain rfl := Option.some.inj (hq.symm.trans (Outcome.ofRow_eq_ok.1 hq'))
  have hstmts : p.statementsOf q.entity = decl.body.elim [] Body.stmts := by
    rw [Program.statementsOf, hdecl]
  rw [hstmts, List.map_eq_flatMap]
  cases decl.body with
  | none => exact fun _ _ _ => rfl
  | some body =>
    refine .forM fun i _ s₁ => .lift_bind fun stmt hs => ?_
    have hone : Translates [(m, i)] (translate m i) s₁ := fun _ _ _ => rfl
    -- the statement itself leaves no mark but that of an allocation
    have hrest : ∀ s₂, Translates [] (visitStmt p σ m q.context i stmt) s₂ := by
      refine fun s₂ => .of_leaves (leaves_visitStmt hs) fun m' i' hin => ?_
      split at hin
      · cases List.mem_singleton.1 hin
      · cases hin
    exact hone.bind fun _ s₂ _ => hrest s₂

end Recorded

end Translations

end Solver

end PointerAnalysis
