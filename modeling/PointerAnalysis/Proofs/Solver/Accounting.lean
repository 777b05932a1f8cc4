import Mathlib.Algebra.BigOperators.Group.Finset.Basic
import PointerAnalysis.Proofs.Solver.Steps

/-!
# Paying for deliveries

Every delivery is paid for by something that there is only a bounded amount of.  An object in the
set of a pointer pays one unit for each edge out of the pointer, and `wage` units for the statements
that follow it; so the credit of a state is the sum of these over all sets.  A delivery along an edge
is paid when its objects are added at the source, or when the edge is added, and a delivery to a
`this` when its object is added at the receiver.  Only allocations have to be paid for by the visit
of their method.

## Main definitions

- `credit`: what the objects in all sets have paid.
- `Costs`: an upper bound on what a computation takes beyond the credit that it adds.

## Main statements

- `costs_visitMethod`: a visit costs no more than one unit for each statement of the program.
- `process_paid`: a delivery is processed at no cost.
- `steps_paid`: after any number of steps, all deliveries so far are paid for.
-/

namespace PointerAnalysis

/-! ## Sums over tables -/

namespace Table

variable {k : Kind} {α : Type}

/-- The value of the row a handle names. -/
def valueAt (t : Table k α) (f : Handle k → α → Nat) (h : Handle k) : Nat :=
  (t.get? h).elim 0 (f h)

/-- The sum of the values of all rows. -/
def total (t : Table k α) (f : Handle k → α → Nat) : Nat :=
  ∑ i ∈ Finset.range t.size, t.valueAt f ⟨i⟩

variable {t t' : Table k α} {f f' : Handle k → α → Nat}

theorem valueAt_of_get? {h : Handle k} {a : α} (e : t.get? h = some a) :
    t.valueAt f h = f h a := by
  rw [valueAt, e]
  rfl

/-- A new row adds its value to the sum. -/
theorem total_push (t : Table k α) (a : α) (f : Handle k → α → Nat) :
    (t.push a).total f = t.total f + f t.next a := by
  unfold total
  rw [size_push, Finset.sum_range_succ]
  congr 1
  · -- the rows that were there are worth what they were worth
    apply Finset.sum_congr rfl
    intro i hi
    have hne : (⟨i⟩ : Handle k) ≠ t.next := fun e =>
      Nat.ne_of_lt (Finset.mem_range.1 hi) (congrArg Handle.index e)
    rw [valueAt, valueAt, get?_push, if_neg hne]
  · exact valueAt_of_get? ((get?_push ..).trans (if_pos rfl))

/-- Sums that differ in the value of one row. -/
theorem total_update {h : Handle k} (hsize : t'.size = t.size) (hh : t.Has h)
    (hother : ∀ h', h' ≠ h → t'.valueAt f' h' = t.valueAt f h') :
    t'.total f' + t.valueAt f h = t.total f + t'.valueAt f' h := by
  obtain ⟨j⟩ := h
  unfold total
  -- the row is taken out of both sums
  have hmem : j ∈ Finset.range t.size := Finset.mem_range.2 hh
  rw [hsize, ← Finset.add_sum_erase _ (fun i => t'.valueAt f' ⟨i⟩) hmem,
    ← Finset.add_sum_erase _ (fun i => t.valueAt f ⟨i⟩) hmem]
  have hrest : ∑ i ∈ (Finset.range t.size).erase j, t'.valueAt f' ⟨i⟩ =
      ∑ i ∈ (Finset.range t.size).erase j, t.valueAt f ⟨i⟩ := by
    refine Finset.sum_congr rfl fun i hi => hother ⟨i⟩ fun e => ?_
    exact (Finset.mem_erase.1 hi).1 (congrArg Handle.index e)
  rw [hrest]
  omega

/-- If no row is worth more than `n`, then the table is worth no more than `n` for each row. -/
theorem total_le {n : Nat} (h : ∀ h a, t.get? h = some a → f h a ≤ n) :
    t.total f ≤ t.size * n := by
  unfold total
  have hle : ∀ m, m ≤ t.size → ∑ i ∈ Finset.range m, t.valueAt f ⟨i⟩ ≤ m * n := by
    intro m hm
    -- row by row, each of them at most `n`
    induction m with
    | zero => simp
    | succ m ih =>
      rw [Finset.sum_range_succ, Nat.succ_mul]
      obtain ⟨a, ha⟩ := exists_get? (t := t) (h := ⟨m⟩) hm
      exact Nat.add_le_add (ih (by omega)) (valueAt_of_get? (f := f) ha ▸ h _ a ha)
  exact hle t.size (Nat.le_refl _)

end Table

namespace Solver

/-! ## Credit -/

/-- The most statements that follow a variable. -/
def wage (p : Program) : Nat := 5 * p.stmts.size

/-- What an object in a set has paid. -/
def payment (p : Program) (flow : FlowGraph) (h : PointerId) (set : PointsTo) : Nat :=
  ((flow.successorsOf h).length + wage p) * set.size

/-- What the objects in all sets have paid. -/
def credit (p : Program) (s : State) : Nat := s.world.sets.total (payment p s.flow)

variable {p : Program} {s s' s'' : State}

/-- A change of the state that takes `n` units beyond the credit that it adds. -/
structure Spends (p : Program) (n : Nat) (s s' : State) : Prop where
  visited : s'.visited = s.visited
  processed : s'.processed = s.processed
  paid : s'.workList.toList.length + credit p s ≤ s.workList.toList.length + credit p s' + n

theorem Spends.refl (s : State) : Spends p 0 s s := ⟨rfl, rfl, Nat.le_refl _⟩

/-- What is spent in two parts is spent in all. -/
theorem Spends.trans {m n : Nat} (h : Spends p m s s') (h' : Spends p n s' s'') :
    Spends p (m + n) s s'' where
  visited := h'.visited.trans h.visited
  processed := h'.processed.trans h.processed
  paid := by
    have := h.paid
    have := h'.paid
    omega

/-- A computation that takes at most `n` units, whenever it ends without an error. -/
def Costs (p : Program) (n : Nat) {α : Type} (x : SolverM α) : Prop :=
  ∀ s a s', x s = .ok (a, s') → Spends p n s s'

namespace Costs

variable {α β : Type} {m n : Nat} {x : SolverM α} {f : α → SolverM β}

/-- What costs no more than `m` costs no more than any larger amount. -/
theorem mono (h : Costs p m x) (hmn : m ≤ n) : Costs p n x := by
  intro s a s' e
  obtain ⟨hv, hp, hpaid⟩ := h s a s' e
  exact ⟨hv, hp, by omega⟩

theorem pure (a : α) : Costs p 0 (Pure.pure a : SolverM α) := by
  intro s a s' h
  cases h
  exact .refl s

theorem throw_bind (e : Halt) (f : α → SolverM β) :
    Costs p n (MonadExcept.throw e >>= f) := by
  intro s a s' h
  cases h

theorem get : Costs p 0 (MonadState.get : SolverM State) := by
  intro s a s' h
  cases h
  exact .refl s

theorem lift (x : Outcome α) : Costs p 0 (liftM x : SolverM α) := by
  intro s a s' e
  cases x with
  | ok b => cases e; exact .refl s
  | error h => cases e

/-- One computation after another costs what both cost. -/
theorem bind (h : Costs p m x) (hf : ∀ a, Costs p n (f a)) : Costs p (m + n) (x >>= f) := by
  intro s b s'' e
  cases hx : x s with
  | ok r =>
    obtain ⟨a, s'⟩ := r
    rw [bind_run hx] at e
    exact (h s a s' hx).trans (hf a s' b s'' e)
  | error err =>
    rw [bind_run_error hx] at e
    cases e

/-- What comes before a computation costs nothing. -/
theorem after (h : Costs p 0 x) (hf : ∀ a, Costs p n (f a)) : Costs p n (x >>= f) :=
  (h.bind hf).mono (by omega)

/-- A loop costs no more than its turns. -/
theorem forM {xs : List α} {f : α → SolverM Unit} (h : ∀ a ∈ xs, Costs p n (f a)) :
    Costs p (xs.length * n) (xs.forM f) := by
  induction xs with
  | nil => exact (pure ()).mono (Nat.zero_le _)
  | cons a xs ih =>
    rw [List.forM_eq_forM] at ih ⊢
    rw [List.forM_cons]
    refine ((h a (List.mem_cons_self ..)).bind fun _ =>
      ih fun b hb => h b (List.mem_cons_of_mem _ hb)).mono ?_
    rw [List.length_cons, Nat.succ_mul]
    omega

theorem forM_free {xs : List α} {f : α → SolverM Unit} (h : ∀ a ∈ xs, Costs p 0 (f a)) :
    Costs p 0 (xs.forM f) :=
  (forM h).mono (by omega)

end Costs

/-! ## Operations -/

/-- A change that touches neither sets, nor flow, nor deliveries. -/
theorem Spends.of_eq (hsets : s'.world.sets = s.world.sets) (hflow : s'.flow = s.flow)
    (hwork : s'.workList = s.workList) (hvisited : s'.visited = s.visited)
    (hprocessed : s'.processed = s.processed) : Spends p 0 s s' := by
  refine ⟨hvisited, hprocessed, ?_⟩
  rw [hwork, credit, credit, hsets, hflow]
  exact Nat.le_refl _

theorem costs_internObj (q : Qualified ObjId) : Costs p 0 (internObj q) := by
  intro s a s' h
  cases h
  exact .of_eq rfl rfl rfl rfl rfl

theorem costs_internSite (q : Qualified StmtId) : Costs p 0 (internSite q) := by
  intro s a s' h
  cases h
  exact .of_eq rfl rfl rfl rfl rfl

theorem costs_internMethod (q : Qualified MethodId) : Costs p 0 (internMethod q) := by
  intro s a s' h
  cases h
  exact .of_eq rfl rfl rfl rfl rfl

theorem costs_reach (m : QMethodId) : Costs p 0 (reach m) := by
  intro s a s' h
  cases h
  exact .of_eq rfl rfl rfl rfl rfl

theorem costs_addCall (e : CallEdge QSiteId QMethodId) : Costs p 0 (addCall e) := by
  intro s a s' h
  cases h
  exact .of_eq rfl rfl rfl rfl rfl

/-- To make an object costs nothing; to deliver it does. -/
theorem costs_objFor (i : StmtId) : Costs p 0 (objFor p i) := by
  intro s o s' e
  have hget : objFor p i s = _ := bind_run rfl
  cases hrun : s.heap.objFor p i with
  | ok r =>
    cases (hget.trans (bind_run (lift_run hrun))).symm.trans e
    exact .of_eq rfl rfl rfl rfl rfl
  | error h => cases (hget.trans (bind_run_error (lift_run_error hrun))).symm.trans e

/-- To choose a context costs nothing. -/
theorem costs_chooseContext (choice : ContextPool → Outcome (ContextId × ContextPool)) :
    Costs p 0 (chooseContext choice) := by
  intro s c s' e
  have hget : chooseContext choice s = _ := bind_run rfl
  cases hrun : choice s.world.contexts with
  | ok r =>
    cases (hget.trans (bind_run (lift_run hrun))).symm.trans e
    exact .of_eq rfl rfl rfl rfl rfl
  | error h => cases (hget.trans (bind_run_error (lift_run_error hrun))).symm.trans e

/-- A new pointer has an empty set, which is worth nothing. -/
theorem costs_internPointer (key : Pointer) : Costs p 0 (internPointer key) := by
  intro s h s' e
  have hrun : internPointer key s =
      .ok ((s.world.pointer key).1, { s with world := (s.world.pointer key).2 }) := rfl
  obtain ⟨-, rfl⟩ := Prod.mk.inj (Except.ok.inj (hrun.symm.trans e))
  cases hfind : s.world.findPointer? key with
  | some h =>
    have hsame : s.world.pointer key = (h, s.world) := by rw [Universe.pointer, hfind]
    rw [hsame]
    exact .refl s
  | none =>
    -- the sum has one term more, which is zero
    have hsets : (s.world.pointer key).2.sets = s.world.sets.push .empty := by
      rw [Universe.pointer, hfind]
    refine ⟨rfl, rfl, ?_⟩
    show _ + credit p s ≤ _ + (s.world.pointer key).2.sets.total (payment p s.flow) + 0
    rw [hsets, Table.total_push]
    have : payment p s.flow s.world.sets.next .empty = 0 := Nat.mul_zero _
    rw [this]
    exact Nat.le_refl _

/-- A delivery costs one unit. -/
theorem costs_deliver (target : PointerId) (objs : PointsTo) : Costs p 1 (deliver target objs) := by
  intro s a s' h
  cases h
  refine ⟨rfl, rfl, ?_⟩
  show (s.workList.push ⟨target, objs⟩).toList.length + credit p s ≤
    s.workList.toList.length + credit p s + 1
  rw [WorkList.toList_push, List.length_append, List.length_singleton]
  omega

/-- A new edge is paid for by the objects at its source. -/
theorem costs_addFlow (a b : PointerId) : Costs p 0 (addFlow a b) := by
  intro s r s' e
  cases hedge : s.flow.hasEdge a b with
  | true =>
    cases (addFlow_eq_of_hasEdge hedge).symm.trans e
    exact .refl s
  | false =>
    cases hset : s.world.sets.get? a with
    | none =>
      rw [addFlow_eq_error hedge hset] at e
      cases e
    | some objs =>
      cases (addFlow_eq hedge hset).symm.trans e
      refine ⟨rfl, rfl, ?_⟩
      -- all other sets have the same edges as before
      have hother : ∀ h, h ≠ a → s.world.sets.valueAt (payment p (s.flow.addEdge a b).2) h =
          s.world.sets.valueAt (payment p s.flow) h := by
        intro h hne
        have hsame : payment p (s.flow.addEdge a b).2 h = payment p s.flow h := by
          funext set
          rw [payment, FlowGraph.successorsOf_addEdge hedge, if_neg hne, List.append_nil]
          rfl
        rw [Table.valueAt, hsame]
        rfl
      have hcredit := Table.total_update rfl (Table.has_of_get? hset) hother
      rw [Table.valueAt_of_get? hset, Table.valueAt_of_get? hset] at hcredit
      simp only [payment, FlowGraph.successorsOf_addEdge hedge, if_true, List.length_append,
        List.length_singleton, Nat.add_mul, Nat.one_mul] at hcredit
      show _ + s.world.sets.total (payment p s.flow) ≤
        _ + s.world.sets.total (payment p (s.flow.addEdge a b).2) + 0
      -- each object at the source pays one unit more, and one delivery is made at most
      cases hempty : objs.isEmpty with
      | true =>
        simp only [if_true]
        omega
      | false =>
        have hpos := AscendingSet.size_pos_of_not_isEmpty hempty
        simp only [Bool.false_eq_true, if_false, WorkList.toList_push, List.length_append,
          List.length_singleton]
        omega

/-- To connect two locations costs nothing, since new edges are paid for. -/
theorem costs_flowBetween (source target : Pointer) : Costs p 0 (flowBetween source target) :=
  (costs_internPointer source).after fun a => (costs_internPointer target).after fun b =>
    costs_addFlow a b

/-! ## Statements -/

/-- The edges of a call are paid for. -/
theorem costs_wire (call : Invoke) (site : Qualified StmtId) (callee : Qualified MethodId) :
    Costs p 0 (wire p call site callee) := by
  apply (Costs.lift _).after
  intro decl
  split
  · rename_i body _
    dsimp only
    split
    · exact (Costs.lift _).after fun _ => .throw_bind _ _
    · apply (Costs.forM_free fun x _ => costs_flowBetween _ _).after
      intro _
      split
      · apply (costs_internPointer _).after
        intro target
        apply Costs.forM_free
        intro v _
        exact (costs_internPointer _).after fun source => costs_addFlow source target
      · exact .pure ()
  · exact .pure ()

/-- To record a call costs nothing, and its edges are paid for. -/
theorem costs_connect (call : Invoke) (site : Qualified StmtId) (callee : Qualified MethodId) :
    Costs p 0 (connect p call site callee) := by
  apply (costs_internMethod _).after
  intro m
  apply (costs_internSite _).after
  intro i
  apply (costs_addCall _).after
  intro fresh
  split
  · exact (costs_reach m).after fun _ => costs_wire call site callee
  · exact .pure ()

/-- A call without a receiver delivers nothing by itself. -/
theorem costs_callStatically (σ : Sensitivity) (c : ContextId) (i : StmtId) (call : Invoke) :
    Costs p 0 (callStatically p σ c i call) := by
  apply (Costs.lift _).after
  intro target
  split
  · apply (Costs.lift _).after
    intro decl
    dsimp only
    split
    · exact (Costs.lift _).after fun _ => .throw_bind _ _
    · exact (costs_chooseContext _).after fun _ => costs_connect _ _ _
  · exact .pure ()

/-- A call on an object delivers it to `this`. -/
theorem costs_callOn (σ : Sensitivity) (c : ContextId) (q : QObjId) (key : Qualified ObjId)
    (i : StmtId) (call : Invoke) : Costs p 1 (callOn p σ c q key i call) := by
  refine Costs.get.after fun s => (Costs.lift _).after fun obj => ?_
  apply (Costs.lift _).after
  intro target
  split
  · apply (Costs.lift _).after
    intro decl
    dsimp only
    split
    · exact (Costs.lift _).after fun _ => .throw_bind _ _
    · apply (costs_chooseContext _).after
      intro _
      split
      · -- the one delivery that no edge pays for
        apply (costs_internPointer _).after
        intro target
        exact (costs_deliver _ _).bind fun _ => costs_connect _ _ _
      · exact (costs_connect _ _ _).mono (Nat.zero_le _)
  · exact (Costs.pure ()).mono (Nat.zero_le _)

/-- An allocation delivers the object. -/
theorem costs_visitStmt (σ : Sensitivity) (c : ContextId) (i : StmtId) (stmt : Stmt) :
    Costs p 1 (visitStmt p σ c i stmt) := by
  have hfree : ∀ {x : SolverM Unit}, Costs p 0 x → Costs p 1 x := fun h => h.mono (Nat.zero_le _)
  have hnothing : Costs p 1 (Pure.pure () : SolverM Unit) := hfree (.pure ())
  -- all but allocations add edges only, which the objects at their sources pay for
  cases stmt with
  | alloc lhs type =>
    refine (costs_objFor i).after fun o => (costs_chooseContext _).after fun h => ?_
    refine (costs_internObj _).after fun q => (costs_internPointer _).after fun target => ?_
    exact costs_deliver _ _
  | copy lhs rhs => exact hfree (costs_flowBetween _ _)
  | load lhs base field =>
    cases base with
    | none => exact hfree ((Costs.lift _).after fun _ => costs_flowBetween _ _)
    | some base => exact hnothing
  | store base field rhs =>
    cases base with
    | none => exact hfree ((Costs.lift _).after fun _ => costs_flowBetween _ _)
    | some base => exact hnothing
  | invoke call =>
    rw [visitStmt]
    split
    · exact hfree (costs_callStatically σ c i call)
    · exact hnothing
  | loadArray _ _ => exact hnothing
  | storeArray _ _ => exact hnothing
  | ret _ => exact hnothing
  | nop => exact hnothing

/-- What follows a variable costs one unit at most, for the `this` of a callee. -/
theorem costs_dereferenceStmt (σ : Sensitivity) (c : ContextId) (q : QObjId)
    (key : Qualified ObjId) (i : StmtId) (stmt : Stmt) :
    Costs p 1 (dereferenceStmt p σ c q key i stmt) := by
  have hfree : ∀ {x : SolverM Unit}, Costs p 0 x → Costs p 1 x := fun h => h.mono (Nat.zero_le _)
  cases stmt with
  | store base field rhs => exact hfree ((Costs.lift _).after fun _ => costs_flowBetween _ _)
  | load lhs base field => exact hfree ((Costs.lift _).after fun _ => costs_flowBetween _ _)
  | storeArray base rhs => exact hfree (costs_flowBetween _ _)
  | loadArray lhs base => exact hfree (costs_flowBetween _ _)
  | invoke call => exact costs_callOn σ c q key i call
  | alloc _ _ => exact hfree (.pure ())
  | copy _ _ => exact hfree (.pure ())
  | ret _ => exact hfree (.pure ())
  | nop => exact hfree (.pure ())

/-! ## Methods and objects -/

section WellFormed

variable (wf : p.WellFormed) (σ : Sensitivity)
include wf

/-- A body holds every statement at most once. -/
theorem length_stmts_le {m : MethodId} {decl : MethodDecl} {body : Body}
    (hd : p.methodAt m = .ok decl) (hb : decl.body = some body) :
    body.stmts.length ≤ p.stmts.size := by
  obtain ⟨hnodup, hhas⟩ := wf.bodyStmts m decl (Outcome.ofRow_eq_ok.1 hd) body hb
  exact Table.length_le_of_nodup hnodup hhas

/-- A visit costs no more than one unit for each statement of the program. -/
theorem costs_visitMethod (h : QMethodId) : Costs p p.stmts.size (visitMethod p σ h) := by
  refine Costs.get.after fun s => (Costs.lift _).after fun q => ?_
  intro s r s' e
  cases hd : p.methodAt q.entity with
  | error err => cases (bind_run_error (lift_run_error hd)).symm.trans e
  | ok decl =>
    rw [bind_run (lift_run hd)] at e
    cases hb : decl.body with
    | none =>
      rw [hb] at e
      exact (Costs.pure ()).mono (Nat.zero_le _) s r s' e
    | some body =>
      rw [hb] at e
      refine (Costs.forM fun i _ => (Costs.lift _).after fun stmt =>
        costs_visitStmt σ q.context i stmt).mono ?_ s r s' e
      rw [Nat.mul_one]
      exact length_stmts_le wf hd hb

/-- An object of a variable costs its wage. -/
theorem costs_dereference (c : ContextId) (v : VarId) (q : QObjId) :
    Costs p (wage p) (dereference p σ c v q) := by
  intro s r s' e
  cases huses : p.dereferences.get? v with
  | none =>
    have herror : p.dereferencesOf v = .error .dangling := by
      rw [Program.dereferencesOf, huses]
      rfl
    cases (bind_run_error (lift_run_error herror)).symm.trans e
  | some uses =>
    have hok : p.dereferencesOf v = .ok uses := Outcome.ofRow_eq_ok.2 huses
    rw [dereference, bind_run (lift_run hok)] at e
    refine (Costs.get.after fun s₀ => (Costs.lift _).after fun key => Costs.forM fun i _ =>
      (Costs.lift _).after fun stmt => costs_dereferenceStmt σ c q key i stmt).mono ?_ s r s' e
    obtain rfl := wf.uses v uses huses
    -- each of the five lists holds a statement once at most
    have hle : ∀ test, (statementsOn p.stmts.entries test v).length ≤ p.stmts.size := fun test =>
      Table.length_entries p.stmts ▸ length_statementsOn_le _ test v
    have h₁ := hle Stmt.storeBase?
    have h₂ := hle Stmt.loadBase?
    have h₃ := hle Stmt.storeArrayBase?
    have h₄ := hle Stmt.loadArrayBase?
    have h₅ := hle Stmt.receiver?
    simp only [Program.usesOf, usesAmong, List.length_append, wage]
    omega

/-- Each object that is new at a pointer costs its wage. -/
theorem costs_followUp (target : PointerId) (fresh : PointsTo) :
    Costs p (fresh.size * wage p) (followUp p σ target fresh) := by
  have hnothing : Costs p (fresh.size * wage p) (Pure.pure () : SolverM Unit) :=
    (Costs.pure ()).mono (Nat.zero_le _)
  unfold followUp
  split
  · refine Costs.get.after fun s => (Costs.lift _).after fun key => ?_
    split
    · exact Costs.forM fun q _ => costs_dereference wf σ _ _ q
    · exact hnothing
  · exact hnothing

end WellFormed

/-! ## Steps -/

/-- When a delivery arrives, what is new at its target pays for what is forwarded and for what
follows. -/
theorem arrive_paid {w : WorkList} {d : Delivery} {set : PointsTo}
    (hset : s.world.sets.get? d.target = some set) (hpop : s.workList.pop? = some (d, w)) :
    (arrive s w d.target d.objs set).workList.toList.length + 1 + credit p s +
        (set.absorb d.objs).2.size * wage p ≤
      s.workList.toList.length + credit p (arrive s w d.target d.objs set) := by
  have hpopped : s.workList.toList.length = w.toList.length + 1 := by
    rw [WorkList.toList_pop? hpop]
    cases s.workList.order <;> simp
  -- only the set of the target changes
  have hother : ∀ h, h ≠ d.target →
      (s.world.sets.modify d.target fun _ => (set.absorb d.objs).1).valueAt (payment p s.flow) h =
        s.world.sets.valueAt (payment p s.flow) h := by
    intro h hne
    rw [Table.valueAt, Table.get?_modify, if_neg hne]
    rfl
  have hcredit := Table.total_update (Table.size_modify ..) (Table.has_of_get? hset) hother
  rw [Table.valueAt_of_get? hset, Table.valueAt_of_get? (a := (set.absorb d.objs).1)
    (by rw [Table.get?_modify, if_pos rfl, hset]; rfl)] at hcredit
  simp only [payment, AscendingSet.size_absorb, Nat.mul_add, Nat.add_mul] at hcredit
  show _ + 1 + s.world.sets.total (payment p s.flow) + _ ≤
    _ + (s.world.sets.modify d.target fun _ => (set.absorb d.objs).1).total (payment p s.flow)
  rw [Nat.mul_comm _ (wage p), hpopped]
  -- nothing is forwarded unless an object is new
  cases hempty : (set.absorb d.objs).2.isEmpty with
  | true =>
    have hsame : (arrive s w d.target d.objs set).workList = w := by
      simp only [arrive, hempty, if_true]
    rw [hsame]
    omega
  | false =>
    have hsent : (arrive s w d.target d.objs set).workList.toList.length =
        w.toList.length + (s.flow.successorsOf d.target).length := by
      simp only [arrive, hempty, Bool.false_eq_true, if_false, toList_foldl_push,
        List.length_append, List.length_map]
    have hpos := Nat.le_mul_of_pos_right (s.flow.successorsOf d.target).length
      (AscendingSet.size_pos_of_not_isEmpty hempty)
    rw [hsent]
    omega

/-- Processing a delivery is paid for by what is new at its target. -/
theorem process_paid (wf : p.WellFormed) (σ : Sensitivity) {w : WorkList} {d : Delivery}
    (hpop : s.workList.pop? = some (d, w)) {r : Unit}
    (e : process p σ d { s with workList := w, processed := s.processed + 1 } = .ok (r, s')) :
    s'.visited = s.visited ∧ s'.processed = s.processed + 1 ∧
      s'.workList.toList.length + 1 + credit p s ≤ s.workList.toList.length + credit p s' := by
  cases hset : s.world.sets.get? d.target with
  | none =>
    -- without a set at the target there is no such run
    have herror : absorb d.target d.objs { s with workList := w, processed := s.processed + 1 } =
        .error .dangling := by
      refine (bind_run rfl).trans (bind_run_error (lift_run_error ?_))
      rw [Universe.absorb, Universe.setOf, hset]
      rfl
    cases (bind_run_error herror).symm.trans e
  | some set =>
    rw [process_eq hset] at e
    obtain ⟨hv, hp, hpaid⟩ := costs_followUp wf σ _ _ _ _ _ e
    have harrive := arrive_paid (p := p) hset hpop
    exact ⟨hv, hp, by omega⟩

/-- All deliveries so far are paid for. -/
def Paid (p : Program) (s : State) : Prop :=
  s.processed + s.workList.toList.length ≤ p.stmts.size * s.visited + credit p s

/-- Each step visits a method or processes a delivery, and pays for the deliveries it makes. -/
theorem step_paid (wf : p.WellFormed) {σ : Sensitivity} {budget : Option Nat} (hpaid : Paid p s)
    (e : step p σ budget s = .ok (.running s')) :
    Paid p s' ∧ s'.visited + s'.processed = s.visited + s.processed + 1 := by
  unfold Paid at hpaid ⊢
  rcases step_cases p σ budget s with ⟨m, -, h⟩ | ⟨-, -, h⟩ | ⟨-, -, h⟩ | ⟨-, -, d, w, hpop, h⟩
  · obtain ⟨_, hr, hs'⟩ := eq_running_of_map (h.symm.trans e)
    obtain rfl := Progress.running.inj hs'
    -- a visit pays for one delivery for each statement of the program
    obtain ⟨hv, hp, hspent⟩ := costs_visitMethod wf σ m _ _ _ hr
    change s'.visited = s.visited + 1 at hv
    change s'.processed = s.processed at hp
    change s'.workList.toList.length + credit p s ≤ s.workList.toList.length + _ + _ at hspent
    rw [hv, hp, Nat.mul_succ]
    exact ⟨by omega, by omega⟩
  · cases h.symm.trans e
  · cases h.symm.trans e
  · obtain ⟨_, hr, hs'⟩ := eq_running_of_map (h.symm.trans e)
    obtain rfl := Progress.running.inj hs'
    obtain ⟨hv, hp, hspent⟩ := process_paid wf σ hpop hr
    rw [hv, hp]
    exact ⟨by omega, by omega⟩

/-- After any number of steps all deliveries are paid for, and the steps taken are the methods
visited and the deliveries processed. -/
theorem steps_paid (wf : p.WellFormed) {σ : Sensitivity} {budget : Option Nat} (hpaid : Paid p s)
    {n : Nat} (e : steps p σ budget n s = .ok (.running s')) :
    Paid p s' ∧ s'.visited + s'.processed = s.visited + s.processed + n := by
  -- the sums of single steps add up
  induction n generalizing s with
  | zero =>
    cases e
    exact ⟨hpaid, rfl⟩
  | succ n ih =>
    rw [steps] at e
    cases hr : step p σ budget s with
    | error err => rw [hr] at e; cases e
    | ok r =>
      rw [hr] at e
      cases r with
      | running s₁ =>
        obtain ⟨hpaid₁, hsum₁⟩ := step_paid wf hpaid hr
        obtain ⟨hpaid', hsum'⟩ := ih hpaid₁ e
        exact ⟨hpaid', by omega⟩
      | finished s₁ completed => cases e

end Solver

end PointerAnalysis
