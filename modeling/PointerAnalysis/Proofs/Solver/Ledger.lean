import PointerAnalysis.Proofs.Solver.Marked

/-!
# What crosses an edge

An edge is sent what its source refers to when it is added, and from then on what becomes new at the
source.  So at any time during a step, not only between steps, what has crossed an edge is what its
source refers to, and no object has crossed an edge twice.

The ledger of a history keeps these facts together with the balance of the work list: everything that
was sent has been taken or is waiting.

## Main definitions

- `crossings`: what has been sent along edges.
- `Ledger`: how the deliveries in a history are related to the state it has led to.

## Main statements

- `Recorded.keeps_ledger_visitMethod`, `Ledger.process`: both sorts of step keep the ledger.
- `ledger_steps`: after any number of steps the ledger is in order.
-/

namespace PointerAnalysis

/-- Interning a location changes nothing in what locations refer to. -/
theorem Universe.holds_pointer_iff (u : Universe) (key : Pointer) (h : PointerId) (q : QObjId) :
    (u.pointer key).2.Holds h q ↔ u.Holds h q := by
  refine ⟨fun hq => ?_, Universe.holds_pointer key⟩
  rcases u.pointer_cases key with ⟨h', -, e⟩ | ⟨-, e⟩
  · rwa [e] at hq
  · -- the set of a new location is empty
    rw [e] at hq
    obtain ⟨set, hset, hq⟩ := hq
    rcases Table.get?_push_cases hset with hset | ⟨-, rfl⟩
    · exact ⟨set, hset, hq⟩
    · exact absurd hq (AscendingSet.not_mem_empty q)

namespace Solver

variable {p : Program} {σ : Sensitivity} {budget : Option Nat} {s s' : State} {H : List Event}

/-! ## Deliveries in a history -/

/-- What is sent along an edge, with the source of the edge. -/
def Event.crossing? : Event → Option (PointerId × Delivery)
  | .sent (.edge a) d => some (a, d)
  | .sent (.allocation _ _) _ | .sent (.receiver _ _ _) _ | .translated _ _ | .taken _ => none

/-- The delivery that is put on the work list. -/
def Event.sent? : Event → Option Delivery
  | .sent _ d => some d
  | .translated _ _ | .taken _ => none

/-- The delivery that is taken off the work list. -/
def Event.taken? : Event → Option Delivery
  | .taken d => some d
  | .translated _ _ | .sent _ _ => none

/-- What has been sent along edges, with the source of the edge. -/
def crossings (H : List Event) : List (PointerId × Delivery) := H.filterMap Event.crossing?

/-- The deliveries that have been sent. -/
def sent (H : List Event) : List Delivery := H.filterMap Event.sent?

/-- The deliveries that have been taken off the work list. -/
def taken (H : List Event) : List Delivery := H.filterMap Event.taken?

@[simp] theorem crossings_append (H H' : List Event) :
    crossings (H ++ H') = crossings H ++ crossings H' := List.filterMap_append

@[simp] theorem sent_append (H H' : List Event) : sent (H ++ H') = sent H ++ sent H' :=
  List.filterMap_append

@[simp] theorem taken_append (H H' : List Event) : taken (H ++ H') = taken H ++ taken H' :=
  List.filterMap_append

/-- The two have crossed different edges, or have no object in common. -/
def Apart (x y : PointerId × Delivery) : Prop :=
  x.1 = y.1 → x.2.target = y.2.target → ∀ q ∈ x.2.objs, q ∉ y.2.objs

/-- The deliveries of a history that has led to the state. -/
structure Ledger (s : State) (H : List Event) : Prop where
  /-- What has been sent has been taken or is waiting. -/
  balanced : (sent H).Perm (taken H ++ s.workList.toList)
  counted : (taken H).length = s.processed
  edge : ∀ x ∈ crossings H, s.flow.hasEdge x.1 x.2.target = true
  nonempty : ∀ x ∈ crossings H, x.2.objs.isEmpty = false
  held : ∀ x ∈ crossings H, ∀ q ∈ x.2.objs, s.world.Holds x.1 q
  /-- What the source of an edge refers to has crossed the edge. -/
  crossed : ∀ a b q, s.flow.hasEdge a b = true → s.world.Holds a q →
    ∃ x ∈ crossings H, x.1 = a ∧ x.2.target = b ∧ q ∈ x.2.objs
  apart : (crossings H).Pairwise Apart

/-- Nothing has been sent when a run begins, and there is no edge to cross. -/
theorem ledger_start (p : Program) (order : Order) : Ledger (start p order) [] where
  balanced := List.Perm.refl _
  counted := rfl
  edge x h := by cases h
  nonempty x h := by cases h
  held x h := by cases h
  crossed a b q h := by cases h
  apart := List.Pairwise.nil

/-- What crosses no edge, and changes neither the edges nor what pointers refer to, concerns the
balance only. -/
theorem Ledger.frame (hL : Ledger s H) {H' : List Event} (hcrossings : crossings H' = crossings H)
    (hflow : s'.flow = s.flow) (hholds : ∀ h q, s'.world.Holds h q ↔ s.world.Holds h q)
    (hbalanced : (sent H').Perm (taken H' ++ s'.workList.toList))
    (hcounted : (taken H').length = s'.processed) : Ledger s' H' where
  balanced := hbalanced
  counted := hcounted
  edge x hx := hflow ▸ hL.edge x (hcrossings ▸ hx)
  nonempty x hx := hL.nonempty x (hcrossings ▸ hx)
  held x hx q hq := (hholds x.1 q).2 (hL.held x (hcrossings ▸ hx) q hq)
  crossed a b q hab hq := hcrossings ▸ hL.crossed a b q (hflow ▸ hab) ((hholds a q).1 hq)
  apart := hcrossings ▸ hL.apart

/-- The events by which objects cross edges. -/
def crossingEvents (xs : List (PointerId × Delivery)) : List Event :=
  xs.map fun x => .sent (.edge x.1) x.2

@[simp] theorem crossings_crossingEvents (xs : List (PointerId × Delivery)) :
    crossings (crossingEvents xs) = xs := by
  induction xs with
  | nil => rfl
  | cons x xs ih => exact congrArg (x :: ·) ih

@[simp] theorem sent_crossingEvents (xs : List (PointerId × Delivery)) :
    sent (crossingEvents xs) = xs.map Prod.snd := by
  induction xs with
  | nil => rfl
  | cons x xs ih => exact congrArg (x.2 :: ·) ih

@[simp] theorem taken_crossingEvents (xs : List (PointerId × Delivery)) :
    taken (crossingEvents xs) = [] := by
  induction xs with
  | nil => rfl
  | cons x xs ih => exact ih

/-- Events that take nothing, and of which the deliveries wait now. -/
theorem Ledger.balanced_append (hL : Ledger s H) {H' : List Event} (htaken : taken H' = [])
    (hsent : s'.workList.toList = s.workList.toList ++ sent H') :
    (sent (H ++ H')).Perm (taken (H ++ H') ++ s'.workList.toList) := by
  rw [sent_append, taken_append, htaken, List.append_nil, hsent, ← List.append_assoc]
  exact hL.balanced.append_right _

/-- What is taken is counted when it is taken, and not by other events. -/
theorem Ledger.counted_append (hL : Ledger s H) {H' : List Event} (htaken : taken H' = [])
    (hprocessed : s'.processed = s.processed) : (taken (H ++ H')).length = s'.processed := by
  rw [taken_append, htaken, List.append_nil, hL.counted, hprocessed]

/-- The edges from `a` to some targets are crossed by a set of objects, unless it is empty. -/
def crossingsFrom (a : PointerId) (targets : List PointerId) (objs : PointsTo) :
    List (PointerId × Delivery) :=
  if objs.isEmpty then [] else targets.map fun b => (a, ⟨b, objs⟩)

/-- An edge is crossed from `a` if it leads to one of the targets and there is something to send. -/
theorem mem_crossingsFrom {a : PointerId} {targets : List PointerId} {objs : PointsTo}
    {x : PointerId × Delivery} :
    x ∈ crossingsFrom a targets objs ↔
      objs.isEmpty = false ∧ x.1 = a ∧ x.2.target ∈ targets ∧ x.2.objs = objs := by
  obtain ⟨a', b, objs'⟩ := x
  unfold crossingsFrom
  cases objs.isEmpty with
  | true => simp
  | false => simp only [Bool.false_eq_true, if_false, List.mem_map]; grind

/-- Edges to different targets are different edges. -/
theorem apart_crossingsFrom {a : PointerId} {targets : List PointerId} {objs : PointsTo}
    (h : targets.Nodup) : (crossingsFrom a targets objs).Pairwise Apart := by
  unfold crossingsFrom
  split
  · exact List.Pairwise.nil
  · exact List.pairwise_map.2 (h.imp fun hne _ e => absurd e hne)

/-- Objects cross edges that they have not crossed before. -/
theorem Ledger.cross (hL : Ledger s H) {xs : List (PointerId × Delivery)}
    (hwork : s'.workList.toList = s.workList.toList ++ xs.map Prod.snd)
    (hprocessed : s'.processed = s.processed)
    (hflow : ∀ a b, s.flow.hasEdge a b = true → s'.flow.hasEdge a b = true)
    (hholds : ∀ h q, s.world.Holds h q → s'.world.Holds h q)
    (hedge : ∀ x ∈ xs, s'.flow.hasEdge x.1 x.2.target = true)
    (hnonempty : ∀ x ∈ xs, x.2.objs.isEmpty = false)
    (hheld : ∀ x ∈ xs, ∀ q ∈ x.2.objs, s'.world.Holds x.1 q)
    (hcrossed : ∀ a b q, s'.flow.hasEdge a b = true → s'.world.Holds a q →
      s.flow.hasEdge a b = true ∧ s.world.Holds a q ∨
        ∃ x ∈ xs, x.1 = a ∧ x.2.target = b ∧ q ∈ x.2.objs)
    (hnew : ∀ x ∈ crossings H, ∀ y ∈ xs, Apart x y) (hapart : xs.Pairwise Apart) :
    Ledger s' (H ++ crossingEvents xs) where
  balanced := hL.balanced_append (taken_crossingEvents xs) (by rw [sent_crossingEvents, hwork])
  counted := hL.counted_append (taken_crossingEvents xs) hprocessed
  edge x hx := by
    rw [crossings_append, crossings_crossingEvents, List.mem_append] at hx
    exact hx.elim (fun hx => hflow _ _ (hL.edge x hx)) (hedge x)
  nonempty x hx := by
    rw [crossings_append, crossings_crossingEvents, List.mem_append] at hx
    exact hx.elim (hL.nonempty x) (hnonempty x)
  held x hx q hq := by
    rw [crossings_append, crossings_crossingEvents, List.mem_append] at hx
    exact hx.elim (fun hx => hholds _ _ (hL.held x hx q hq)) fun hx => hheld x hx q hq
  crossed a b q hab hq := by
    rw [crossings_append, crossings_crossingEvents]
    -- what has to have crossed had to before, or it crosses now
    rcases hcrossed a b q hab hq with ⟨hab, hq⟩ | ⟨x, hx, h⟩
    · obtain ⟨x, hx, h⟩ := hL.crossed a b q hab hq
      exact ⟨x, List.mem_append_left _ hx, h⟩
    · exact ⟨x, List.mem_append_right _ hx, h⟩
  apart := by
    rw [crossings_append, crossings_crossingEvents]
    exact List.pairwise_append.2 ⟨hL.apart, hapart, hnew⟩

/-! ## Changes that move nothing -/

/-- A change of the state that concerns neither the deliveries nor the edges nor what pointers refer
to. -/
structure Unmoved (s s' : State) : Prop where
  workList : s'.workList = s.workList
  processed : s'.processed = s.processed
  flow : s'.flow = s.flow
  holds : ∀ h q, s'.world.Holds h q ↔ s.world.Holds h q

/-- A change that moves nothing does not concern the ledger. -/
theorem Ledger.unmoved (hL : Ledger s H) (h : Unmoved s s') : Ledger s' H :=
  hL.frame rfl h.flow h.holds (h.workList ▸ hL.balanced) (h.processed ▸ hL.counted)

namespace Recorded

/-! ## Operations -/

section Operations

/-- A computation of which nothing is recorded, and that moves nothing. -/
theorem keeps_ledger_of_unmoved {α : Type} {x : SolverM α}
    (h : ∀ s a s', x s = .ok (a, s') → Unmoved s s') : Keeps Ledger (liftM x) :=
  .silent fun s _ a s' hL hrun => hL.unmoved (h s a s' hrun)

/-- An operation that always succeeds keeps the ledger if it moves nothing. -/
theorem keeps_ledger_modifyGet {α : Type} {f : State → α × State} (h : ∀ s, Unmoved s (f s).2) :
    Keeps Ledger (liftM (modifyGet f : SolverM α)) := by
  apply keeps_ledger_of_unmoved
  intro s a s' hrun
  have hmoved := h s
  rwa [show f s = (a, s') from Except.ok.inj hrun] at hmoved

/-- A location that is interned has no edges yet and refers to nothing. -/
theorem keeps_ledger_internPointer (key : Pointer) : Keeps Ledger (liftM (internPointer key)) :=
  keeps_ledger_modifyGet fun s => ⟨rfl, rfl, rfl, Universe.holds_pointer_iff s.world key⟩

theorem keeps_ledger_internObj (q : Qualified ObjId) : Keeps Ledger (liftM (internObj q)) :=
  keeps_ledger_modifyGet fun _ => ⟨rfl, rfl, rfl, fun _ _ => Iff.rfl⟩

theorem keeps_ledger_internSite (q : Qualified StmtId) : Keeps Ledger (liftM (internSite q)) :=
  keeps_ledger_modifyGet fun _ => ⟨rfl, rfl, rfl, fun _ _ => Iff.rfl⟩

theorem keeps_ledger_internMethod (q : Qualified MethodId) :
    Keeps Ledger (liftM (internMethod q)) :=
  keeps_ledger_modifyGet fun _ => ⟨rfl, rfl, rfl, fun _ _ => Iff.rfl⟩

theorem keeps_ledger_reach (m : QMethodId) : Keeps Ledger (liftM (reach m)) :=
  keeps_ledger_modifyGet fun _ => ⟨rfl, rfl, rfl, fun _ _ => Iff.rfl⟩

theorem keeps_ledger_addCall (e : CallEdge QSiteId QMethodId) :
    Keeps Ledger (liftM (addCall e)) :=
  keeps_ledger_modifyGet fun _ => ⟨rfl, rfl, rfl, fun _ _ => Iff.rfl⟩

/-- An object is made for a statement without anything being sent. -/
theorem keeps_ledger_objFor (i : StmtId) : Keeps Ledger (liftM (objFor p i)) := by
  apply keeps_ledger_of_unmoved
  intro s o s' hrun
  have hget : objFor p i s = _ := bind_run rfl
  cases hobj : s.heap.objFor p i with
  | ok r =>
    cases (hget.trans (bind_run (lift_run hobj))).symm.trans hrun
    exact ⟨rfl, rfl, rfl, fun _ _ => Iff.rfl⟩
  | error e => cases (hget.trans (bind_run_error (lift_run_error hobj))).symm.trans hrun

/-- A context is chosen without anything being sent. -/
theorem keeps_ledger_chooseContext (choice : ContextPool → Outcome (ContextId × ContextPool)) :
    Keeps Ledger (liftM (chooseContext choice)) := by
  apply keeps_ledger_of_unmoved
  intro s c s' hrun
  have hget : chooseContext choice s = _ := bind_run rfl
  cases hc : choice s.world.contexts with
  | ok r =>
    cases (hget.trans (bind_run (lift_run hc))).symm.trans hrun
    exact ⟨rfl, rfl, rfl, fun _ _ => Iff.rfl⟩
  | error e => cases (hget.trans (bind_run_error (lift_run_error hc))).symm.trans hrun

/-- A delivery that no edge is the cause of. -/
theorem keeps_ledger_send {cause : Cause} (hcause : ∀ a, cause ≠ .edge a) (target : PointerId)
    (objs : PointsTo) : Keeps Ledger (send cause target objs) := by
  intro s H a s' hL hrun
  cases hrun
  have hcrossings : crossings (H ++ (send cause target objs).log s) = crossings H := by
    rw [crossings_append]
    cases cause with
    | allocation m i => exact List.append_nil _
    | receiver c i q => exact List.append_nil _
    | edge a => exact absurd rfl (hcause a)
  exact hL.frame hcrossings rfl (fun _ _ => Iff.rfl)
    (hL.balanced_append rfl (WorkList.toList_push ..)) (hL.counted_append rfl rfl)

/-! ### Edges -/

/-- An edge that is there already is not crossed again. -/
theorem log_addFlow_of_hasEdge {a b : PointerId} (h : s.flow.hasEdge a b = true) :
    (addFlow a b).log s = [] := by
  show (if (s.flow.addEdge a b).1 then _ else _ : Recorded Unit).log _ = _
  rw [FlowGraph.addEdge_of_hasEdge h]
  rfl

/-- A new edge is crossed by what its source refers to. -/
theorem log_addFlow {a b : PointerId} {objs : PointsTo} (h : s.flow.hasEdge a b = false)
    (hset : s.world.sets.get? a = some objs) :
    (addFlow a b).log s = crossingEvents (crossingsFrom a [b] objs) := by
  have hsetOf : s.world.setOf a = .ok objs := Outcome.ofRow_eq_ok.2 hset
  show (if (s.flow.addEdge a b).1 then _ else _ : Recorded Unit).log _ = _
  rw [if_pos (FlowGraph.addEdge_fst h)]
  refine (log_silent_bind (lift_run hsetOf)).trans ?_
  unfold crossingsFrom
  cases objs.isEmpty with
  | true => rfl
  | false => rfl

/-- Nothing has crossed a new edge before. -/
theorem keeps_ledger_addFlow (a b : PointerId) : Keeps Ledger (addFlow a b) := by
  intro s H u s' hL hrun
  rw [run_addFlow] at hrun
  cases hedge : s.flow.hasEdge a b with
  | true =>
    cases (addFlow_eq_of_hasEdge hedge).symm.trans hrun
    rwa [log_addFlow_of_hasEdge hedge, List.append_nil]
  | false =>
    cases hset : s.world.sets.get? a with
    | none => cases (addFlow_eq_error hedge hset).symm.trans hrun
    | some objs =>
      -- the crossings are those of the new edge, by all that its source refers to now
      cases (addFlow_eq hedge hset).symm.trans hrun
      rw [log_addFlow hedge hset]
      refine hL.cross ?_ rfl (fun a' b' h => FlowGraph.hasEdge_addEdge.2 (Or.inl h))
        (fun _ _ h => h) ?_ (fun x hx => ?_) ?_ ?_ ?_ (apart_crossingsFrom (List.nodup_singleton b))
      · -- an empty set is not sent, so nothing is recorded of it either
        unfold crossingsFrom
        cases objs.isEmpty <;> simp
      · intro x hx
        obtain ⟨-, ha, hb, -⟩ := mem_crossingsFrom.1 hx
        exact FlowGraph.hasEdge_addEdge.2 (Or.inr ⟨ha, List.mem_singleton.1 hb⟩)
      · obtain ⟨hempty, -, -, hobjs⟩ := mem_crossingsFrom.1 hx
        rwa [hobjs]
      · intro x hx q hq
        obtain ⟨-, rfl, -, rfl⟩ := mem_crossingsFrom.1 hx
        exact ⟨_, hset, hq⟩
      · intro a' b' q hab hq
        rcases FlowGraph.hasEdge_addEdge.1 hab with hab | ⟨rfl, rfl⟩
        · exact Or.inl ⟨hab, hq⟩
        · -- over the new edge, `q` comes with the whole set
          obtain ⟨set, hset', hq⟩ := hq
          obtain rfl := Option.some.inj (hset.symm.trans hset')
          refine Or.inr ⟨(a', ⟨b', objs⟩), mem_crossingsFrom.2 ⟨?_, rfl, ?_, rfl⟩, rfl, rfl, hq⟩
          · exact AscendingSet.isEmpty_eq_false_iff.2 ⟨q, hq⟩
          · exact List.mem_singleton_self b'
      · -- what crossed an edge did so when the edge was there, and this one is new
        intro x hx y hy ha hb
        obtain ⟨-, rfl, hy, -⟩ := mem_crossingsFrom.1 hy
        have hused := hL.edge x hx
        rw [ha, hb, List.mem_singleton.1 hy, hedge] at hused
        cases hused

/-- Interning both ends moves nothing, so what is left is the edge between them. -/
theorem keeps_ledger_flowBetween (source target : Pointer) :
    Keeps Ledger (flowBetween source target) :=
  (keeps_ledger_internPointer source).bind fun a =>
    (keeps_ledger_internPointer target).bind fun b => keeps_ledger_addFlow a b

end Operations

/-! ## Statements -/

section Statements

/-- The edges of a call keep the ledger, each of them as any edge does. -/
theorem keeps_ledger_wire (call : Invoke) (site : Qualified StmtId) (callee : Qualified MethodId) :
    Keeps Ledger (wire p call site callee) := by
  refine (Keeps.lift _).bind fun decl => ?_
  split
  · dsimp only
    split
    · exact (Keeps.lift _).bind fun _ => .throw_bind _ _
    · refine (Keeps.forM fun x _ => keeps_ledger_flowBetween _ _).bind fun _ => ?_
      split
      · refine (keeps_ledger_internPointer _).bind fun target => ?_
        apply Keeps.forM
        intro v _
        exact (keeps_ledger_internPointer _).bind fun source => keeps_ledger_addFlow source target
      · exact .pure ()
  · exact .pure ()

/-- A recorded call keeps the ledger, whether or not it is new. -/
theorem keeps_ledger_connect (call : Invoke) (site : Qualified StmtId)
    (callee : Qualified MethodId) : Keeps Ledger (connect p call site callee) := by
  refine (keeps_ledger_internMethod _).bind fun m => ?_
  refine (keeps_ledger_internSite _).bind fun i => ?_
  refine (keeps_ledger_addCall _).bind fun fresh => ?_
  split
  · exact (keeps_ledger_reach m).bind fun _ => keeps_ledger_wire call site callee
  · exact .pure ()

theorem keeps_ledger_callStatically (c : ContextId) (i : StmtId) (call : Invoke) :
    Keeps Ledger (callStatically p σ c i call) := by
  refine (Keeps.lift _).bind fun target => ?_
  split
  · refine (Keeps.lift _).bind fun decl => ?_
    dsimp only
    split
    · exact (Keeps.lift _).bind fun _ => .throw_bind _ _
    · exact (keeps_ledger_chooseContext _).bind fun _ => keeps_ledger_connect _ _ _
  · exact .pure ()

/-- To send an object to the `this` of a callee is no crossing. -/
theorem keeps_ledger_callOn (c : ContextId) (q : QObjId) (key : Qualified ObjId) (i : StmtId)
    (call : Invoke) : Keeps Ledger (callOn p σ c q key i call) := by
  refine Keeps.get.bind fun s => (Keeps.lift _).bind fun obj => ?_
  refine (Keeps.lift _).bind fun target => ?_
  split
  · refine (Keeps.lift _).bind fun decl => ?_
    dsimp only
    split
    · exact (Keeps.lift _).bind fun _ => .throw_bind _ _
    · refine (keeps_ledger_chooseContext _).bind fun _ => ?_
      split
      · refine (keeps_ledger_internPointer _).bind fun target => ?_
        exact (keeps_ledger_send (by simp) _ _).bind fun _ => keeps_ledger_connect _ _ _
      · exact keeps_ledger_connect _ _ _
  · exact .pure ()

/-- To send an object from its allocation is no crossing; all else that a visit sends goes along
edges. -/
theorem keeps_ledger_visitStmt (m : QMethodId) (c : ContextId) (i : StmtId) (stmt : Stmt) :
    Keeps Ledger (visitStmt p σ m c i stmt) := by
  cases stmt with
  | alloc lhs type =>
    refine (keeps_ledger_objFor i).bind fun o => (keeps_ledger_chooseContext _).bind fun h => ?_
    refine (keeps_ledger_internObj _).bind fun q => (keeps_ledger_internPointer _).bind fun t => ?_
    exact keeps_ledger_send (by simp) _ _
  | copy lhs rhs => exact keeps_ledger_flowBetween _ _
  | load lhs base field =>
    cases base with
    | none => exact (Keeps.lift _).bind fun _ => keeps_ledger_flowBetween _ _
    | some base => exact .pure ()
  | store base field rhs =>
    cases base with
    | none => exact (Keeps.lift _).bind fun _ => keeps_ledger_flowBetween _ _
    | some base => exact .pure ()
  | invoke call =>
    rw [visitStmt]
    split
    · exact keeps_ledger_callStatically c i call
    · exact .pure ()
  | loadArray _ _ => exact .pure ()
  | storeArray _ _ => exact .pure ()
  | ret _ => exact .pure ()
  | nop => exact .pure ()

theorem keeps_ledger_dereferenceStmt (c : ContextId) (q : QObjId) (key : Qualified ObjId)
    (i : StmtId) (stmt : Stmt) : Keeps Ledger (dereferenceStmt p σ c q key i stmt) := by
  cases stmt with
  | store base field rhs => exact (Keeps.lift _).bind fun _ => keeps_ledger_flowBetween _ _
  | load lhs base field => exact (Keeps.lift _).bind fun _ => keeps_ledger_flowBetween _ _
  | storeArray base rhs => exact keeps_ledger_flowBetween _ _
  | loadArray lhs base => exact keeps_ledger_flowBetween _ _
  | invoke call => exact keeps_ledger_callOn c q key i call
  | alloc _ _ => exact .pure ()
  | copy _ _ => exact .pure ()
  | ret _ => exact .pure ()
  | nop => exact .pure ()

/-- To note that a statement is translated changes nothing in the ledger. -/
theorem keeps_ledger_translate (m : QMethodId) (i : StmtId) : Keeps Ledger (translate m i) := by
  intro s H u s' hL hrun
  cases hrun
  refine hL.frame ?_ rfl (fun _ _ => Iff.rfl) (hL.balanced_append rfl ?_) (hL.counted_append rfl rfl)
  · rw [crossings_append]
    exact List.append_nil _
  · exact (List.append_nil _).symm

/-- A visit keeps the ledger in order, statement by statement. -/
theorem keeps_ledger_visitMethod (m : QMethodId) : Keeps Ledger (visitMethod p σ m) := by
  refine Keeps.get.bind fun s => (Keeps.lift _).bind fun q => (Keeps.lift _).bind fun decl => ?_
  split
  · apply Keeps.forM
    intro i _
    refine (Keeps.lift _).bind fun stmt => (keeps_ledger_translate m i).bind fun _ => ?_
    exact keeps_ledger_visitStmt m _ i stmt
  · exact .pure ()

/-- What is done about objects that are new at a pointer keeps the ledger in order. -/
theorem keeps_ledger_followUp (target : PointerId) (fresh : PointsTo) :
    Keeps Ledger (followUp p σ target fresh) := by
  unfold followUp
  split
  · refine Keeps.get.bind fun s => (Keeps.lift _).bind fun key => ?_
    split
    · refine Keeps.forM fun q _ => (Keeps.lift _).bind fun uses => ?_
      refine Keeps.get.bind fun s => (Keeps.lift _).bind fun key => Keeps.forM fun i _ => ?_
      exact (Keeps.lift _).bind fun stmt => keeps_ledger_dereferenceStmt _ q key i stmt
    · exact .pure ()
  · exact .pure ()

end Statements

/-! ## Arrivals -/

/-- The same objects cross one edge after the other. -/
theorem log_forM_send (a : PointerId) (objs : PointsTo) (targets : List PointerId) (s : State) :
    (targets.forM fun b => send (.edge a) b objs).log s =
      crossingEvents (targets.map fun b => (a, ⟨b, objs⟩)) := by
  induction targets generalizing s with
  | nil => rfl
  | cons b targets ih =>
    rw [List.forM_eq_forM] at ih ⊢
    rw [List.forM_cons]
    exact congrArg (.sent (.edge a) ⟨b, objs⟩ :: ·) (ih _)

/-- When a delivery arrives, what is new at its target crosses all edges from there. -/
theorem log_absorb {target : PointerId} {objs set : PointsTo}
    (hset : s.world.sets.get? target = some set) :
    (absorb target objs).log s = crossingEvents
      (crossingsFrom target (s.flow.successorsOf target) (set.absorb objs).2) := by
  have hworld : s.world.absorb target objs = .ok ((set.absorb objs).2,
      { s.world with sets := s.world.sets.modify target fun _ => (set.absorb objs).1 }) := by
    unfold Universe.absorb Universe.setOf
    rw [hset]
    rfl
  refine (log_silent_bind rfl).trans ((log_silent_bind (lift_run hworld)).trans ?_)
  refine (log_silent_bind rfl).trans ?_
  unfold crossingsFrom
  cases (set.absorb objs).2.isEmpty with
  | true => rfl
  | false =>
    refine (log_bind ..).trans ?_
    -- nothing is recorded after the last edge
    rw [log_forM_send]
    split
    · exact List.append_nil _
    · exact List.append_nil _

end Recorded

section Arrivals

variable {w : WorkList} {d : Delivery} {set : PointsTo}

/-- A delivery is taken off the work list. -/
theorem Ledger.take (hL : Ledger s H) (hpop : s.workList.pop? = some (d, w)) :
    Ledger { s with workList := w, processed := s.processed + 1 } (H ++ [.taken d]) := by
  have hcrossings : crossings (H ++ [.taken d]) = crossings H := by
    rw [crossings_append]
    exact List.append_nil _
  -- whichever end it is taken from, the others keep waiting
  have hrest : s.workList.toList.Perm (d :: w.toList) := by
    rw [WorkList.toList_pop? hpop]
    cases s.workList.order with
    | fifo => exact List.Perm.refl _
    | lifo => exact List.perm_append_singleton d _
  refine hL.frame hcrossings rfl (fun _ _ => Iff.rfl) ?_ ?_
  · rw [sent_append, taken_append, List.append_assoc]
    exact (List.append_nil (sent H)).symm ▸ hL.balanced.trans (hrest.append_left _)
  · rw [taken_append, List.length_append, hL.counted]
    rfl

/-- What is new at the target of a delivery crosses the edges from there, and has not crossed them
before. -/
theorem Ledger.arrive (hL : Ledger s H) (hv : Valid p σ s) (hpop : s.workList.pop? = some (d, w))
    (hset : s.world.sets.get? d.target = some set) :
    Ledger (arrive s w d.target d.objs set) (H ++ [.taken d] ++ crossingEvents
      (crossingsFrom d.target (s.flow.successorsOf d.target) (set.absorb d.objs).2)) := by
  have hd := hv.pending d ((WorkList.mem_toList_pop? hpop).2 (Or.inl rfl))
  have hnew : ∀ q, q ∈ (set.absorb d.objs).2 ↔ q ∈ d.objs ∧ q ∉ set := fun q =>
    AscendingSet.mem_absorb_snd (hv.ascending d.target set hset) hd.ascending
  have hold : ∀ h q, s.world.Holds h q →
      (Solver.arrive s w d.target d.objs set).world.Holds h q := fun h q hq =>
    (holds_arrive hset).2 (Or.inl hq)
  refine (hL.take hpop).cross ?_ rfl (fun _ _ h => h) hold ?_ (fun x hx => ?_) (fun x hx q hq => ?_)
    (fun a b q hab hq => ?_) (fun x hx y hy ha _ q hq hq' => ?_)
    (apart_crossingsFrom (hv.counted.nodup d.target))
  · -- the deliveries are put on the work list in the order of the edges
    unfold Solver.arrive crossingsFrom
    dsimp only
    cases (set.absorb d.objs).2.isEmpty <;> simp [toList_foldl_push]
  · intro x hx
    obtain ⟨-, ha, hb, -⟩ := mem_crossingsFrom.1 hx
    rw [ha]
    exact FlowGraph.hasEdge_iff.2 hb
  · obtain ⟨hempty, -, -, hobjs⟩ := mem_crossingsFrom.1 hx
    rwa [hobjs]
  · obtain ⟨-, ha, -, hobjs⟩ := mem_crossingsFrom.1 hx
    rw [hobjs] at hq
    exact (holds_arrive hset).2 (Or.inr ⟨ha, ((hnew q).1 hq).1⟩)
  · -- an object is new at the source, or it was there before
    rcases (holds_arrive hset).1 hq with hq' | ⟨rfl, hq'⟩
    · exact Or.inl ⟨hab, hq'⟩
    · by_cases hin : q ∈ set
      · exact Or.inl ⟨hab, set, hset, hin⟩
      · have hfresh : q ∈ (set.absorb d.objs).2 := (hnew q).2 ⟨hq', hin⟩
        refine Or.inr ⟨(d.target, ⟨b, (set.absorb d.objs).2⟩), mem_crossingsFrom.2 ⟨?_, rfl, ?_, rfl⟩,
          rfl, rfl, hfresh⟩
        · exact AscendingSet.isEmpty_eq_false_iff.2 ⟨q, hfresh⟩
        · exact FlowGraph.hasEdge_iff.1 hab
  · -- what has crossed an edge from here is in the set already, so it is not new
    obtain ⟨-, ha', -, hobjs⟩ := mem_crossingsFrom.1 hy
    rw [hobjs] at hq'
    obtain ⟨set', hset', hq⟩ := (hL.take hpop).held x hx q hq
    rw [ha, ha'] at hset'
    obtain rfl := Option.some.inj (hset.symm.trans hset')
    exact ((hnew q).1 hq').2 hq

end Arrivals

/-! ## Steps -/

/-- Processing a delivery keeps the ledger in order. -/
theorem Ledger.process (hL : Ledger s H) (hv : Valid p σ s) {d : Delivery} {w : WorkList}
    (hpop : s.workList.pop? = some (d, w))
    (hrun : process p σ d { s with workList := w, processed := s.processed + 1 } = .ok ((), s')) :
    Ledger s' (H ++ .taken d ::
      (Recorded.process p σ d).log { s with workList := w, processed := s.processed + 1 }) := by
  obtain ⟨x, hx⟩ := (hv.pending d ((WorkList.mem_toList_pop? hpop).2 (Or.inl rfl))).target
  obtain ⟨set, hset⟩ := hv.exists_set hx
  -- the arrival is dealt with as a whole, because the set and the deliveries change in turn
  have habsorb : (Recorded.absorb d.target d.objs).run
      { s with workList := w, processed := s.processed + 1 } =
        .ok ((set.absorb d.objs).2, Solver.arrive s w d.target d.objs set) := by
    rw [Recorded.run_absorb]
    exact absorb_eq hset
  have hrest := Recorded.keeps_ledger_followUp (p := p) (σ := σ) d.target (set.absorb d.objs).2 _ _
    () s' (hL.arrive hv hpop hset) (by
      rw [Recorded.run_followUp]
      exact (process_eq hset).symm.trans hrun)
  rw [Recorded.process, Recorded.log_bind_of_ok habsorb, Recorded.log_absorb (s := { s with
    workList := w, processed := s.processed + 1 }) hset]
  simpa using hrest

/-- After any number of steps the ledger is in order. -/
theorem ledger_steps (wf : p.WellFormed) {order : Order} {n : Nat} {r : Progress}
    (h : steps p σ budget n (start p order) = .ok r) :
    Ledger r.state (history p σ budget n (start p order)) := by
  refine (history_keeps (I := fun s H => Settled p σ s ∧ Ledger s H) (H := []) ?_
    ⟨settled_start p σ order, ledger_start p order⟩ h).2
  intro s H s' hI hstep
  -- the ledger of a step needs the state to be settled, so both are carried along
  obtain ⟨hs, hL⟩ := hI
  have hsound : Sound p σ budget (step p σ budget s) := hs.step_sound wf
  rw [hstep] at hsound
  refine ⟨hsound, ?_⟩
  rcases stepLog_cases hstep with ⟨m, -, hrun, e⟩ | ⟨d, w, hpop, hrun, e⟩
  · rw [e]
    -- the ledger does not depend on how many methods have been visited
    have hvisited : Ledger { s with visited := s.visited + 1 } H := { hL with }
    refine Recorded.keeps_ledger_visitMethod m _ H () s' hvisited ?_
    rwa [Recorded.run_visitMethod]
  · rw [e]
    exact hL.process hs.valid hpop hrun

end Solver

end PointerAnalysis
