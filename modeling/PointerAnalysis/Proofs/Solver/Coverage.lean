import PointerAnalysis.Proofs.Context.Choice
import PointerAnalysis.Proofs.Solver.Marked

/-!
# Coverage by the work list

While a delivery is processed, edges are added whose source already refers to objects, and methods
become reachable that have not been visited.  When the run comes back to its work list, and every
reachable method has been visited, all of that has been made up for: whatever the state still lacks
is in the work list.

What is said here is said by handles, as the state has it: an edge is between rows of the table of
pointers, and a context is one that the sensitivity answers with and that is in the pool already.

## Main definitions

- `State.Due`: an object is in a set, or on its way there.
- `VisitCovered`, `DereferenceCovered`: what a statement adds is in the state, or due.
- `Covered`: nothing is lacking but what is due.

## Main statements

- `Settled.covered`: settled states lack nothing but what is due.
- `steps_covered`: neither does a run whenever it comes back to its work list.
-/

namespace PointerAnalysis

namespace Solver

variable {p : Program} {σ : Sensitivity} {budget : Option Nat} {s : State} {H : List Event}

/-! ## What is in a state -/

namespace State

/-- The pointer refers to the object, or the work list has a delivery of it. -/
def Due (s : State) (h : PointerId) (q : QObjId) : Prop :=
  s.world.Holds h q ∨ Awaits s.workList.toList h q

/-- The object is due at the pointer with the key. -/
def DueAt (s : State) (key : Pointer) (q : QObjId) : Prop :=
  ∃ h, s.world.pointers.get? h = some key ∧ s.Due h q

/-- The flow graph has an edge between the pointers with the keys. -/
def HasFlow (s : State) (x y : Pointer) : Prop :=
  ∃ a b, s.world.pointers.get? a = some x ∧ s.world.pointers.get? b = some y ∧
    s.flow.hasEdge a b = true

/-- The call graph has an edge from the call site to the method. -/
def HasCall (s : State) (kind : CallKind) (site : Qualified StmtId) (callee : Qualified MethodId) :
    Prop :=
  ∃ e ∈ s.calls.edges, e.kind = kind ∧ s.world.sites.get? e.site = some site ∧
    s.world.methods.get? e.callee = some callee

end State

/-! ## What statements add -/

/-- What a statement adds when its method becomes reachable under the context `c` has been added, and
the object that it allocates is due. -/
def VisitCovered (p : Program) (σ : Sensitivity) (s : State) (c : ContextId) (i : StmtId) :
    Stmt → Prop
  | .alloc lhs _ => ∃ q heapContext o obj,
      s.world.objs.get? q = some ⟨heapContext, o⟩ ∧
      s.heap.objects.get? o = some obj ∧ obj.site = i ∧
      σ.heapContext s.world.contexts c = .ok (heapContext, s.world.contexts) ∧
      s.DueAt (.var c lhs) q
  | .copy lhs rhs => s.HasFlow (.var c rhs) (.var c lhs)
  | .load lhs none field => ∃ f, resolveFieldAs p true field = .ok f ∧
      s.HasFlow (.staticField f) (.var c lhs)
  | .store none field rhs => ∃ f, resolveFieldAs p true field = .ok f ∧
      s.HasFlow (.var c rhs) (.staticField f)
  | .invoke call => call.kind = .static → ∃ target, targetOf p call none = .ok target ∧
      ∀ m, target = some m → ∃ decl c', p.methodAt m = .ok decl ∧ decl.isStatic = true ∧
        σ.staticContext s.world.contexts ⟨c, i⟩ = .ok (c', s.world.contexts) ∧
        s.HasCall call.kind ⟨c, i⟩ ⟨c', m⟩
  | .load _ (some _) _ | .store (some _) _ _ | .loadArray _ _ | .storeArray _ _ | .ret _ | .nop =>
    True

/-- What a statement adds when the variable that it follows refers to `q` under the context `c` has
been added, and `q` is due at the `this` of a method that the statement calls. -/
def DereferenceCovered (p : Program) (σ : Sensitivity) (s : State) (c : ContextId) (q : QObjId)
    (i : StmtId) : Stmt → Prop
  | .store _ field rhs => ∃ f, resolveFieldAs p false field = .ok f ∧
      s.HasFlow (.var c rhs) (.instanceField q f)
  | .load lhs _ field => ∃ f, resolveFieldAs p false field = .ok f ∧
      s.HasFlow (.instanceField q f) (.var c lhs)
  | .storeArray _ rhs => s.HasFlow (.var c rhs) (.arrayElems q)
  | .loadArray lhs _ => s.HasFlow (.arrayElems q) (.var c lhs)
  | .invoke call => ∃ key obj target,
      s.world.objs.get? q = some key ∧ s.heap.objects.get? key.entity = some obj ∧
      targetOf p call (some obj.type) = .ok target ∧
      ∀ m, target = some m → ∃ decl c', p.methodAt m = .ok decl ∧ decl.isStatic = false ∧
        σ.instanceContext s.world.contexts ⟨c, i⟩ key obj.containerClass =
          .ok (c', s.world.contexts) ∧
        s.HasCall call.kind ⟨c, i⟩ ⟨c', m⟩ ∧
        ∀ self, decl.body.bind Body.self = some self → s.DueAt (.var c' self) q
  | .alloc _ _ | .copy _ _ | .ret _ | .nop => True

/-- A state lacks nothing but what is due, and the history that has led to it has translated every
reachable method once. -/
structure Covered (p : Program) (σ : Sensitivity) (s : State) (H : List Event) : Prop where
  /-- What the source of an edge refers to is due at its target. -/
  edges : ∀ a b q, s.flow.hasEdge a b = true → s.world.Holds a q → s.Due b q
  translations : translations H =
    s.calls.reachable.flatMap fun m => (statementsAt p s.world m).map fun i => (m, i)
  once : (Solver.translations H).Nodup
  visits : ∀ m ∈ s.calls.reachable, ∃ key, s.world.methods.get? m = some key ∧
    ∀ i stmt, p.Executes key.entity i stmt → VisitCovered p σ s key.context i stmt
  dereferences : ∀ h c v q, s.world.pointers.get? h = some (.var c v) → s.world.Holds h q →
    ∀ i stmt, p.stmtAt i = .ok stmt → stmt.base? = some v → DereferenceCovered p σ s c q i stmt

/-! ## From facts to handles -/

section Facts

variable (hv : Valid p σ s)
include hv

theorem Valid.dueAt {key : Pointer} {x : PointerName} {q : QObjId} {o : ObjName}
    (h : s.Knows (.refers x o)) (hkey : s.world.pointerKeyName? s.heap key = some x)
    (hq : s.world.objName? s.heap q = some o) : s.DueAt key q := by
  obtain ⟨h, q', hx, ho, hdue⟩ := h
  obtain rfl := hv.rows.faithful.obj_inj hq ho
  exact ⟨h, hv.rows.faithful.get?_pointer hx hkey, hdue⟩

theorem Valid.hasFlow {key key' : Pointer} {x y : PointerName} (h : s.Knows (.flows x y))
    (hkey : s.world.pointerKeyName? s.heap key = some x)
    (hkey' : s.world.pointerKeyName? s.heap key' = some y) : s.HasFlow key key' := by
  obtain ⟨a, b, hab, ha, hb⟩ := h
  exact ⟨a, b, hv.rows.faithful.get?_pointer ha hkey, hv.rows.faithful.get?_pointer hb hkey', hab⟩

/-- The context of the callee is the one that is chosen by name. -/
theorem Valid.hasCall {kind : CallKind} {c : ContextId} {t t' : ContextName} {i : StmtId}
    {m : MethodId} (h : s.Knows (.calls kind t i t' m))
    (hc : s.world.contextName? s.heap c = some t)
    {choice : ContextPool → Outcome (ContextId × ContextPool)}
    (hchoice : Chooses s.heap s.world.contexts choice t') :
    ∃ c', choice s.world.contexts = .ok (c', s.world.contexts) ∧
      s.world.contextName? s.heap c' = some t' ∧ s.HasCall kind ⟨c, i⟩ ⟨c', m⟩ := by
  obtain ⟨e, he, hkind, hsite, hm⟩ := h
  obtain ⟨⟨c', m'⟩, hget, hkey⟩ := Option.bind_eq_some_iff.1 hm
  obtain ⟨hc', rfl⟩ := Universe.keyName?_eq_some.1 hkey
  have hsiteName : s.world.keyName? s.heap (⟨c, i⟩ : Qualified StmtId) = some (t, i) :=
    Universe.keyName?_eq_some.2 ⟨hc, rfl⟩
  exact ⟨c', hchoice.eq_of_contextName? hv.rows.faithful hc', hc',
    e, he, hkind, hv.rows.faithful.get?_site hsite hsiteName, hget⟩

end Facts

/-! ## Statements that are settled -/

/-- The object that a settled allocation makes is due at its variable. -/
theorem Valid.allocation_covered (hv : Valid p σ s) {c : ContextId} {t : ContextName} {i : StmtId}
    {lhs : VarId} {type : RefType} (ht : s.world.contextName? s.heap c = some t)
    (h : s.Knows (.refers (.var t lhs) ⟨σ.heapName t, i⟩)) :
    VisitCovered p σ s c i (.alloc lhs type) := by
  obtain ⟨-, q, -, hq, -⟩ := id h
  obtain ⟨⟨heapContext, o⟩, hget, hkey⟩ := Option.bind_eq_some_iff.1 hq
  obtain ⟨hcontext, obj, hobj, hsite⟩ := Universe.objKeyName?_eq_some.1 hkey
  have hchoice := Sensitivity.chooses_heapContext (σ := σ) hv.rows.faithful.contexts
    hv.rows.empty ht
  -- the object has its heap context already, so to choose that context adds nothing to the pool
  exact ⟨q, heapContext, o, obj, hget, hobj, hsite,
    hchoice.eq_of_contextName? hv.rows.faithful hcontext,
    hv.dueAt h (Universe.pointerKeyName?_eq_var.2 ⟨c, rfl, ht⟩) hq⟩

section Settled

variable (wf : p.WellFormed) (hv : Valid p σ s) {c : ContextId} {t : ContextName} {i : StmtId}
  (ht : s.world.contextName? s.heap c = some t)
include wf hv ht

/-- A settled statement of a reachable method is covered. -/
theorem VisitSettled.covered {stmt : Stmt} (hs : p.stmtAt i = .ok stmt)
    (h : VisitSettled p σ s.Knows t i stmt) : VisitCovered p σ s c i stmt := by
  have hvar : ∀ v, s.world.pointerKeyName? s.heap (.var c v) = some (.var t v) := fun v =>
    Universe.pointerKeyName?_eq_var.2 ⟨c, rfl, ht⟩
  cases stmt with
  | alloc lhs type => exact hv.allocation_covered ht (h.1 _ .alloc)
  | copy lhs rhs => exact hv.hasFlow (h.1 _ .copy) (hvar rhs) (hvar lhs)
  | load lhs base field =>
    cases base with
    | some base => trivial
    | none =>
      obtain ⟨f, hf⟩ := wf.exists_field (wf.stmt_classes hs (List.mem_singleton_self _))
        fun e he => h.2 e (.load he)
      exact ⟨f, hf, hv.hasFlow (h.1 _ (.load hf)) rfl (hvar lhs)⟩
  | store base field rhs =>
    cases base with
    | some base => trivial
    | none =>
      obtain ⟨f, hf⟩ := wf.exists_field (wf.stmt_classes hs (List.mem_singleton_self _))
        fun e he => h.2 e (.store he)
      exact ⟨f, hf, hv.hasFlow (h.1 _ (.store hf)) (hvar rhs) rfl⟩
  | invoke call =>
    intro hkind
    obtain ⟨target, htarget, hhas⟩ := wf.exists_targetOf
      (wf.stmt_classes hs (List.mem_singleton_self _)) none (by intro x hx; cases hx)
    refine ⟨target, htarget, fun m hm => ?_⟩
    obtain rfl := hm
    -- an instance method would have ended the run with an error
    obtain ⟨decl, hdecl, hstatic⟩ := wf.exists_decl true (hhas m rfl)
      fun decl signature hd hs hsig => h.2 _ (.call hkind htarget hd hs hsig)
    obtain ⟨c', hc', -, hcall⟩ := hv.hasCall (h.1 _ (.call hkind htarget hdecl hstatic)) ht
      (Sensitivity.chooses_staticContext hv.rows.faithful.contexts hv.rows.empty ⟨c, i⟩ ht)
    exact ⟨decl, c', hdecl, hstatic, hc', hcall⟩
  | loadArray _ _ | storeArray _ _ | ret _ | nop => trivial

/-- A statement that is settled for an object is covered for it. -/
theorem DereferenceSettled.covered {q : QObjId} {o : ObjName} {stmt : Stmt}
    (ho : s.world.objName? s.heap q = some o) (hs : p.stmtAt i = .ok stmt)
    (h : DereferenceSettled p σ s.Knows t o i stmt) : DereferenceCovered p σ s c q i stmt := by
  have hvar : ∀ v, s.world.pointerKeyName? s.heap (.var c v) = some (.var t v) := fun v =>
    Universe.pointerKeyName?_eq_var.2 ⟨c, rfl, ht⟩
  have hfield : ∀ f, s.world.pointerKeyName? s.heap (.instanceField q f) =
      some (.instanceField o f) := fun f =>
    Universe.pointerKeyName?_eq_instanceField.2 ⟨q, rfl, ho⟩
  have helems : s.world.pointerKeyName? s.heap (.arrayElems q) = some (.arrayElems o) :=
    Universe.pointerKeyName?_eq_arrayElems.2 ⟨q, rfl, ho⟩
  cases stmt with
  | store base field rhs =>
    obtain ⟨f, hf⟩ := wf.exists_field (wf.stmt_classes hs (List.mem_singleton_self _))
      fun e he => h.2 e (.store he)
    exact ⟨f, hf, hv.hasFlow (h.1 _ (.store hf)) (hvar rhs) (hfield f)⟩
  | load lhs base field =>
    obtain ⟨f, hf⟩ := wf.exists_field (wf.stmt_classes hs (List.mem_singleton_self _))
      fun e he => h.2 e (.load he)
    exact ⟨f, hf, hv.hasFlow (h.1 _ (.load hf)) (hfield f) (hvar lhs)⟩
  | storeArray base rhs => exact hv.hasFlow (h.1 _ .storeArray) (hvar rhs) helems
  | loadArray lhs base => exact hv.hasFlow (h.1 _ .loadArray) helems (hvar lhs)
  | invoke call =>
    -- the rules know the object by its site, the run by its row
    obtain ⟨key, hget, hkey⟩ := Option.bind_eq_some_iff.1 ho
    obtain ⟨hcontext, obj, hobj, hsite⟩ := Universe.objKeyName?_eq_some.1 hkey
    obtain ⟨hallocates, hwritten, -⟩ := hv.rows.heap _ obj hobj
    rw [hsite] at hallocates hwritten
    obtain ⟨target, htarget, hhas⟩ := wf.exists_targetOf
      (wf.stmt_classes hs (List.mem_singleton_self _)) (some obj.type) (by
        intro type e
        cases e
        exact has_base_of_allocates wf hallocates)
    refine ⟨key, obj, target, hget, hobj, htarget, fun m hm => ?_⟩
    obtain rfl := hm
    -- a static method would have ended the run with an error
    obtain ⟨decl, hdecl, hstatic⟩ := wf.exists_decl false (hhas m rfl)
      fun decl signature hd hs hsig => h.2 _ (.call hallocates htarget hd hs hsig)
    obtain ⟨c', hc', hname, hcall⟩ :=
      hv.hasCall (h.1 _ (.call hallocates hwritten htarget hdecl hstatic)) ht
        (Sensitivity.chooses_instanceContext hv.rows.faithful.contexts hv.rows.empty ⟨c, i⟩
          ht hcontext hobj hsite)
    refine ⟨decl, c', hdecl, hstatic, hc', hcall, fun self hself => ?_⟩
    exact hv.dueAt (h.1 _ (.self hallocates hwritten htarget hdecl hstatic hself))
      (Universe.pointerKeyName?_eq_var.2 ⟨c', rfl, hname⟩) ho
  | alloc _ _ | copy _ _ | ret _ | nop => trivial

end Settled

/-! ## States -/

theorem nodup_statementsOf (wf : p.WellFormed) (m : MethodId) : (p.statementsOf m).Nodup := by
  unfold Program.statementsOf
  split
  case h_1 decl hdecl =>
    cases hbody : decl.body with
    | none => exact List.nodup_nil
    | some body => exact (wf.bodyStmts m decl (Outcome.ofRow_eq_ok.1 hdecl) body hbody).1
  case h_2 => exact List.nodup_nil

/-- Methods are listed once, and so are the statements of each. -/
theorem nodup_statementsBefore (wf : p.WellFormed) (hv : Valid p σ s) (n : Nat) :
    (statementsBefore p s n id).Nodup := by
  refine List.nodup_flatMap.2 ⟨fun m _ => ?_, ?_⟩
  · refine List.Nodup.map (fun i j e => (Prod.mk.inj e).2) ?_
    unfold statementsAt
    cases s.world.methods.get? m with
    | none => exact List.nodup_nil
    | some q => exact nodup_statementsOf wf q.entity
  · -- statements of two methods are told apart by the methods
    refine (hv.nodup.sublist (List.take_sublist _ _)).imp fun {m m'} hne => ?_
    intro x hx hx'
    obtain ⟨i, -, rfl⟩ := List.mem_map.1 hx
    obtain ⟨j, -, e⟩ := List.mem_map.1 hx'
    exact hne (Prod.mk.inj e).1.symm

/-- When every reachable method has been visited, a settled state lacks nothing but what is due. -/
theorem Settled.covered (hs : Settled p σ s) (wf : p.WellFormed) (hM : Marked p s H)
    (hvisited : s.calls.reachable.length ≤ s.visited) : Covered p σ s H where
  edges := hs.valid.covered
  translations := by
    -- all reachable methods are among those visited
    rw [hM.translations, statementsBefore, List.take_of_length_le hvisited]
    rfl
  once := hM.translations ▸ nodup_statementsBefore wf hs.valid _
  visits m hm := by
    obtain ⟨t, entity, hname, hsettled⟩ := hs.methodSettled hvisited hm
    obtain ⟨key, hget, hkey⟩ := Option.bind_eq_some_iff.1 hname
    obtain ⟨ht, rfl⟩ := Universe.keyName?_eq_some.1 hkey
    refine ⟨key, hget, fun i stmt hx => ?_⟩
    obtain ⟨-, -, -, -, -, hstmt⟩ := id hx
    exact (hsettled i stmt hx).covered wf hs.valid ht hstmt
  dereferences h c v q hget hq i stmt hstmt hbase := by
    obtain ⟨x, o, hx, ho, hsettled⟩ := hs.dereferenced h q hq
    -- the name of the pointer is that of the variable
    obtain ⟨key, hget', hkey⟩ := Option.bind_eq_some_iff.1 hx
    obtain rfl := Option.some.inj (hget.symm.trans hget')
    obtain ⟨t, ht, rfl⟩ := Option.map_eq_some_iff.1 hkey
    exact (hsettled t v rfl i stmt hstmt hbase).covered wf hs.valid ht ho hstmt

/-! ## Runs -/

/-- Whenever a run comes back to its work list and no method is left to visit, the state lacks nothing
but what is due, and every statement of every reachable method has been translated once. -/
theorem steps_covered (hp : p.Built) {order : Order} {n : Nat} {r : Progress}
    (h : steps p σ budget n (start p order) = .ok r)
    (hvisited : r.state.calls.reachable.length ≤ r.state.visited) :
    Covered p σ r.state (history p σ budget n (start p order)) := by
  obtain ⟨hs, hM⟩ := marked_steps hp.wellFormed h
  exact hs.covered hp.wellFormed hM hvisited

/-- After three steps both methods of the box program have been visited, and two deliveries wait:
the box is due at the `this` and at the parameter of the method that it is put in. -/
theorem boxProgram_covered :
    ∃ r, boxProgram.Built ∧
      steps boxProgram (.object 1) none 3 (start boxProgram .lifo) = .ok r ∧
      r.state.calls.reachable.length = 2 ∧ r.state.visited = 2 ∧
      r.state.workList.toList.length = 2 ∧
      Covered boxProgram (.object 1) r.state
        (history boxProgram (.object 1) none 3 (start boxProgram .lifo)) := by
  have hrun : ((steps boxProgram (.object 1) none 3 (start boxProgram .lifo)).map fun r =>
      (r.state.calls.reachable.length, r.state.visited, r.state.workList.toList.length)).toOption =
      some (2, 2, 2) := by
    decide +kernel
  obtain ⟨r, hr, hresult⟩ := Outcome.exists_of_toOption_map hrun
  obtain ⟨hreachable, hrest⟩ := Prod.mk.inj hresult
  obtain ⟨hvisited, hwaiting⟩ := Prod.mk.inj hrest
  exact ⟨r, boxProgram_built, hr, hreachable, hvisited, hwaiting,
    steps_covered boxProgram_built hr (by omega)⟩

end Solver

end PointerAnalysis
