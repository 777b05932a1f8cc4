import PointerAnalysis.Proofs.Program.Ownership
import PointerAnalysis.Proofs.Solver.Traces

/-!
# Rooted states

Nothing is in a state of a run without a reason.  Every method that can run, apart from the entry,
is called by one that was found earlier; every call is made by a method that can run, and its
target is selected by the program or by an object that the receiver refers to; every variable in use
belongs to a method that can run.  This holds throughout a run, so it holds of runs that are stopped
by a budget as well.

## Main definitions

- `Selects`: why a call runs a method.
- `Reason`: why a call is in the graph.
- `Rooted`: everything has its reason.

## Main statements

- `Rooted.move`: moves keep states rooted.
- `rooted_of_solve`: the output of a run is rooted.
-/

namespace PointerAnalysis

namespace Solver

variable {p : Program} {σ : Sensitivity} {s s' : State}

/-! ## Reasons -/

section Reasons

variable (p : Program) (u : Universe) (heap : Heap)

/-- A call under a context runs a method: the call is static, or its receiver refers to an object
that has the method. -/
inductive Selects (c : ContextId) (call : Invoke) (m : MethodId) : Prop where
  | static (hk : call.kind = .static) (ht : targetOf p call none = .ok (some m))
  | receiver {v : VarId} {h : PointerId} {q : QObjId} {key : Qualified ObjId} {obj : Obj}
      (hb : call.receiver = some v) (hh : u.pointers.get? h = some (.var c v))
      (hq : u.Holds h q) (hkey : u.objs.get? q = some key)
      (hobj : heap.objects.get? key.entity = some obj)
      (ht : targetOf p call (some obj.type) = .ok (some m))

/-- The reason for a call: the statement `i` under the context `c`, in the method `caller` that can
run there, makes the call and selects the method `m`. -/
structure Reason (calls : CallGraph QSiteId QMethodId) (e : CallEdge QSiteId QMethodId)
    (c : ContextId) (i : StmtId) (caller : MethodId) (m : Qualified MethodId) (call : Invoke) :
    Prop where
  site : u.sites.get? e.site = some ⟨c, i⟩
  callee : u.methods.get? e.callee = some m
  stmt : p.stmtAt i = .ok (.invoke call)
  kind : e.kind = call.kind
  owner : p.ownerOf i = .ok caller
  runs : Runs u calls c caller
  selects : Selects p u heap c call m.entity

/-- Everything has its reason. -/
structure Rooted (calls : CallGraph QSiteId QMethodId) : Prop where
  /-- The entry is found first. -/
  entry : ∃ h, u.methods.get? h = some ⟨.empty, p.entry⟩ ∧ calls.entries = [h] ∧
    calls.reachable[0]? = some h
  edges : ∀ e ∈ calls.edges, e.callee ∈ calls.reachable ∧
    ∃ c i caller m call, Reason p u heap calls e c i caller m call
  /-- A method that is found later is called by one that was found before. -/
  found : ∀ j h, 0 < j → calls.reachable[j]? = some h → ∃ e ∈ calls.edges, e.callee = h ∧
    ∃ c i caller k g, u.sites.get? e.site = some ⟨c, i⟩ ∧ p.ownerOf i = .ok caller ∧ k < j ∧
      calls.reachable[k]? = some g ∧ u.methods.get? g = some ⟨c, caller⟩
  /-- A variable in use belongs to a method that can run. -/
  vars : ∀ h c v, u.pointers.get? h = some (.var c v) → ∃ m, p.Owns m v ∧ Runs u calls c m
  /-- The methods that can run are those that have a handle, in the order of their handles. -/
  methods : calls.reachable = u.methods.handles
  /-- Every call site that has a handle makes a call. -/
  sites : ∀ i, u.sites.Has i → ∃ e ∈ calls.edges, e.site = i
  indexed : calls.Indexed
  varsIndexed : u.VarsIndexed

end Reasons

section Mono

variable {u u' : Universe} {heap heap' : Heap} {calls calls' : CallGraph QSiteId QMethodId}
  (hu : u.Extends u') (hh : heap.objects.Extends heap'.objects)
  (hholds : ∀ h q, u.Holds h q → u'.Holds h q)
  (hreach : calls.reachable ⊆ calls'.reachable)
include hu

theorem Runs.mono (hreach : calls.reachable ⊆ calls'.reachable) {c : ContextId} {m : MethodId}
    (hm : Runs u calls c m) : Runs u' calls' c m := by
  obtain ⟨h, hh, e⟩ := hm
  exact ⟨h, hreach hh, hu.methods.get? e⟩

include hh hholds

theorem Selects.mono {c : ContextId} {call : Invoke} {m : MethodId}
    (h : Selects p u heap c call m) : Selects p u' heap' c call m := by
  cases h with
  | static hk ht => exact .static hk ht
  | receiver hb hx hq hkey hobj ht =>
    exact .receiver hb (hu.pointers.get? hx) (hholds _ _ hq) (hu.objs.get? hkey)
      (hh.get? hobj) ht

include hreach

theorem Reason.mono {e : CallEdge QSiteId QMethodId} {c : ContextId} {i : StmtId}
    {caller : MethodId} {m : Qualified MethodId} {call : Invoke}
    (h : Reason p u heap calls e c i caller m call) :
    Reason p u' heap' calls' e c i caller m call where
  site := hu.sites.get? h.site
  callee := hu.methods.get? h.callee
  stmt := h.stmt
  kind := h.kind
  owner := h.owner
  runs := h.runs.mono hu hreach
  selects := h.selects.mono hu hh hholds

end Mono

/-! ## Moves -/

/-- A state stays rooted while no call and no variable is added. -/
theorem Rooted.frame {u u' : Universe} {heap heap' : Heap} {calls : CallGraph QSiteId QMethodId}
    (h : Rooted p u heap calls) (hu : u.Extends u') (hh : heap.objects.Extends heap'.objects)
    (hholds : ∀ h q, u.Holds h q → u'.Holds h q) (hmethods : u'.methods = u.methods)
    (hsites : u'.sites = u.sites)
    (hvars : ∀ h c v, u'.pointers.get? h = some (.var c v) →
      ∃ m, p.Owns m v ∧ Runs u calls c m) (hindex : u'.VarsIndexed) :
    Rooted p u' heap' calls where
  entry := h.entry.imp fun _ he => ⟨hu.methods.get? he.1, he.2⟩
  edges e he := by
    obtain ⟨hc, c, i, caller, m, call, hr⟩ := h.edges e he
    exact ⟨hc, c, i, caller, m, call, hr.mono hu hh hholds fun _ h => h⟩
  found j g hj hg := by
    obtain ⟨e, he, hcallee, c, i, caller, k, g', hsite, howner, hk, hg', hrow⟩ := h.found j g hj hg
    exact ⟨e, he, hcallee, c, i, caller, k, g', hu.sites.get? hsite, howner, hk, hg',
      hu.methods.get? hrow⟩
  vars x c v hx := by
    obtain ⟨m, hm, hruns⟩ := hvars x c v hx
    exact ⟨m, hm, hruns.mono hu fun _ h => h⟩
  methods := hmethods ▸ h.methods
  sites := hsites ▸ h.sites
  indexed := h.indexed
  varsIndexed := hindex

/-- A location is interned that something mentions. -/
theorem Rooted.owns_of_mentions (ho : p.Owned) (h : Rooted p s.world s.heap s.calls)
    {c : ContextId} {v : VarId} (hk : Mentions p s (.var c v)) :
    ∃ m, p.Owns m v ∧ Runs s.world s.calls c m := by
  cases hk with
  | visited hm hx hv => exact ⟨_, ho.owns_of_executes hx hv, hm⟩
  | dereferenced hh hs hb hw =>
    -- the variable that is followed belongs to the same method
    obtain ⟨m, hm, hruns⟩ := h.vars _ _ _ hh
    exact ⟨m, ho.owns_of_stmt hs (Stmt.mem_vars_of_base? hb) hw hm, hruns⟩
  | caller he hi hs hv =>
    obtain ⟨-, c', i, caller, m, call, hr⟩ := h.edges _ he
    obtain ⟨rfl, rfl⟩ := Qualified.mk.inj (Option.some.inj (hi.symm.trans hr.site))
    exact ⟨caller, ho.stmtVars _ _ _ hr.owner hs v hv, hr.runs⟩
  | callee he hm hd hb hv =>
    exact ⟨_, ho.bodyVars _ _ _ hd hb v hv, _, (h.edges _ he).1, hm⟩

theorem Rooted.interned (ho : p.Owned) (h : Rooted p s.world s.heap s.calls) {key : Pointer}
    (hk : Mentions p s key) : Rooted p (s.interned key).world s.heap s.calls := by
  obtain ⟨hmethods, hsites, -⟩ := s.world.pointer_frame key
  refine h.frame (Universe.extends_pointer _ _) (.refl _) (fun _ _ => Universe.holds_pointer key)
    hmethods hsites (fun x c v hx => ?_) (h.varsIndexed.pointer key)
  rcases Universe.get?_pointer_cases hx with hx | rfl
  · exact h.vars x c v hx
  · exact h.owns_of_mentions ho hk

/-! ### Calls -/

/-- A method is given the next handle unless it has one. -/
theorem handles_intern {t : Table .qualifiedMethod (Qualified MethodId)} {m : Qualified MethodId} :
    (t.intern m).2.handles = keepNew t.handles (t.intern m).1 := by
  rcases t.intern_cases m with ⟨k, hk, e⟩ | ⟨-, e⟩
  · rw [e, keepNew_of_mem (Table.mem_handles.2 (Table.has_of_get? hk))]
  · have hnew : t.next ∉ t.handles := by simp [Table.handles, Table.next]
    rw [e, keepNew_of_notMem hnew]
    simp [Table.handles, Table.next, List.range_succ]

theorem has_intern_cases {k : Kind} {α : Type} [DecidableEq α] {t : Table k α} {a : α}
    {h : Handle k} (hh : (t.intern a).2.Has h) : t.Has h ∨ h = (t.intern a).1 := by
  rcases t.intern_cases a with ⟨_, -, e⟩ | ⟨-, e⟩
  · rw [e] at hh
    exact Or.inl hh
  · rw [e] at hh ⊢
    unfold Table.Has at hh
    rw [Table.size_push] at hh
    -- the last row is the new one
    rcases Nat.lt_succ_iff_lt_or_eq.1 hh with hh | hh
    · exact Or.inl hh
    · exact Or.inr (Handle.ext hh)

section Called

variable {s₁ : State} {call : Invoke} {site : Qualified StmtId} {callee : Qualified MethodId}
  {caller : MethodId}

/-- The reason for a call that is recorded: a method that can run makes it. -/
theorem reason_called (hg : Grown s s₁) (hstmt : p.stmtAt site.entity = .ok (.invoke call))
    (howner : p.ownerOf site.entity = .ok caller)
    (hruns : Runs s.world s.calls site.context caller)
    (hselects : Selects p s.world s.heap site.context call callee.entity) :
    let s₂ := s₁.called call.kind site callee
    Reason p s₂.world s₂.heap s₂.calls (s₁.callEdge call.kind site callee) site.context site.entity
      caller callee call := by
  have hgrown := hg.trans (Grown.called s₁ call.kind site callee)
  exact
    { site := Table.get?_intern _ _
      callee := Table.get?_intern _ _
      stmt := hstmt
      kind := rfl
      owner := howner
      runs := hruns.mono hgrown.world hgrown.reachable.subset
      selects := hselects.mono hgrown.world hgrown.heap hgrown.holds }

/-- A call is recorded that a method makes which can run.  Variables of the callee may be in use
before it can run, as long as it is about to. -/
theorem Rooted.called (h : Rooted p s.world s.heap s.calls) (hg : Grown s s₁)
    (hcalls : s₁.calls = s.calls) (hmethods : s₁.world.methods = s.world.methods)
    (hsites : s₁.world.sites = s.world.sites)
    (hvars : ∀ x c v, s₁.world.pointers.get? x = some (.var c v) →
      s.world.pointers.get? x = some (.var c v) ∨ c = callee.context ∧ p.Owns callee.entity v)
    (hindex : s₁.world.VarsIndexed) (hstmt : p.stmtAt site.entity = .ok (.invoke call))
    (howner : p.ownerOf site.entity = .ok caller)
    (hruns : Runs s.world s.calls site.context caller)
    (hselects : Selects p s.world s.heap site.context call callee.entity) :
    Rooted p (s₁.called call.kind site callee).world (s₁.called call.kind site callee).heap
      (s₁.called call.kind site callee).calls := by
  let e := s₁.callEdge call.kind site callee
  let s₂ := s₁.called call.kind site callee
  have hgrown : Grown s s₂ := hg.trans (.called s₁ call.kind site callee)
  have hreason : Reason p s₂.world s₂.heap s₂.calls e site.context site.entity caller callee call :=
    reason_called hg hstmt howner hruns hselects
  -- the call graph, whether the edge is new or not
  have hrecord : s₂.calls = s.calls.record e := hcalls ▸ rfl
  have hcallees : ∀ e ∈ s.calls.edges, e.callee ∈ s.calls.reachable := fun e he => (h.edges e he).1
  have hlast : e.callee ∈ s₂.calls.reachable :=
    hrecord ▸ CallGraph.mem_reachable_record h.indexed hcallees
  obtain ⟨e', he', hsite', hcallee'⟩ := CallGraph.exists_mem_edges_record (e := e) h.indexed
  rw [← hrecord] at he'
  refine
    { entry := ?_
      edges := fun e'' he'' => ?_
      found := fun j g hj hg => ?_
      vars := fun x c v hx => ?_
      methods := ?_
      sites := fun i hi => ?_
      indexed := hrecord ▸ h.indexed.record
      varsIndexed := hindex }
  · obtain ⟨m, hm, hentries, hfirst⟩ := h.entry
    refine ⟨m, hgrown.world.methods.get? hm, ?_, getElem?_mono hgrown.reachable hfirst⟩
    show s₂.calls.entries = [m]
    rw [hrecord, CallGraph.entries_record, hentries]
  · rw [show (s₁.called call.kind site callee).calls = s.calls.record e from hrecord] at he''
    rcases CallGraph.mem_edges_record he'' with he'' | rfl
    · obtain ⟨hc, c, i, caller', m, call', hr⟩ := h.edges e'' he''
      exact ⟨hgrown.reachable.subset hc, c, i, caller', m, call',
        hr.mono hgrown.world hgrown.heap hgrown.holds hgrown.reachable.subset⟩
    · exact ⟨hlast, _, _, _, _, _, hreason⟩
  · -- a method that could not run before is called by one that could
    rw [show (s₁.called call.kind site callee).calls = s.calls.record e from hrecord] at hg
    rcases CallGraph.getElem?_reachable_record h.indexed hcallees hg with hg | ⟨rfl, rfl⟩
    · obtain ⟨d, hd, hc, c, i, m, k, g', hi, hm, hk, hg', hrow⟩ := h.found j g hj hg
      exact ⟨d, hgrown.edges.subset hd, hc, c, i, m, k, g', hgrown.world.sites.get? hi, hm, hk,
        getElem?_mono hgrown.reachable hg', hgrown.world.methods.get? hrow⟩
    · obtain ⟨g', hmem, hrow⟩ := hruns
      obtain ⟨k, hk⟩ := List.mem_iff_getElem?.1 hmem
      exact ⟨e', he', hcallee', site.context, site.entity, caller, k, g', hsite' ▸ hreason.site,
        howner, (List.getElem?_eq_some_iff.1 hk).1, getElem?_mono hgrown.reachable hk,
        hgrown.world.methods.get? hrow⟩
  · rcases hvars x c v hx with hx | ⟨rfl, howns⟩
    · obtain ⟨m, hm, hr⟩ := h.vars x c v hx
      exact ⟨m, hm, hr.mono hgrown.world hgrown.reachable.subset⟩
    · exact ⟨_, howns, _, hlast, hreason.callee⟩
  · -- the callee gets its handle when it is first called, like its place among the methods
    show s₂.calls.reachable = (s₁.world.methods.intern callee).2.handles
    have hcallee : e.callee = (s.world.methods.intern callee).1 := by
      rw [← hmethods]
      rfl
    rw [hrecord, CallGraph.reachable_record h.indexed hcallees, hmethods, handles_intern,
      ← h.methods, hcallee]
  · -- the site that is interned is that of the call
    change (s₁.world.sites.intern site).2.Has i at hi
    rw [hsites] at hi
    rcases has_intern_cases hi with hi | hi
    · obtain ⟨e'', he'', hs⟩ := h.sites i hi
      exact ⟨e'', hgrown.edges.subset he'', hs⟩
    · refine ⟨e', he', hsite'.trans ?_⟩
      rw [hi]
      show (s₁.world.sites.intern site).1 = _
      rw [hsites]

end Called

/-! ### All moves -/

/-- Sending an object to `this` can bring a variable into use, and touches no method and no site. -/
theorem State.bound_frame (s : State) (self : Option VarId) (c : ContextId) (q : QObjId) :
    (s.bound self c q).calls = s.calls ∧
      (s.bound self c q).world.methods = s.world.methods ∧
      (s.bound self c q).world.sites = s.world.sites ∧
      (∀ x d w, (s.bound self c q).world.pointers.get? x = some (.var d w) →
        s.world.pointers.get? x = some (.var d w) ∨ d = c ∧ self = some w) ∧
      (s.world.VarsIndexed → (s.bound self c q).world.VarsIndexed) := by
  cases self with
  | none => exact ⟨rfl, rfl, rfl, fun _ _ _ h => Or.inl h, id⟩
  | some v =>
    obtain ⟨hmethods, hsites, -⟩ := s.world.pointer_frame (.var c v)
    refine ⟨rfl, hmethods, hsites, fun x d w hx => ?_, fun h => h.pointer _⟩
    rcases Universe.get?_pointer_cases hx with hx | hx
    · exact Or.inl hx
    · obtain ⟨rfl, rfl⟩ := Pointer.var.inj hx
      exact Or.inr ⟨rfl, rfl⟩

/-- The method that makes a call on what a variable refers to is the one that owns the variable. -/
theorem Rooted.caller (ho : p.Owned) (h : Rooted p s.world s.heap s.calls) {x : PointerId}
    {c : ContextId} {v : VarId} {i : StmtId} {stmt : Stmt}
    (hx : s.world.pointers.get? x = some (.var c v)) (hs : p.stmtAt i = .ok stmt)
    (hv : v ∈ stmt.vars) : ∃ m, p.ownerOf i = .ok m ∧ Runs s.world s.calls c m := by
  obtain ⟨m, hm, hruns⟩ := h.vars x c v hx
  obtain ⟨site, hsite, -⟩ := Program.stmtAt_eq_ok.1 hs
  have howner : p.ownerOf i = .ok site.method := Program.ownerOf_eq_ok.2 ⟨site, hsite, rfl⟩
  obtain rfl := hm.inj (ho.stmtVars _ _ _ howner hs v hv)
  exact ⟨_, howner, hruns⟩

/-- Moves keep states rooted. -/
theorem Rooted.move (ho : p.Owned) (h : Rooted p s.world s.heap s.calls) (hmove : Move p σ s s') :
    Rooted p s'.world s'.heap s'.calls := by
  cases hmove with
  | visit _ => exact h
  | arrive _ hset =>
    have hg := Grown.arrive (w := ‹_›) hset
    exact h.frame hg.world hg.heap hg.holds rfl rfl h.vars h.varsIndexed
  | @alloc c c' m i lhs type o heap contexts hm hx hobj hc =>
    have hg := (Move.alloc hm hx hobj hc).grown
    exact h.frame hg.world hg.heap hg.holds rfl rfl h.vars h.varsIndexed
  | send => exact h
  | mention hk => exact h.interned ho hk
  | flow hflow =>
    obtain ⟨flow, w, rfl⟩ := addFlow_frame hflow
    exact h
  | callStatically hm hx hk ht hd hstatic hc =>
    obtain ⟨howner, hs⟩ := ho.executes_iff.1 hx
    exact h.called (Grown.pooled s (Sensitivity.extends_staticContext hc)) rfl rfl rfl
      (fun _ _ _ hx => Or.inl hx) h.varsIndexed hs howner hm (.static hk ht)
  | @callOn x c c' v q key obj m i call decl contexts hx hq hkey hobj hs hb ht hd hstatic hc =>
    obtain ⟨caller, howner, hruns⟩ := h.caller ho hx hs (Stmt.mem_vars_of_base? hb)
    obtain ⟨hcalls, hmethods, hsites, hvars, hindex⟩ :=
      (s.pooled contexts).bound_frame (decl.body.bind Body.self) c' q
    refine h.called ((Grown.pooled s (Sensitivity.extends_instanceContext hc)).trans
      (.bound _ _ _ _)) hcalls hmethods hsites (fun y d w hy => ?_) (hindex h.varsIndexed) hs
      howner hruns (.receiver hb hx hq hkey hobj ht)
    rcases hvars y d w hy with hy | ⟨rfl, hself⟩
    · exact Or.inl hy
    · -- `this` belongs to the callee
      obtain ⟨body, hbody, hself⟩ := Option.bind_eq_some_iff.1 hself
      exact Or.inr ⟨rfl, ho.bodyVars _ _ _ hd hbody w (by simp [Body.vars, hself])⟩

theorem Rooted.moves (ho : p.Owned) (h : Rooted p s.world s.heap s.calls)
    (hmoves : Moves p σ s s') : Rooted p s'.world s'.heap s'.calls := by
  -- one move after the other
  induction hmoves with
  | refl => exact h
  | tail _ hmove ih => exact ih.move ho hmove

/-! ## Runs -/

/-- A run begins rooted. -/
theorem rooted_start (p : Program) (order : Order) :
    Rooted p (start p order).world (start p order).heap (start p order).calls where
  entry := ⟨⟨0⟩, rfl, rfl, rfl⟩
  edges := by intro e he; cases he
  found := by
    intro j h hj hh
    -- the entry is the only method that can run
    obtain ⟨hlt, -⟩ := List.getElem?_eq_some_iff.1 hh
    have hlt : j < 1 := hlt
    omega
  vars := by intro x c v hx; cases hx
  methods := rfl
  sites := by intro i hi; exact absurd hi (Nat.not_lt_zero _)
  indexed := CallGraph.indexed_empty.addEntry _
  varsIndexed := fun _ => rfl

/-- The output of a run is rooted. -/
theorem rooted_of_solve (hp : p.Built) {order : Order} {budget : Option Nat} {out : Output}
    (h : solve p σ order budget = .ok out) : Rooted p out.world out.heap out.calls := by
  obtain ⟨s, hmoves, -, e⟩ := exists_moves_of_solve hp.wellFormed h
  rw [e]
  exact (rooted_start p order).moves hp.owned hmoves

end Solver

end PointerAnalysis
