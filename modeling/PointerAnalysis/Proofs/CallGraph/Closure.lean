import PointerAnalysis.Proofs.CallGraph.FromHierarchy
import PointerAnalysis.Proofs.Program.Build

/-!
# The call graph of the hierarchy is a closure

The exploration makes a method reachable only as a target of a call of a reachable method, and it
follows all calls of all reachable methods.  So the reachable methods are the least set that contains
the entry and the targets of the calls of its members, and the edges are these calls.  The order of
discovery begins with the entry, and nothing is discovered twice.

## Main definitions

- `Program.Attainable`: calls lead from the entry to a method.
- `Program.Explores`: an exploration without a bound comes to its end.
- `CallGraph.Grown`: what holds of a graph while it is explored.

## Main statements

- `explores_of_room`: with room for all methods the bound on an exploration is never met.
- `Grown.addCall`, `Grown.explores`: an exploration keeps what holds of a graph.
- `hierarchyCallGraph_closure`: the graph is the closure of the entry under calls.
-/

namespace PointerAnalysis

namespace Program

/-- The methods that can run according to the hierarchy: the entry, and the targets of the calls of
methods that can run. -/
inductive Attainable (p : Program) : MethodId → Prop where
  | entry : Attainable p p.entry
  | call {m t : MethodId} {s : StmtId} {call : Invoke} {ts : List MethodId}
      (hm : Attainable p m) (hx : p.Executes m s (.invoke call))
      (hts : p.hierarchyTargets call = .ok ts) (ht : t ∈ ts) : Attainable p t

/-- From the `i`-th method on, an exploration comes to its end: it visits one method after the other,
until there are no more. -/
inductive Explores (p : Program) :
    Nat → CallGraph StmtId MethodId → CallGraph StmtId MethodId → Prop where
  | done {i : Nat} {g : CallGraph StmtId MethodId} (hi : g.reachable[i]? = none) :
      Explores p i g g
  | visit {i : Nat} {g g₁ g' : CallGraph StmtId MethodId} {m : MethodId} {decl : MethodDecl}
      (hi : g.reachable[i]? = some m) (hm : p.methodAt m = .ok decl)
      (hrun : (decl.body.elim [] Body.stmts).foldlM p.addCallsOf g = .ok g₁)
      (h : Explores p (i + 1) g₁ g') : Explores p i g g'

end Program

namespace CallGraph

variable {p : Program} {g g' : CallGraph StmtId MethodId}

/-! ## Exploration without a bound -/

/-- With room for all methods the bound on an exploration is never met. -/
theorem Coherent.explores_of_room (wf : p.WellFormed) {room i : Nat} (hg : g.Coherent p)
    (hroom : p.methods.size ≤ room + i) (h : p.exploreCalls room i g = .ok g') :
    p.Explores i g g' := by
  induction room generalizing g i with
  | zero =>
    obtain rfl := Except.ok.inj h
    -- there are no more methods to visit than there are methods
    have hle := Table.length_le_of_nodup hg.nodup hg.methods
    exact .done (List.getElem?_eq_none (by omega))
  | succ room ih =>
    unfold Program.exploreCalls at h
    cases hi : g.reachable[i]? with
    | none =>
      rw [hi] at h
      obtain rfl := Except.ok.inj h
      exact .done hi
    | some m =>
      rw [hi] at h
      obtain ⟨decl, hdecl, h⟩ := Outcome.bind_eq_ok.1 h
      obtain ⟨g₁, hrun, h⟩ := Outcome.bind_eq_ok.1 h
      obtain ⟨decl', g₁', hdecl', hrun', hg₁, -, -⟩ := hg.exists_visit wf (List.mem_of_getElem? hi)
      obtain rfl := Except.ok.inj (hdecl.symm.trans hdecl')
      obtain rfl := Except.ok.inj (hrun.symm.trans hrun')
      exact .visit hi hdecl hrun (ih hg₁ (by omega) h)

/-! ## What an exploration keeps -/

/-- The entry comes first, what can run is attainable, and no call is there twice. -/
structure Grown (p : Program) (g : CallGraph StmtId MethodId) : Prop where
  indexed : g.Indexed
  entries : g.entries = [p.entry]
  first : g.reachable.head? = some p.entry
  attainable : ∀ m ∈ g.reachable, p.Attainable m
  distinct : (g.edges.map fun e => (e.site, e.callee)).Nodup

theorem grown_start : (({} : CallGraph StmtId MethodId).addEntry p.entry).Grown p where
  indexed := indexed_empty.addEntry _
  entries := rfl
  first := rfl
  attainable := by
    intro m hm
    obtain rfl := List.mem_singleton.1 hm
    exact .entry
  distinct := List.nodup_nil

/-- A call to an attainable method keeps it all. -/
theorem Grown.addCall (hg : g.Grown p) {e : CallEdge StmtId MethodId}
    (ht : p.Attainable e.callee) : ((g.addEdge e).2.reach e.callee).2.Grown p where
  indexed := by
    apply Indexed.reach
    cases hedge : g.hasEdge e.site e.callee with
    | true => rw [addEdge_of_hasEdge hedge]; exact hg.indexed
    | false => exact hg.indexed.addEdge hedge
  entries := by rw [entries_reach, entries_addEdge, hg.entries]
  first := by
    obtain ⟨later, hlater⟩ := reachable_reach_prefix (g := (g.addEdge e).2) e.callee
    rw [← hlater, reachable_addEdge, List.head?_append, hg.first, Option.some_or]
  attainable := by
    intro m hm
    rcases mem_reachable_reach.1 hm with hm | rfl
    · rw [reachable_addEdge] at hm
      exact hg.attainable m hm
    · exact ht
  distinct := by
    rw [edges_reach]
    cases hedge : g.hasEdge e.site e.callee with
    | true => rw [addEdge_of_hasEdge hedge]; exact hg.distinct
    | false =>
      -- the index knows of no edge between these ends, so there is none
      rw [edges_addEdge hedge, List.map_append, List.map_singleton]
      refine List.nodup_append.2 ⟨hg.distinct, List.nodup_singleton _, fun _ ha _ hb hab => ?_⟩
      obtain ⟨e', he', rfl⟩ := List.mem_map.1 ha
      obtain rfl := List.mem_singleton.1 hb
      obtain ⟨hsite, hcallee⟩ := Prod.mk.inj hab
      rw [(hg.indexed.pairs _ _).2 ⟨e', he', hsite, hcallee⟩] at hedge
      cases hedge

/-- So do calls to attainable methods, one after the other. -/
theorem Grown.addCalls (hg : g.Grown p) {kind : CallKind} {s : StmtId} {ts : List MethodId}
    (hts : ∀ t ∈ ts, p.Attainable t) :
    (ts.foldl (fun g t => ((g.addEdge ⟨kind, s, t⟩).2.reach t).2) g).Grown p := by
  induction ts generalizing g with
  | nil => exact hg
  | cons t ts ih =>
    obtain ⟨ht, hts⟩ := List.forall_mem_cons.1 hts
    exact ih (hg.addCall (e := ⟨kind, s, t⟩) ht) hts

/-- So do the calls of a statement of an attainable method. -/
theorem Grown.addCallsOf (hg : g.Grown p) {m : MethodId} (hm : p.Attainable m) {s : StmtId}
    {stmt : Stmt} (hx : p.Executes m s stmt) (h : p.addCallsOf g s = .ok g') : g'.Grown p := by
  obtain ⟨_, _, _, _, _, hs⟩ := id hx
  obtain ⟨stmt', hs', h⟩ := Outcome.bind_eq_ok.1 h
  obtain rfl := Except.ok.inj (hs.symm.trans hs')
  cases stmt with
  | invoke call =>
    obtain ⟨ts, hts, h⟩ := Outcome.bind_eq_ok.1 h
    obtain rfl := Outcome.pure_eq_ok.1 h
    exact hg.addCalls fun t ht => .call hm hx hts ht
  -- other statements call nothing
  | _ =>
    obtain rfl := Outcome.pure_eq_ok.1 h
    exact hg

/-- The visit of an attainable method keeps it all. -/
theorem Grown.visit (hg : g.Grown p) {m : MethodId} (hm : p.Attainable m) {decl : MethodDecl}
    {body : Body} (hdecl : p.methodAt m = .ok decl) (hbody : decl.body = some body)
    {stmts : List StmtId} (hstmts : stmts ⊆ body.stmts)
    (h : stmts.foldlM p.addCallsOf g = .ok g') : g'.Grown p := by
  induction stmts generalizing g with
  | nil =>
    obtain rfl := Except.ok.inj h
    exact hg
  | cons s stmts ih =>
    obtain ⟨hs, hstmts⟩ := List.cons_subset.1 hstmts
    rw [List.foldlM_cons] at h
    obtain ⟨g₁, h₁, h⟩ := Outcome.bind_eq_ok.1 h
    obtain ⟨stmt, hstmt, -⟩ := Outcome.bind_eq_ok.1 (id h₁)
    exact ih (hg.addCallsOf hm ⟨decl, body, hdecl, hbody, hs, hstmt⟩ h₁) hstmts h

/-- An exploration keeps it from beginning to end. -/
theorem Grown.explores (hg : g.Grown p) {i : Nat} (h : p.Explores i g g') : g'.Grown p := by
  induction h with
  | done => exact hg
  | @visit i g g₁ g' m decl hi hdecl hrun _ ih =>
    have hm : p.Attainable m := hg.attainable m (List.mem_of_getElem? hi)
    cases hbody : decl.body with
    | none =>
      rw [hbody] at hrun
      obtain rfl := Except.ok.inj hrun
      exact ih hg
    | some body =>
      rw [hbody] at hrun
      exact ih (hg.visit hm hdecl hbody (List.Subset.refl _) hrun)

end CallGraph

/-! ## The closure -/

namespace Program

variable {p : Program}

/-- The targets of a call are found, and they are what the hierarchy allows. -/
theorem exists_targets_of_executes (wf : p.WellFormed) {m : MethodId} {s : StmtId} {call : Invoke}
    (hx : p.Executes m s (.invoke call)) :
    ∃ ts, p.hierarchyTargets call = .ok ts ∧ ∀ t, t ∈ ts ↔ p.MayCall call t := by
  obtain ⟨_, _, _, _, _, hs⟩ := hx
  exact exists_hierarchyTargets wf (wf.stmt_classes hs (List.mem_singleton_self _))

/-- Exploring a built program from the entry comes to its end.  The methods found are those that are
attainable, each once and the entry first; the edges are the calls of these methods to their targets,
each once. -/
theorem hierarchyCallGraph_closure (hp : p.Built) :
    ∃ g, p.hierarchyCallGraph = .ok g ∧
      p.Explores 0 (({} : CallGraph StmtId MethodId).addEntry p.entry) g ∧
      g.entries = [p.entry] ∧ g.reachable.head? = some p.entry ∧ g.reachable.Nodup ∧
      (∀ m, m ∈ g.reachable ↔ p.Attainable m) ∧
      (∀ e, e ∈ g.edges ↔ ∃ m call ts, p.Attainable m ∧ p.Executes m e.site (.invoke call) ∧
        e.kind = call.kind ∧ p.hierarchyTargets call = .ok ts ∧ e.callee ∈ ts) ∧
      (g.edges.map fun e => (e.site, e.callee)).Nodup := by
  have wf := hp.wellFormed
  obtain ⟨g, hrun, hcoherent, hentry, hvisited⟩ := exists_hierarchyCallGraph wf
  have hexplores := (CallGraph.coherent_start wf).explores_of_room wf (Nat.le_refl _) hrun
  have hgrown := CallGraph.grown_start.explores hexplores
  have hreachable : ∀ m, m ∈ g.reachable ↔ p.Attainable m := by
    refine fun m => ⟨hgrown.attainable m, fun hm => ?_⟩
    -- all that is found has been visited, so no call of an attainable method is left out
    induction hm with
    | entry => exact hentry
    | @call m t s call ts _ hx hts ht ih =>
      obtain ⟨ts', hts', hmay⟩ := exists_targets_of_executes wf hx
      obtain rfl := Except.ok.inj (hts.symm.trans hts')
      obtain ⟨_, _, _, _, _, hs⟩ := id hx
      exact (hvisited m ih s call hx call hs t ((hmay t).1 ht)).2
  refine ⟨g, hrun, hexplores, hgrown.entries, hgrown.first, hcoherent.nodup, hreachable,
    fun e => ⟨fun he => ?_, fun he => ?_⟩, hgrown.distinct⟩
  · obtain ⟨m, hm, call, hx, hkind, hmay⟩ := hcoherent.edges e he
    obtain ⟨ts, hts, hmem⟩ := exists_targets_of_executes wf hx
    exact ⟨m, call, ts, (hreachable m).1 hm, hx, hkind, hts, (hmem _).2 hmay⟩
  · obtain ⟨m, call, ts, hm, hx, hkind, hts, ht⟩ := he
    obtain ⟨ts', hts', hmem⟩ := exists_targets_of_executes wf hx
    obtain rfl := Except.ok.inj (hts.symm.trans hts')
    obtain ⟨_, _, _, _, _, hs⟩ := id hx
    have hedge := (hvisited m ((hreachable m).2 hm) e.site call hx call hs _ ((hmem _).1 ht)).1
    rwa [← hkind] at hedge

/-- The box program puts the box into itself by one call, which is the only edge. -/
theorem boxProgram_closure :
    boxProgram.Built ∧ ∃ g, boxProgram.hierarchyCallGraph = .ok g ∧
      g.reachable = [⟨0⟩, ⟨1⟩] ∧ g.edges = [⟨.virtual, ⟨1⟩, ⟨1⟩⟩] ∧
      (∀ m, m ∈ g.reachable ↔ boxProgram.Attainable m) ∧
      ∀ e, e ∈ g.edges ↔ ∃ m call ts, boxProgram.Attainable m ∧
        boxProgram.Executes m e.site (.invoke call) ∧ e.kind = call.kind ∧
        boxProgram.hierarchyTargets call = .ok ts ∧ e.callee ∈ ts := by
  obtain ⟨g, hg, -, -, -, -, hreachable, hedges, -⟩ := hierarchyCallGraph_closure boxProgram_built
  have hrun : (boxProgram.hierarchyCallGraph.map fun g => (g.reachable, g.edges)) =
      .ok ([⟨0⟩, ⟨1⟩], [⟨.virtual, ⟨1⟩, ⟨1⟩⟩]) := by decide +kernel
  rw [hg] at hrun
  obtain ⟨h₁, h₂⟩ := Prod.mk.inj (Except.ok.inj hrun)
  exact ⟨boxProgram_built, g, hg, h₁, h₂, hreachable, hedges⟩

end Program

end PointerAnalysis
