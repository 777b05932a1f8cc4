import PointerAnalysis.Proofs.Graphs
import PointerAnalysis.Proofs.Hierarchy.Targets

/-!
# Call graphs of the class hierarchy

The graph is made by visiting the methods that can run, in the order in which they are found.  No
method is found twice, so there is room to visit them all, and in the end every call of every method
that can run has an edge to each method that the hierarchy allows it to run.

## Main definitions

- `CallGraph.Coherent`: a graph has methods and calls of the program only, as the hierarchy allows.
- `CallGraph.Visited`: all calls of a method are in a graph.

## Main statements

- `Coherent.exists_addCallsOf`: a statement adds its calls.
- `exists_exploreCalls`: the exploration visits all methods that it finds.
- `exists_hierarchyCallGraph`: the graph of the hierarchy contains the calls of all its methods.
-/

namespace PointerAnalysis

namespace CallGraph

/-! ## Graphs of a program -/

section Coherence

variable (p : Program) (g : CallGraph StmtId MethodId)

/-- Methods of the program can run, each found once, and every call is one that the hierarchy
allows. -/
structure Coherent : Prop where
  indexed : g.Indexed
  nodup : g.reachable.Nodup
  methods : ∀ m ∈ g.reachable, p.methods.Has m
  edges : ∀ e ∈ g.edges, ∃ m ∈ g.reachable, ∃ call, p.Executes m e.site (.invoke call) ∧
    e.kind = call.kind ∧ p.MayCall call e.callee

/-- All calls that the hierarchy allows a statement are in the graph. -/
def Added (s : StmtId) : Prop :=
  ∀ call, p.stmtAt s = .ok (.invoke call) → ∀ m, p.MayCall call m →
    ⟨call.kind, s, m⟩ ∈ g.edges ∧ m ∈ g.reachable

/-- All calls of a method are in the graph. -/
def Visited (m : MethodId) : Prop :=
  ∀ s call, p.Executes m s (.invoke call) → Added p g s

end Coherence

/-- A later graph continues an earlier one. -/
structure Extends (g g' : CallGraph StmtId MethodId) : Prop where
  reachable : g.reachable <+: g'.reachable
  edges : g.edges <+: g'.edges

variable {p : Program} {g g' g'' : CallGraph StmtId MethodId}

theorem Extends.refl (g : CallGraph StmtId MethodId) : g.Extends g :=
  ⟨List.prefix_refl _, List.prefix_refl _⟩

theorem Extends.trans (h : g.Extends g') (h' : g'.Extends g'') : g.Extends g'' :=
  ⟨h.reachable.trans h'.reachable, h.edges.trans h'.edges⟩

theorem Added.mono (h : g.Extends g') {s : StmtId} (hs : g.Added p s) : g'.Added p s :=
  fun call hcall m hm => (hs call hcall m hm).imp (h.edges.subset ·) (h.reachable.subset ·)

theorem Visited.mono (h : g.Extends g') {m : MethodId} (hm : g.Visited p m) : g'.Visited p m :=
  fun s call hs => (hm s call hs).mono h

/-! ## Calls of a statement -/

section Calls

variable {m t : MethodId} {s : StmtId} {call : Invoke}

/-- A graph stays coherent when a call is added that the hierarchy allows, and then the call is in
it. -/
theorem Coherent.addCall (hg : g.Coherent p) (hm : m ∈ g.reachable)
    (hx : p.Executes m s (.invoke call)) (ht : p.MayCall call t) :
    let g' := ((g.addEdge ⟨call.kind, s, t⟩).2.reach t).2
    g'.Coherent p ∧ g.Extends g' ∧ ⟨call.kind, s, t⟩ ∈ g'.edges ∧ t ∈ g'.reachable := by
  intro g'
  have hreachable : g.reachable <+: g'.reachable := by
    rw [← reachable_addEdge (g := g) (e := ⟨call.kind, s, t⟩)]
    exact reachable_reach_prefix t
  have hedges : g'.edges = (g.addEdge ⟨call.kind, s, t⟩).2.edges := edges_reach
  -- the edge is there afterwards, and no other edge is new
  have hadded : g.edges <+: g'.edges ∧ ⟨call.kind, s, t⟩ ∈ g'.edges ∧
      ∀ e ∈ g'.edges, e ∈ g.edges ∨ e = ⟨call.kind, s, t⟩ := by
    rw [hedges]
    cases hedge : g.hasEdge s t with
    | true =>
      rw [addEdge_of_hasEdge (e := ⟨call.kind, s, t⟩) hedge]
      obtain ⟨⟨kind, _, _⟩, he, rfl, rfl⟩ := (hg.indexed.pairs _ _).1 hedge
      -- the edge that is there has the kind of the statement
      obtain ⟨_, -, call', ⟨_, _, _, _, _, hs'⟩, hk, -⟩ := hg.edges _ he
      obtain ⟨_, _, _, _, _, hs⟩ := hx
      obtain rfl := Stmt.invoke.inj (Except.ok.inj (hs.symm.trans hs'))
      obtain rfl : kind = call.kind := hk
      exact ⟨List.prefix_refl _, he, fun _ => Or.inl⟩
    | false =>
      rw [edges_addEdge (e := ⟨call.kind, s, t⟩) hedge]
      exact ⟨List.prefix_append _ _, List.mem_append_right _ (List.mem_singleton_self _),
        fun e he => (List.mem_append.1 he).imp id List.mem_singleton.1⟩
  obtain ⟨hold, hmem, honly⟩ := hadded
  -- coherence: the index, no method twice, methods of the program, calls that are allowed
  refine ⟨?_, ⟨hreachable, hold⟩, hmem, mem_reachable_reach.2 (Or.inr rfl)⟩
  refine
    { indexed := ?_
      nodup := ?_
      methods := fun m' hm' => ?_
      edges := fun e he => ?_ }
  · apply Indexed.reach
    cases hedge : g.hasEdge s t with
    | true => rw [addEdge_of_hasEdge (e := ⟨call.kind, s, t⟩) hedge]; exact hg.indexed
    | false => exact hg.indexed.addEdge (e := ⟨call.kind, s, t⟩) hedge
  · apply nodup_reach
    rw [reachable_addEdge]
    exact hg.nodup
  · rcases mem_reachable_reach.1 hm' with hm' | rfl
    · rw [reachable_addEdge] at hm'
      exact hg.methods m' hm'
    · exact ht.has
  · rcases honly e he with he | rfl
    · obtain ⟨m', hm', h⟩ := hg.edges e he
      exact ⟨m', hreachable.subset hm', h⟩
    · exact ⟨m, hreachable.subset hm, call, hx, rfl, ht⟩

/-- So it does when one call after the other is added. -/
theorem Coherent.addCalls (hg : g.Coherent p) (hm : m ∈ g.reachable)
    (hx : p.Executes m s (.invoke call)) {ts : List MethodId} (hts : ∀ t ∈ ts, p.MayCall call t) :
    let g' := ts.foldl (fun g t => ((g.addEdge ⟨call.kind, s, t⟩).2.reach t).2) g
    g'.Coherent p ∧ g.Extends g' ∧ ∀ t ∈ ts, ⟨call.kind, s, t⟩ ∈ g'.edges ∧ t ∈ g'.reachable := by
  induction ts generalizing g with
  | nil => exact ⟨hg, .refl g, by simp⟩
  | cons t ts ih =>
    obtain ⟨ht, hts⟩ := List.forall_mem_cons.1 hts
    obtain ⟨hg₁, hext₁, hedge, hreach⟩ := hg.addCall hm hx ht
    obtain ⟨hg₂, hext₂, hall⟩ := ih hg₁ (hext₁.reachable.subset hm) hts
    exact ⟨hg₂, hext₁.trans hext₂,
      List.forall_mem_cons.2 ⟨⟨hext₂.edges.subset hedge, hext₂.reachable.subset hreach⟩, hall⟩⟩

/-- A statement of a method that can run adds its calls. -/
theorem Coherent.exists_addCallsOf (wf : p.WellFormed) (hg : g.Coherent p) (hm : m ∈ g.reachable)
    {stmt : Stmt} (hx : p.Executes m s stmt) :
    ∃ g', p.addCallsOf g s = .ok g' ∧ g'.Coherent p ∧ g.Extends g' ∧ g'.Added p s := by
  obtain ⟨_, _, _, _, _, hs⟩ := id hx
  cases stmt with
  | invoke call =>
    have hc : p.classes.Has call.methodRef.cls := wf.stmt_classes hs (List.mem_singleton_self _)
    obtain ⟨ts, hts, hmem⟩ := Program.exists_hierarchyTargets wf hc
    obtain ⟨hg', hext, hall⟩ := hg.addCalls hm hx fun t ht => (hmem t).1 ht
    refine ⟨_, Outcome.bind_eq_ok.2 ⟨_, hs, Outcome.bind_eq_ok.2 ⟨ts, hts, rfl⟩⟩, hg', hext, ?_⟩
    intro call' hs' t ht
    obtain rfl := Stmt.invoke.inj (Except.ok.inj (hs.symm.trans hs'))
    exact hall t ((hmem t).2 ht)
  -- other statements call nothing
  | _ =>
    refine ⟨g, Outcome.bind_eq_ok.2 ⟨_, hs, rfl⟩, hg, .refl g, fun call hs' => ?_⟩
    cases hs.symm.trans hs'

end Calls

/-! ## Exploration -/

/-- One statement after the other, a list of statements adds its calls. -/
theorem Coherent.exists_foldlM_addCallsOf (wf : p.WellFormed) (hg : g.Coherent p) {m : MethodId}
    (hm : m ∈ g.reachable) {stmts : List StmtId} (hs : ∀ s ∈ stmts, ∃ stmt, p.Executes m s stmt) :
    ∃ g', stmts.foldlM p.addCallsOf g = .ok g' ∧ g'.Coherent p ∧ g.Extends g' ∧
      ∀ s ∈ stmts, g'.Added p s := by
  induction stmts generalizing g with
  | nil => exact ⟨g, rfl, hg, .refl g, by simp⟩
  | cons s stmts ih =>
    obtain ⟨⟨stmt, hx⟩, hs⟩ := List.forall_mem_cons.1 hs
    obtain ⟨g₁, h₁, hg₁, hext₁, hadded⟩ := hg.exists_addCallsOf wf hm hx
    obtain ⟨g₂, h₂, hg₂, hext₂, hall⟩ := ih hg₁ (hext₁.reachable.subset hm) hs
    refine ⟨g₂, ?_, hg₂, hext₁.trans hext₂, List.forall_mem_cons.2 ⟨hadded.mono hext₂, hall⟩⟩
    rw [List.foldlM_cons]
    exact Outcome.bind_eq_ok.2 ⟨g₁, h₁, h₂⟩

/-- The visit of a method adds the calls of all its statements. -/
theorem Coherent.exists_visit (wf : p.WellFormed) (hg : g.Coherent p) {m : MethodId}
    (hm : m ∈ g.reachable) :
    ∃ decl g', p.methodAt m = .ok decl ∧
      (decl.body.elim [] Body.stmts).foldlM p.addCallsOf g = .ok g' ∧
      g'.Coherent p ∧ g.Extends g' ∧ g'.Visited p m := by
  obtain ⟨decl, hdecl⟩ := Program.exists_methodAt (hg.methods m hm)
  -- the statements of the body are those that the method executes
  have hstmts : ∀ s ∈ decl.body.elim [] Body.stmts, ∃ stmt, p.Executes m s stmt := by
    intro s hs
    cases hb : decl.body with
    | none => rw [hb] at hs; cases hs
    | some body =>
      rw [hb] at hs
      have hhas := (wf.bodyStmts m decl (Outcome.ofRow_eq_ok.1 hdecl) body hb).2 s hs
      obtain ⟨site, hsite⟩ := Program.exists_siteAt hhas
      exact ⟨site.stmt, decl, body, hdecl, hb, hs, Outcome.map_eq_ok.2 ⟨site, hsite, rfl⟩⟩
  obtain ⟨g', hrun, hg', hext, hadded⟩ := hg.exists_foldlM_addCallsOf wf hm hstmts
  -- what the method executes is in the list that the pass went through
  refine ⟨decl, g', hdecl, hrun, hg', hext, fun s call hx => hadded s ?_⟩
  obtain ⟨decl', body, hdecl', hb, hs, -⟩ := hx
  obtain rfl := Except.ok.inj (hdecl.symm.trans hdecl')
  rw [hb]
  exact hs

/-- When all positions have been visited, all methods have. -/
theorem visited_of_length_le {i : Nat} (hi : g.reachable.length ≤ i)
    (hvisited : ∀ j < i, ∀ m, g.reachable[j]? = some m → g.Visited p m) :
    ∀ m ∈ g.reachable, g.Visited p m := by
  intro m hm
  obtain ⟨j, hj⟩ := List.mem_iff_getElem?.1 hm
  exact hvisited j (Nat.lt_of_lt_of_le (List.getElem?_eq_some_iff.1 hj).1 hi) m hj

/-- An exploration that has room for all methods visits all that it finds. -/
theorem Coherent.exists_exploreCalls (wf : p.WellFormed) {room i : Nat} (hg : g.Coherent p)
    (hroom : p.methods.size ≤ room + i)
    (hvisited : ∀ j < i, ∀ m, g.reachable[j]? = some m → g.Visited p m) :
    ∃ g', p.exploreCalls room i g = .ok g' ∧ g'.Coherent p ∧ g.Extends g' ∧
      ∀ m ∈ g'.reachable, g'.Visited p m := by
  induction room generalizing g i with
  | zero =>
    -- as many methods have been visited as there are
    have hle := Table.length_le_of_nodup hg.nodup hg.methods
    exact ⟨g, rfl, hg, .refl g, visited_of_length_le (by omega) hvisited⟩
  | succ room ih =>
    unfold Program.exploreCalls
    cases hi : g.reachable[i]? with
    | none =>
      exact ⟨g, rfl, hg, .refl g, visited_of_length_le (List.getElem?_eq_none_iff.1 hi) hvisited⟩
    | some m =>
      obtain ⟨decl, g₁, hdecl, hrun, hg₁, hext₁, hm⟩ := hg.exists_visit wf (List.mem_of_getElem? hi)
      have hvisited₁ : ∀ j < i + 1, ∀ m', g₁.reachable[j]? = some m' → g₁.Visited p m' := by
        intro j hj m' hm'
        have hlt : i < g.reachable.length := (List.getElem?_eq_some_iff.1 hi).1
        -- the methods up to this one keep their positions
        have hold : g.reachable[j]? = some m' := by
          obtain ⟨later, hlater⟩ := hext₁.reachable
          rw [← hlater, List.getElem?_append_left (Nat.lt_of_lt_of_le hj hlt)] at hm'
          exact hm'
        rcases Nat.lt_succ_iff_lt_or_eq.1 hj with hj | rfl
        · exact (hvisited j hj m' hold).mono hext₁
        · obtain rfl := Option.some.inj (hi.symm.trans hold)
          exact hm
      obtain ⟨g₂, hrest, hg₂, hext₂, hdone⟩ := ih hg₁ (by omega) hvisited₁
      exact ⟨g₂, Outcome.bind_eq_ok.2 ⟨decl, hdecl, Outcome.bind_eq_ok.2 ⟨g₁, hrun, hrest⟩⟩, hg₂,
        hext₁.trans hext₂, hdone⟩

/-- Exploration starts from the entry alone. -/
theorem coherent_start (wf : p.WellFormed) :
    (({} : CallGraph StmtId MethodId).addEntry p.entry).Coherent p where
  indexed := indexed_empty.addEntry _
  nodup := List.nodup_singleton _
  methods := by
    intro m hm
    obtain rfl := List.mem_singleton.1 hm
    exact wf.entry
  edges := by intro e he; cases he

end CallGraph

/-! ## The graph -/

namespace Program

variable {p : Program}

/-- The graph that the hierarchy allows contains the entry and all calls of all its methods. -/
theorem exists_hierarchyCallGraph (wf : p.WellFormed) :
    ∃ g, p.hierarchyCallGraph = .ok g ∧ g.Coherent p ∧ p.entry ∈ g.reachable ∧
      ∀ m ∈ g.reachable, g.Visited p m := by
  -- nothing has been visited yet, and there is room for every method
  obtain ⟨g, hrun, hg, hext, hvisited⟩ := (CallGraph.coherent_start wf).exists_exploreCalls wf
    (Nat.le_refl _) (fun _ hj => absurd hj (Nat.not_lt_zero _))
  exact ⟨g, hrun, hg, hext.reachable.subset (List.mem_singleton_self _), hvisited⟩

end Program

end PointerAnalysis
