import Mathlib.Data.List.Basic
import Mathlib.Data.List.Induction
import PointerAnalysis.CallGraph.Basic
import PointerAnalysis.FlowGraph
import PointerAnalysis.Proofs.GrowingLists

/-!
# Growing graphs

Flow graphs and call graphs answer for exactly the edges that were added to them.

## Main statements

- `FlowGraph.hasEdge_addEdge`, `FlowGraph.Counted.addEdge`: the edges of a flow graph, and their
  number.
- `CallGraph.Indexed.addEdge`: the indexes of a call graph stay in step with its edges.
- `CallGraph.Indexed.edgesOutOf_eq`, `CallGraph.Indexed.edgesInto_eq`: what the indexes find.
- `CallGraph.mem_reachable_reach`: the methods that can run.
-/

namespace PointerAnalysis

/-! ## Flow -/

namespace FlowGraph

variable {g : FlowGraph} {a b x y : PointerId}

theorem hasEdge_iff : g.hasEdge x y = true ↔ y ∈ g.successorsOf x := by
  simp [hasEdge]

/-- The size of a flow graph is the number of its edges, and no edge is listed twice. -/
structure Counted (g : FlowGraph) : Prop where
  edges : ∃ edges : List (PointerId × PointerId), edges.Nodup ∧ edges.length = g.size ∧
    ∀ x y, (x, y) ∈ edges ↔ g.hasEdge x y = true
  nodup : ∀ x, (g.successorsOf x).Nodup

theorem not_hasEdge_empty : ({} : FlowGraph).hasEdge x y = false := rfl

/-- A graph without edges counts none. -/
theorem counted_empty : ({} : FlowGraph).Counted where
  edges := ⟨[], List.nodup_nil, rfl, fun x y => by simp [not_hasEdge_empty]⟩
  nodup _ := List.nodup_nil

/-- To add an edge twice changes nothing, and the answer says so. -/
theorem addEdge_of_hasEdge (h : g.hasEdge a b = true) : g.addEdge a b = (false, g) := by
  rw [addEdge, if_pos h]

theorem addEdge_fst (h : g.hasEdge a b = false) : (g.addEdge a b).1 = true := by
  simp [addEdge, h]

theorem size_addEdge (h : g.hasEdge a b = false) : (g.addEdge a b).2.size = g.size + 1 := by
  simp [addEdge, h]

/-- A new edge is the last one out of its source, and the edges out of other pointers stay. -/
theorem successorsOf_addEdge (h : g.hasEdge a b = false) :
    (g.addEdge a b).2.successorsOf x = g.successorsOf x ++ if x = a then [b] else [] := by
  simp only [addEdge, h, Bool.false_eq_true, if_false, successorsOf, Multimap.get_add]
  -- only the row of the source is written to
  by_cases e : x = a
  · rw [if_pos e, if_pos e, e]
  · rw [if_neg e, if_neg e, List.append_nil]

/-- After an edge is added, the graph answers for it and for the edges it had. -/
theorem hasEdge_addEdge :
    (g.addEdge a b).2.hasEdge x y = true ↔ g.hasEdge x y = true ∨ x = a ∧ y = b := by
  -- an edge that is there already is not added again
  by_cases h : g.hasEdge a b = true
  · rw [addEdge_of_hasEdge h]
    refine ⟨Or.inl, ?_⟩
    intro h'
    rcases h' with hxy | ⟨rfl, rfl⟩
    · exact hxy
    · exact h
  · rw [hasEdge_iff, hasEdge_iff, successorsOf_addEdge (Bool.not_eq_true _ ▸ h),
      List.mem_append]
    by_cases e : x = a
    · simp [e]
    · simp [e]

/-- A new edge is counted, and is listed once. -/
theorem Counted.addEdge (h : g.Counted) (hab : g.hasEdge a b = false) :
    (g.addEdge a b).2.Counted where
  edges := by
    obtain ⟨edges, hnodup, hlength, hmem⟩ := h.edges
    refine ⟨(a, b) :: edges, ?_, ?_, fun x y => ?_⟩
    · -- the edge is new, so it is not listed yet
      refine List.nodup_cons.2 ⟨fun hin => ?_, hnodup⟩
      rw [hmem, hab] at hin
      cases hin
    · rw [List.length_cons, hlength, size_addEdge hab]
    · -- the list and the graph have gained the same edge
      rw [List.mem_cons, Prod.mk.injEq, hmem, hasEdge_addEdge, or_comm]
  nodup x := by
    rw [successorsOf_addEdge hab]
    by_cases e : x = a
    · -- `b` is not among the successors of `a`, or there would be an edge already
      rw [if_pos e]
      refine List.nodup_append.2 ⟨h.nodup x, List.pairwise_singleton _ b, ?_⟩
      intro y hy z hz e
      subst e
      rw [List.mem_singleton.1 hz, e, ← hasEdge_iff, hab] at hy
      cases hy
    · rw [if_neg e, List.append_nil]
      exact h.nodup x

end FlowGraph

/-! ## Calls -/

namespace CallGraph

variable {σ μ : Type} [DecidableEq σ] [DecidableEq μ] {g : CallGraph σ μ}

omit [DecidableEq σ] in
/-- The set of discovered methods, which answers quickly, and the list of reachable ones agree. -/
theorem contains_iff {m : μ} : g.contains m = true ↔ m ∈ g.reachable := by
  rw [contains, decide_eq_true_eq]
  exact g.discovered.inStep m

/-- The indexes of a call graph are in step with its edges: the pairs are those of the edges, and
the positions under a key are those of the edges with that end. -/
structure Indexed (g : CallGraph σ μ) : Prop where
  pairs : ∀ site m, g.hasEdge site m = true ↔ ∃ e ∈ g.edges, e.site = site ∧ e.callee = m
  outgoing : ∀ site, g.outgoing.get site = g.edges.findIdxs fun e => e.site = site
  incoming : ∀ m, g.incoming.get m = g.edges.findIdxs fun e => e.callee = m

/-- The elements at the positions where a test succeeds are those that satisfy the test. -/
theorem filterMap_findIdxs {α : Type} (xs : List α) (p : α → Bool) :
    (xs.findIdxs p).filterMap (xs[·]?) = xs.filter p := by
  -- the induction is from the end, because positions are counted from the front
  induction xs using List.reverseRecOn with
  | nil => rfl
  | append_singleton xs x ih =>
    -- the positions in front of `x` find what they found before
    have hold : (xs.findIdxs p).filterMap ((xs ++ [x])[·]?) = (xs.findIdxs p).filterMap (xs[·]?) := by
      refine List.filterMap_congr fun i hi => ?_
      exact List.getElem?_append_left (List.lt_add_of_mem_findIdxs i hi)
    rw [List.findIdxs_append, List.filterMap_append, List.filter_append, hold, ih,
      List.findIdxs_singleton, Nat.zero_add]
    by_cases hp : p x = true
    · simp [hp]
    · simp [hp]

/-- The index by call sites finds the edges out of a site, in the order in which they were added. -/
theorem Indexed.edgesOutOf_eq (hg : g.Indexed) (site : σ) :
    g.edgesOutOf site = g.edges.filter fun e => e.site = site := by
  rw [edgesOutOf, edgesAt, hg.outgoing, filterMap_findIdxs]

/-- The index by callees finds the edges into a method, in the order in which they were added. -/
theorem Indexed.edgesInto_eq (hg : g.Indexed) (m : μ) :
    g.edgesInto m = g.edges.filter fun e => e.callee = m := by
  rw [edgesInto, edgesAt, hg.incoming, filterMap_findIdxs]

/-- The callees of a site are the ends of the edges out of it. -/
theorem Indexed.mem_calleesOf (hg : g.Indexed) {site : σ} {m : μ} :
    m ∈ g.calleesOf site ↔ ∃ e ∈ g.edges, e.site = site ∧ e.callee = m := by
  simp [calleesOf, hg.edgesOutOf_eq, and_assoc]

/-- The callers of a method are the sites of the edges into it. -/
theorem Indexed.mem_callersOf (hg : g.Indexed) {site : σ} {m : μ} :
    site ∈ g.callersOf m ↔ ∃ e ∈ g.edges, e.site = site ∧ e.callee = m := by
  simp [callersOf, hg.edgesInto_eq, and_assoc, and_comm]

/-- An edge is found from both of its ends. -/
theorem Indexed.mem_calleesOf_iff (hg : g.Indexed) {site : σ} {m : μ} :
    m ∈ g.calleesOf site ↔ g.hasEdge site m = true :=
  hg.mem_calleesOf.trans (hg.pairs site m).symm

theorem Indexed.mem_callersOf_iff (hg : g.Indexed) {site : σ} {m : μ} :
    site ∈ g.callersOf m ↔ g.hasEdge site m = true :=
  hg.mem_callersOf.trans (hg.pairs site m).symm

theorem addEdge_of_hasEdge {e : CallEdge σ μ} (h : g.hasEdge e.site e.callee = true) :
    g.addEdge e = (false, g) := by
  rw [addEdge, if_pos h]

theorem addEdge_fst {e : CallEdge σ μ} (h : g.hasEdge e.site e.callee = false) :
    (g.addEdge e).1 = true := by
  simp [addEdge, h]

/-- A new edge comes last. -/
theorem edges_addEdge {e : CallEdge σ μ} (h : g.hasEdge e.site e.callee = false) :
    (g.addEdge e).2.edges = g.edges ++ [e] := by
  simp [addEdge, h]

/-- To record a call makes nothing reachable; that is up to `reach`. -/
theorem reachable_addEdge {e : CallEdge σ μ} : (g.addEdge e).2.reachable = g.reachable := by
  unfold addEdge
  split
  · rfl
  · rfl

/-- The indexes of a graph without edges are empty. -/
theorem indexed_empty : ({} : CallGraph σ μ).Indexed where
  pairs site m := by simp [hasEdge]
  outgoing _ := rfl
  incoming _ := rfl

/-- All four collections are kept in step by a new edge: the list, the pairs and both indexes. -/
theorem Indexed.addEdge (hg : g.Indexed) {e : CallEdge σ μ}
    (h : g.hasEdge e.site e.callee = false) : (g.addEdge e).2.Indexed := by
  -- the graph after the edge, with each of its collections written out
  have hnew : (g.addEdge e).2 = { g with
      edges := g.edges ++ [e]
      pairs := (e.site, e.callee) :: g.pairs
      outgoing := g.outgoing.add e.site g.edges.length
      incoming := g.incoming.add e.callee g.edges.length } := by
    simp [CallGraph.addEdge, h]
  rw [hnew]
  refine ⟨fun site m => ?_, fun site => ?_, fun m => ?_⟩
  · -- the pairs of the edges have gained the pair of the new one
    have hold := hg.pairs site m
    simp only [hasEdge, decide_eq_true_eq] at hold ⊢
    rw [List.mem_cons, hold, Prod.mk.injEq]
    simp only [List.mem_append, List.mem_singleton, or_and_right, exists_or, exists_eq_left]
    rw [or_comm, eq_comm (a := site), eq_comm (a := m)]
  · -- the new edge comes last, and only under its own site
    rw [Multimap.get_add, List.findIdxs_append, List.findIdxs_singleton, Nat.zero_add]
    by_cases hs : site = e.site
    · simp [hs, hg.outgoing]
    · simp [hs, Ne.symm hs, hg.outgoing]
  · -- likewise under its own callee
    rw [Multimap.get_add, List.findIdxs_append, List.findIdxs_singleton, Nat.zero_add]
    by_cases hm : m = e.callee
    · simp [hm, hg.incoming]
    · simp [hm, Ne.symm hm, hg.incoming]

omit [DecidableEq σ] in
theorem edges_reach {m : μ} : (g.reach m).2.edges = g.edges := by
  unfold reach
  split
  · rfl
  · rfl

/-- The indexes are about edges, which stay when a method becomes reachable. -/
theorem Indexed.reach (hg : g.Indexed) (m : μ) : (g.reach m).2.Indexed := by
  unfold CallGraph.reach
  split
  · exact hg
  · exact ⟨hg.pairs, hg.outgoing, hg.incoming⟩

theorem Indexed.addEntry (hg : g.Indexed) (m : μ) : (g.addEntry m).Indexed := by
  unfold CallGraph.addEntry
  dsimp only
  split
  · exact hg.reach m
  · -- a new entry is listed first, and that touches no edge either
    exact Indexed.reach (g := { g with entries := g.entries ++ [m] })
      ⟨hg.pairs, hg.outgoing, hg.incoming⟩ m

omit [DecidableEq σ] in
/-- A method that becomes reachable is listed last, unless it is listed already. -/
theorem reachable_reach (g : CallGraph σ μ) (m : μ) :
    (g.reach m).2.reachable = keepNew g.reachable m := by
  unfold reach
  split
  · -- the method is left out as already discovered exactly when it is already listed
    rename_i h
    exact (keepNew_of_mem (contains_iff.1 h)).symm
  · rename_i h
    exact (keepNew_of_notMem (mt contains_iff.2 h)).symm

omit [DecidableEq σ] in
theorem mem_reachable_reach {m m' : μ} :
    m' ∈ (g.reach m).2.reachable ↔ m' ∈ g.reachable ∨ m' = m := by
  rw [reachable_reach, mem_keepNew]

omit [DecidableEq σ] in
theorem entries_reach {m : μ} : (g.reach m).2.entries = g.entries := by
  unfold reach
  split <;> rfl

theorem entries_addEdge {e : CallEdge σ μ} : (g.addEdge e).2.entries = g.entries := by
  unfold addEdge
  split <;> rfl

omit [DecidableEq σ] in
theorem edges_addEntry {m : μ} : (g.addEntry m).edges = g.edges := by
  unfold addEntry
  dsimp only
  split
  · exact edges_reach
  · exact edges_reach

omit [DecidableEq σ] in
/-- An entry method is listed once, however often it is added. -/
theorem entries_addEntry (g : CallGraph σ μ) (m : μ) :
    (g.addEntry m).entries = keepNew g.entries m := by
  unfold addEntry
  dsimp only
  rw [entries_reach, keepNew]
  split <;> rfl

omit [DecidableEq σ] in
/-- An entry method is reachable. -/
theorem reachable_addEntry (g : CallGraph σ μ) (m : μ) :
    (g.addEntry m).reachable = keepNew g.reachable m := by
  unfold addEntry
  dsimp only
  rw [reachable_reach]
  split <;> rfl

omit [DecidableEq σ] in
theorem mem_reachable_addEntry {m m' : μ} :
    m' ∈ (g.addEntry m).reachable ↔ m' ∈ g.reachable ∨ m' = m := by
  rw [reachable_addEntry, mem_keepNew]

omit [DecidableEq σ] in
/-- The order of discovery is never changed, only continued. -/
theorem reachable_reach_prefix (m : μ) : g.reachable <+: (g.reach m).2.reachable := by
  rw [reachable_reach]
  exact prefix_keepNew _ _

omit [DecidableEq σ] in
theorem nodup_reach {m : μ} (h : g.reachable.Nodup) : (g.reach m).2.reachable.Nodup := by
  rw [reachable_reach]
  exact nodup_keepNew h m

end CallGraph

end PointerAnalysis
