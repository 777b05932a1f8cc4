import Mathlib.Data.List.Forall2
import PointerAnalysis.CallGraph.MethodGraph
import PointerAnalysis.Proofs.GrowingLists
import PointerAnalysis.Proofs.Outcome

/-!
# Call graphs between methods

The method graph of a call graph gives each method a node when the method is first met, be it as a
reachable method or at an end of a call.  An arc is drawn between numbers, so what the arcs mean
depends on the nodes; the numbers that have been given stay right because nodes are only added.

## Main definitions

- `MethodGraph.Numbered`: the numbers of the methods are the positions of their nodes.
- `MethodGraph.Depicts`: nodes and arcs are the methods and calls of a call graph.

## Main statements

- `nodes_node`, `Numbered.node`: a method gets a node unless it has one.
- `depicts_ofCallGraph`: a method graph depicts its call graph.
-/

namespace PointerAnalysis.MethodGraph

variable {σ μ : Type} [DecidableEq μ] {g : MethodGraph μ} {m : μ}

/-! ## Nodes -/

/-- The number of a method is the position of its node. -/
def Numbered (g : MethodGraph μ) : Prop :=
  ∀ m i, g.numbers.lookup m = some i ↔ g.nodes[i]? = some m

theorem numbered_empty : ({} : MethodGraph μ).Numbered := fun m i => by simp

/-- The methods with nodes are those with numbers. -/
theorem Numbered.mem_nodes (hg : g.Numbered) : m ∈ g.nodes ↔ ∃ i, g.numbers.lookup m = some i := by
  rw [List.mem_iff_getElem?]
  exact exists_congr fun i => (hg m i).symm

/-- A method that has a number keeps its node. -/
theorem node_of_lookup {i : Nat} (h : g.numbers.lookup m = some i) : g.node m = (i, g) := by
  rw [node, h]

/-- A method without a number gets the next node. -/
theorem node_of_new (h : g.numbers.lookup m = none) :
    g.node m = (g.nodes.length,
      { g with nodes := g.nodes ++ [m], numbers := (m, g.nodes.length) :: g.numbers }) := by
  rw [node, h]

/-- To give a method a node draws nothing. -/
theorem arcs_node (g : MethodGraph μ) (m : μ) : (g.node m).2.arcs = g.arcs := by
  unfold node
  split <;> rfl

/-- A method gets a node unless it has one. -/
theorem nodes_node (hg : g.Numbered) (m : μ) : (g.node m).2.nodes = keepNew g.nodes m := by
  cases h : g.numbers.lookup m with
  | some i => rw [node_of_lookup h, keepNew_of_mem (hg.mem_nodes.2 ⟨i, h⟩)]
  | none =>
    have hnew : m ∉ g.nodes := fun hm => by
      obtain ⟨i, hi⟩ := hg.mem_nodes.1 hm
      rw [h] at hi
      cases hi
    rw [node_of_new h, keepNew_of_notMem hnew]

/-- The number that is answered is that of the node. -/
theorem getElem?_node (hg : g.Numbered) (m : μ) : (g.node m).2.nodes[(g.node m).1]? = some m := by
  cases h : g.numbers.lookup m with
  | some i =>
    rw [node_of_lookup h]
    exact (hg m i).1 h
  | none =>
    rw [node_of_new h]
    exact List.getElem?_concat_length

/-- Numbers and positions stay in step when a method gets its node. -/
theorem Numbered.node (hg : g.Numbered) (m : μ) : (g.node m).2.Numbered := by
  cases h : g.numbers.lookup m with
  | some i =>
    rw [node_of_lookup h]
    exact hg
  | none =>
    rw [node_of_new h]
    intro m' i
    by_cases hm : m' = m
    · -- the new number is the position at the end
      subst hm
      rw [List.lookup_cons_self]
      refine ⟨fun e => Option.some.inj e ▸ List.getElem?_concat_length, fun hi => ?_⟩
      rcases getElem?_concat_cases hi with hi | ⟨rfl, -⟩
      · exact nomatch h.symm.trans ((hg m' i).2 hi)
      · rfl
    · -- the other methods keep their numbers, all of which are positions further in front
      rw [List.lookup_cons, beq_false_of_ne hm]
      refine (hg m' i).trans ⟨getElem?_mono (List.prefix_append _ _), fun hi => ?_⟩
      exact (getElem?_concat_cases hi).resolve_right fun h => hm h.2

/-- Nodes for some methods, one after the other. -/
theorem foldl_node (hg : g.Numbered) (ms : List μ) :
    (ms.foldl (fun g m => (g.node m).2) g).Numbered ∧
      (ms.foldl (fun g m => (g.node m).2) g).nodes = ms.foldl keepNew g.nodes ∧
      (ms.foldl (fun g m => (g.node m).2) g).arcs = g.arcs := by
  induction ms generalizing g with
  | nil => exact ⟨hg, rfl, rfl⟩
  | cons m ms ih =>
    obtain ⟨hnumbered, hnodes, harcs⟩ := ih (hg.node m)
    exact ⟨hnumbered, hnodes.trans (by rw [nodes_node hg]; rfl), harcs.trans (arcs_node g m)⟩

/-! ## Arcs -/

section Draws

variable {nodes nodes' : List μ} {f : σ → μ} {e : CallEdge σ μ} {arc : Nat × Nat × CallKind}

/-- An arc is drawn for a call: between the nodes of the method of its site and of its callee, and of
its kind. -/
def Draws (nodes : List μ) (f : σ → μ) (e : CallEdge σ μ) (arc : Nat × Nat × CallKind) : Prop :=
  nodes[arc.1]? = some (f e.site) ∧ nodes[arc.2.1]? = some e.callee ∧ arc.2.2 = e.kind

omit [DecidableEq μ] in
/-- What is drawn stays drawn when nodes are added. -/
theorem Draws.mono (h : nodes <+: nodes') (hd : Draws nodes f e arc) : Draws nodes' f e arc :=
  ⟨getElem?_mono h hd.1, getElem?_mono h hd.2.1, hd.2.2⟩

end Draws

/-- Some calls are drawn, after some methods have been given nodes. -/
structure Drawn (ms : List μ) (f : σ → μ) (done : List (CallEdge σ μ)) (g : MethodGraph μ) :
    Prop where
  numbered : g.Numbered
  nodes : g.nodes = (ms ++ done.flatMap fun e => [f e.site, e.callee]).eraseDups
  arcs : List.Forall₂ (Draws g.nodes f) done g.arcs

/-- Before the first call is drawn, the reachable methods have their nodes. -/
theorem drawn_nil (ms : List μ) (f : σ → μ) :
    Drawn ms f [] (ms.foldl (fun g m => (g.node m).2) {}) := by
  obtain ⟨hnumbered, hnodes, harcs⟩ := foldl_node numbered_empty ms
  refine ⟨hnumbered, ?_, ?_⟩
  · rw [hnodes]
    simpa using foldl_keepNew [] ms
  · rw [harcs]
    exact .nil

/-- The ends of a call get their nodes before the arc is drawn, the caller first. -/
theorem nodes_addArc (hg : g.Numbered) (caller callee : μ) (kind : CallKind) :
    (g.addArc caller callee kind).nodes = keepNew (keepNew g.nodes caller) callee := by
  rw [← nodes_node hg]
  exact nodes_node (hg.node caller) callee

/-- The next call is drawn when both of its ends have got their nodes. -/
theorem Drawn.addArc {ms : List μ} {f : σ → μ} {done : List (CallEdge σ μ)} (h : Drawn ms f done g)
    (e : CallEdge σ μ) : Drawn ms f (done ++ [e]) (g.addArc (f e.site) e.callee e.kind) := by
  have hnodes := nodes_addArc h.numbered (f e.site) e.callee e.kind
  have hcaller := h.numbered.node (f e.site)
  refine ⟨hcaller.node e.callee, ?_, ?_⟩
  · rw [hnodes, h.nodes, ← eraseDups_concat, ← eraseDups_concat]
    simp
  · -- the new arc has the numbers of both ends, and the others stay drawn
    have harcs : (g.addArc (f e.site) e.callee e.kind).arcs =
        g.arcs ++ [((g.node (f e.site)).1, ((g.node (f e.site)).2.node e.callee).1, e.kind)] :=
      congrArg (· ++ _) ((arcs_node _ e.callee).trans (arcs_node g (f e.site)))
    have hprefix : (g.node (f e.site)).2.nodes <+: (g.addArc (f e.site) e.callee e.kind).nodes := by
      rw [hnodes, nodes_node h.numbered]
      exact prefix_keepNew _ _
    have hold : g.nodes <+: (g.node (f e.site)).2.nodes := by
      rw [nodes_node h.numbered]
      exact prefix_keepNew _ _
    have hlast : Draws (g.addArc (f e.site) e.callee e.kind).nodes f e
        ((g.node (f e.site)).1, ((g.node (f e.site)).2.node e.callee).1, e.kind) :=
      ⟨getElem?_mono hprefix (getElem?_node h.numbered _), getElem?_node hcaller _, rfl⟩
    rw [harcs]
    exact List.rel_append (h.arcs.imp fun _ _ => Draws.mono (hold.trans hprefix)) (.cons hlast .nil)

/-! ## The graph -/

/-- The nodes are the reachable methods and then the ends of the calls, each where it is met first;
the arcs are the calls, in their order. -/
structure Depicts (g : MethodGraph μ) (calls : CallGraph σ μ) (f : σ → μ) : Prop where
  nodes : g.nodes =
    (calls.reachable ++ calls.edges.flatMap fun e => [f e.site, e.callee]).eraseDups
  nodup : g.nodes.Nodup
  arcs : List.Forall₂ (Draws g.nodes f) calls.edges g.arcs

/-- A method graph depicts its call graph, whatever methods the call sites belong to. -/
theorem depicts_ofCallGraph (calls : CallGraph σ μ) {container : σ → Outcome μ} {f : σ → μ}
    (hf : ∀ e ∈ calls.edges, container e.site = .ok (f e.site)) :
    ∃ g, ofCallGraph calls container = .ok g ∧ g.Depicts calls f := by
  obtain ⟨g, hg, h⟩ : ∃ g, ofCallGraph calls container = .ok g ∧
      Drawn calls.reachable f calls.edges g := by
    refine Outcome.exists_foldlM_eq_ok (drawn_nil calls.reachable f) fun done e g he hdone => ?_
    exact ⟨_, by rw [hf e he]; rfl, hdone.addArc e⟩
  exact ⟨g, hg, h.nodes, h.nodes ▸ nodup_eraseDups _, h.arcs⟩

end PointerAnalysis.MethodGraph
