import PointerAnalysis.Proofs.CallGraph.MethodGraph
import PointerAnalysis.Proofs.Graphs

/-!
# A call graph under any insertions

Entries, methods and calls are inserted into a call graph in any order, and repeatedly.  The graph
keeps the first of equal ones.  What it is asked afterwards it looks up in indexes that have been
written one by one, and they answer as if the lists of methods and of edges were searched.

## Main definitions

- `CallGraph.Insertion`: what is inserted.
- `CallGraph.Records`: the lists hold what was inserted first.
- `CallGraph.Answers`: the indexes answer for the lists.

## Main statements

- `Records.insert`: an insertion is recorded after the others.
- `Indexed.answers`: a graph that is indexed answers for its lists.
- `records_after`: after any insertions the graph records them, answers for them and is depicted.
-/

namespace PointerAnalysis.CallGraph

variable {σ μ : Type} [DecidableEq σ] [DecidableEq μ]

/-! ## Insertions -/

/-- What is inserted into a call graph. -/
inductive Insertion (σ μ : Type) where
  | entry (m : μ)
  | method (m : μ)
  | edge (e : CallEdge σ μ)

namespace Insertion

/-- The graph goes on with what is inserted. -/
def into (g : CallGraph σ μ) : Insertion σ μ → CallGraph σ μ
  | entry m => g.addEntry m
  | method m => (g.reach m).2
  | edge e => (g.addEdge e).2

/-- The method that becomes an entry. -/
def entry? : Insertion σ μ → Option μ
  | entry m => some m
  | _ => none

/-- The method that becomes reachable. -/
def method? : Insertion σ μ → Option μ
  | entry m | method m => some m
  | edge _ => none

/-- The call. -/
def edge? : Insertion σ μ → Option (CallEdge σ μ)
  | edge e => some e
  | _ => none

end Insertion

/-- The graph after some insertions. -/
def after (insertions : List (Insertion σ μ)) : CallGraph σ μ := insertions.foldl Insertion.into {}

/-- Whether two edges lead from the same site to the same callee, of whatever kind they are. -/
def sameEnds (e e' : CallEdge σ μ) : Bool := e.site = e'.site ∧ e.callee = e'.callee

variable {g : CallGraph σ μ} {insertions : List (Insertion σ μ)}

/-! ## What an insertion does -/

/-- The set of pairs, in which an edge is looked up, answers as a search through the edges would. -/
theorem any_sameEnds (hg : g.Indexed) (e : CallEdge σ μ) :
    g.edges.any (sameEnds e) = g.hasEdge e.site e.callee := by
  rw [Bool.eq_iff_iff, hg.pairs, List.any_eq_true]
  refine exists_congr fun e' => and_congr_right fun _ => ?_
  rw [sameEnds, decide_eq_true_eq, eq_comm (a := e.site), eq_comm (a := e.callee)]

/-- An edge is kept unless there is one between the same ends. -/
theorem edges_addEdge_eq (hg : g.Indexed) (e : CallEdge σ μ) :
    (g.addEdge e).2.edges = keepNewBy sameEnds g.edges e := by
  rw [keepNewBy, any_sameEnds hg]
  cases h : g.hasEdge e.site e.callee with
  | true => rw [addEdge_of_hasEdge h, if_pos rfl]
  | false => rw [edges_addEdge h, if_neg Bool.false_ne_true]

/-- Whatever is inserted, the indexes stay in step with the edges. -/
theorem Indexed.into (hg : g.Indexed) (i : Insertion σ μ) : (i.into g).Indexed := by
  cases i with
  | entry m => exact hg.addEntry m
  | method m => exact hg.reach m
  | edge e =>
    cases h : g.hasEdge e.site e.callee with
    | true =>
      rw [Insertion.into, addEdge_of_hasEdge h]
      exact hg
    | false => exact hg.addEdge h

/-- Each list is given just what an insertion has for it. -/
theorem lists_into (hg : g.Indexed) (i : Insertion σ μ) :
    (i.into g).entries = i.entry?.elim g.entries (keepNew g.entries) ∧
      (i.into g).reachable = i.method?.elim g.reachable (keepNew g.reachable) ∧
      (i.into g).edges = i.edge?.elim g.edges (keepNewBy sameEnds g.edges) := by
  cases i with
  | entry m => exact ⟨g.entries_addEntry m, g.reachable_addEntry m, edges_addEntry⟩
  | method m => exact ⟨entries_reach, g.reachable_reach m, edges_reach⟩
  | edge e => exact ⟨entries_addEdge, reachable_addEdge, edges_addEdge_eq hg e⟩

/-! ## What is recorded -/

/-- The lists of a graph hold what was inserted, each where it was inserted first, and the indexes
are in step with them. -/
structure Records (g : CallGraph σ μ) (insertions : List (Insertion σ μ)) : Prop where
  entries : g.entries = (insertions.filterMap Insertion.entry?).eraseDups
  reachable : g.reachable = (insertions.filterMap Insertion.method?).eraseDups
  /-- Of the edges between the same ends the first one is kept. -/
  edges : g.edges = (insertions.filterMap Insertion.edge?).eraseDupsBy sameEnds
  indexed : g.Indexed

theorem records_empty : ({} : CallGraph σ μ).Records [] := ⟨rfl, rfl, rfl, indexed_empty⟩

/-- Of all that is inserted, each list takes what concerns it, and goes on with that alone. -/
theorem eraseDups_filterMap_concat {α β : Type} [DecidableEq β] {f : α → Option β} {xs : List α}
    {kept : List β} (h : kept = (xs.filterMap f).eraseDups) (x : α) :
    (f x).elim kept (keepNew kept) = ((xs ++ [x]).filterMap f).eraseDups := by
  rw [List.filterMap_append, h]
  cases e : f x with
  | none => simp [e]
  | some y => simp [e, eraseDups_concat]

/-- An insertion is recorded after the others. -/
theorem Records.insert (hg : g.Records insertions) (i : Insertion σ μ) :
    (i.into g).Records (insertions ++ [i]) := by
  obtain ⟨hentries, hreachable, hedges⟩ := lists_into hg.indexed i
  refine ⟨hentries.trans (eraseDups_filterMap_concat hg.entries i),
    hreachable.trans (eraseDups_filterMap_concat hg.reachable i), hedges.trans ?_,
    hg.indexed.into i⟩
  rw [List.filterMap_append, hg.edges]
  cases e : i.edge? with
  | none => simp [e]
  | some y => simp [e, eraseDupsBy_concat]

/-- After any insertions, each of them is recorded. -/
theorem records_after_insertions (insertions : List (Insertion σ μ)) :
    (after insertions).Records insertions := by
  -- the graph is built from the front, so the last insertion comes to what is recorded of the others
  induction insertions using List.reverseRecOn with
  | nil => exact records_empty
  | append_singleton insertions i ih =>
    rw [after, List.foldl_append]
    exact ih.insert i

/-! ## What is answered -/

/-- A graph answers for its lists.  An edge is new if there is none between its ends, and otherwise
nothing changes; the edges at a site or a callee are those of the list, in their order. -/
structure Answers (g : CallGraph σ μ) : Prop where
  new_iff : ∀ e, (g.addEdge e).1 = true ↔
    ∀ e' ∈ g.edges, ¬ (e'.site = e.site ∧ e'.callee = e.callee)
  unchanged : ∀ e, (g.addEdge e).1 = false → (g.addEdge e).2 = g
  edgesOutOf : ∀ site, g.edgesOutOf site = g.edges.filter fun e => e.site = site
  edgesInto : ∀ m, g.edgesInto m = g.edges.filter fun e => e.callee = m
  calleesOf_iff : ∀ site m, m ∈ g.calleesOf site ↔ g.hasEdge site m = true
  callersOf_iff : ∀ site m, site ∈ g.callersOf m ↔ g.hasEdge site m = true
  contains_iff : ∀ m, g.contains m = true ↔ m ∈ g.reachable

/-- A graph that is indexed answers for its lists. -/
theorem Indexed.answers (hg : g.Indexed) : g.Answers where
  new_iff e := by
    have hpairs := hg.pairs e.site e.callee
    cases h : g.hasEdge e.site e.callee with
    | true =>
      obtain ⟨e', he', hends⟩ := hpairs.1 h
      rw [addEdge_of_hasEdge h]
      exact iff_of_false Bool.false_ne_true fun hnew => hnew e' he' hends
    | false =>
      -- an edge with these ends would be among the pairs
      refine iff_of_true (addEdge_fst h) fun e' he' hends => ?_
      exact nomatch h.symm.trans (hpairs.2 ⟨e', he', hends⟩)
  unchanged e hold := by
    cases h : g.hasEdge e.site e.callee with
    | true => rw [addEdge_of_hasEdge h]
    | false => exact nomatch hold.symm.trans (addEdge_fst h)
  edgesOutOf := hg.edgesOutOf_eq
  edgesInto := hg.edgesInto_eq
  calleesOf_iff _ _ := hg.mem_calleesOf_iff
  callersOf_iff _ _ := hg.mem_callersOf_iff
  contains_iff _ := contains_iff

/-- Methods are listed once. -/
theorem Records.nodup (hg : g.Records insertions) : g.reachable.Nodup :=
  hg.reachable ▸ nodup_eraseDups _

/-- Entries are reachable, because they are inserted into both lists. -/
theorem Records.reachable_of_entry (hg : g.Records insertions) {m : μ} (hm : m ∈ g.entries) :
    m ∈ g.reachable := by
  rw [hg.entries, List.mem_eraseDups, List.mem_filterMap] at hm
  rw [hg.reachable, List.mem_eraseDups, List.mem_filterMap]
  obtain ⟨i, hi, e⟩ := hm
  cases i with
  | entry m' => exact ⟨_, hi, e⟩
  | _ => cases e

/-- After any insertions the graph holds those that came first and answers for them.  Its methods
are listed once, with the entries among them; and the method graph, whatever methods the call sites
belong to, has these methods and the ends of the calls as its nodes and the calls as its arcs. -/
theorem records_after (insertions : List (Insertion σ μ)) :
    (after insertions).Records insertions ∧ (after insertions).Answers ∧
      (after insertions).reachable.Nodup ∧
      (∀ m ∈ (after insertions).entries, m ∈ (after insertions).reachable) ∧
      ∀ container : σ → μ, ∃ view,
        MethodGraph.ofCallGraph (after insertions) (fun site => .ok (container site)) = .ok view ∧
          view.Depicts (after insertions) container := by
  have h := records_after_insertions insertions
  exact ⟨h, h.indexed.answers, h.nodup, fun m => h.reachable_of_entry, fun container =>
    MethodGraph.depicts_ofCallGraph _ fun e _ => rfl⟩

/-- A second call between the same ends is not kept, although it is of another kind. -/
example : (after [.edge ⟨.virtual, 3, 1⟩, .entry 2, .edge ⟨.special, 3, 1⟩, .edge ⟨.static, 3, 2⟩] :
    CallGraph Nat Nat).edges = [⟨.virtual, 3, 1⟩, ⟨.static, 3, 2⟩] := by decide

end PointerAnalysis.CallGraph
