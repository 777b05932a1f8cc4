import PointerAnalysis.Proofs.Program.Closed
import PointerAnalysis.Proofs.Result.Queries

/-!
# What a result shows by name

Signatures, names of variables and labels of objects are read from the program that was analyzed.  A
run meets no method, variable, call or type whose name could not be read there, so whatever a result
mentions can be shown.

## Main definitions

- `Result.Presentable`: what a result mentions has a name in the program.
- `Result.labelsOf`: what a variable may refer to, by labels.

## Main statements

- `presentable_of_solve`: the results of runs are presentable.
- `Presentable.exists_labelsOf`, `Presentable.exists_toDot`: labels and graphs can be shown.
-/

namespace PointerAnalysis

open Solver

/-! ## Method graphs -/

namespace MethodGraph

variable {σ μ : Type} [DecidableEq μ] {g : MethodGraph μ} {P : μ → Prop}

/-- A node that is looked up is the only one that may be new. -/
theorem forall_nodes_node {m : μ} (hg : ∀ n ∈ g.nodes, P n) (hm : P m) :
    ∀ n ∈ (g.node m).2.nodes, P n := by
  unfold node
  split
  · exact hg
  · intro n hn
    rcases List.mem_append.1 hn with hn | hn
    · exact hg n hn
    · exact List.mem_singleton.1 hn ▸ hm

/-- An arc brings no nodes but its ends. -/
theorem forall_nodes_addArc {caller callee : μ} {kind : CallKind} (hg : ∀ n ∈ g.nodes, P n)
    (hcaller : P caller) (hcallee : P callee) : ∀ n ∈ (g.addArc caller callee kind).nodes, P n :=
  forall_nodes_node (forall_nodes_node hg hcaller) hcallee

/-- Methods that are added one after the other become nodes, and nothing else does. -/
theorem forall_nodes_foldl_node (ms : List μ) (hg : ∀ n ∈ g.nodes, P n) (hms : ∀ m ∈ ms, P m) :
    ∀ n ∈ (ms.foldl (fun g m => (g.node m).2) g).nodes, P n := by
  induction ms generalizing g with
  | nil => exact hg
  | cons m ms ih =>
    obtain ⟨hm, hms⟩ := List.forall_mem_cons.1 hms
    exact ih (forall_nodes_node hg hm) hms

/-- The method graph of a call graph has no nodes but the reachable methods and the ends of
calls. -/
theorem exists_ofCallGraph {calls : CallGraph σ μ} {container : σ → Outcome μ}
    (hreachable : ∀ m ∈ calls.reachable, P m)
    (hedges : ∀ e ∈ calls.edges, (∃ m, container e.site = .ok m ∧ P m) ∧ P e.callee) :
    ∃ g, ofCallGraph calls container = .ok g ∧ ∀ n ∈ g.nodes, P n := by
  refine Outcome.exists_foldlM_eq_ok
    (P := fun (_ : List (CallEdge σ μ)) (g : MethodGraph μ) => ∀ n ∈ g.nodes, P n)
    (forall_nodes_foldl_node _ (by simp) hreachable) ?_
  intro done e g he hg
  obtain ⟨⟨m, hm, hP⟩, hcallee⟩ := hedges e he
  exact ⟨_, Outcome.bind_eq_ok.2 ⟨m, hm, rfl⟩, forall_nodes_addArc hg hP hcallee⟩

end MethodGraph

namespace Result

variable {r : Result} {p : Program}

/-! ## Presentable results -/

/-- Whatever a result mentions has a name in the program `p`. -/
structure Presentable (r : Result) (p : Program) : Prop where
  readable : r.Readable
  vars : ∀ h c v, r.output.world.pointers.get? h = some (.var c v) →
    ∃ name, p.varName v = .ok name
  objects : ∀ o obj, r.obj o = .ok obj → ∃ name, p.typeName obj.type = .ok name
  methods : ∀ t m, r.output.facts (.reaches t m) → ∃ signature, p.methodSignature m = .ok signature
  calls : ∀ kind t s t' m, r.output.facts (.calls kind t s t' m) →
    (∃ caller, p.ownerOf s = .ok caller ∧ ∃ signature, p.methodSignature caller = .ok signature) ∧
      ∃ signature, p.methodSignature m = .ok signature

/-- What a variable may refer to under any context, by labels. -/
def labelsOf (r : Result) (p : Program) (v : VarId) : Outcome (List String) := do
  (← r.pointsTo v).toList.mapM (r.objLabel p)

namespace Presentable

variable (hr : r.Presentable p)
include hr

/-- The label of an object is made from its type, whose name can be read. -/
theorem exists_objLabel {o : ObjId} {obj : Obj} (ho : r.obj o = .ok obj) :
    ∃ label, r.objLabel p o = .ok label := by
  obtain ⟨name, hname⟩ := hr.objects o obj ho
  exact ⟨_, Outcome.bind_eq_ok.2 ⟨obj, ho, Outcome.bind_eq_ok.2 ⟨name, hname, rfl⟩⟩⟩

/-- The objects in an answer have labels. -/
theorem exists_label_of_collects {X : PointerName → Prop} {answer : Outcome (AscendingSet ObjId)}
    (h : r.Collects X answer) :
    ∃ os, answer = .ok os ∧ ∀ o ∈ os, ∃ label, r.objLabel p o = .ok label := by
  obtain ⟨os, hos, hmem⟩ := h
  refine ⟨os, hos, fun o ho => ?_⟩
  obtain ⟨obj, -, -, hobj, -, -⟩ := (hmem o).1 ho
  exact hr.exists_objLabel hobj

/-- What a variable may refer to can be shown. -/
theorem exists_labelsOf (v : VarId) : ∃ labels, r.labelsOf p v = .ok labels := by
  obtain ⟨os, hos, hlabel⟩ := hr.exists_label_of_collects (hr.readable.pointsTo v)
  obtain ⟨labels, hlabels⟩ := Outcome.exists_mapM fun o (ho : o ∈ os.toList) =>
    hlabel o (AscendingSet.mem_toList.1 ho)
  exact ⟨labels, Outcome.bind_eq_ok.2 ⟨os, hos, hlabels⟩⟩

/-- The calls without contexts can be shown: the reachable methods and the callees have signatures,
and so have the methods that contain the call sites. -/
theorem exists_namedCallGraph :
    ∃ g, r.plainCallGraph = .ok g ∧
      (∀ m ∈ g.reachable, ∃ signature, p.methodSignature m = .ok signature) ∧
      ∀ e ∈ g.edges, (∃ caller, p.ownerOf e.site = .ok caller ∧
        ∃ signature, p.methodSignature caller = .ok signature) ∧
        ∃ signature, p.methodSignature e.callee = .ok signature := by
  obtain ⟨g, hg, hreachable, hedges, -⟩ := hr.readable.exists_plainCallGraph
  refine ⟨g, hg, fun m hm => ?_, fun e he => ?_⟩
  · obtain ⟨t, ht⟩ := (hreachable m).1 hm
    exact hr.methods t m ht
  · obtain ⟨t, t', hcall⟩ := hedges e he
    exact hr.calls _ t _ t' _ hcall

/-- The call graph can be drawn. -/
theorem exists_toDot : ∃ text, r.toDot p = .ok text := by
  obtain ⟨g, hg, hreachable, hedges⟩ := hr.exists_namedCallGraph
  obtain ⟨graph, hgraph, hnodes⟩ := MethodGraph.exists_ofCallGraph
    (P := fun m => ∃ signature, p.methodSignature m = .ok signature) hreachable hedges
  obtain ⟨labels, hlabels⟩ := Outcome.exists_mapM hnodes
  exact ⟨_, Outcome.bind_eq_ok.2 ⟨g, hg, Outcome.bind_eq_ok.2 ⟨graph, hgraph,
    Outcome.bind_eq_ok.2 ⟨labels, hlabels, rfl⟩⟩⟩⟩

end Presentable

end Result

/-! ## Results of runs -/

variable {p : Program} {σ : Sensitivity} {order : Order} {budget : Option Nat} {out : Output}
  {label : String} {r : Result}

/-- What the run on a built program leaves behind has names in the program. -/
theorem presentable_of_solve (hp : p.Built) (h : solve p σ order budget = .ok out)
    (hr : Result.ofOutput label out = .ok r) : r.Presentable p := by
  have wf := hp.wellFormed
  obtain ⟨rfl, hreadable⟩ := readable_of_solve hp h hr
  have hfits : ∀ {f}, r.output.facts f → Fits p σ f := fun hf => (least_of_solve wf h hf).fits wf
  refine
    { readable := hreadable
      vars := fun x c v hx => ?_
      objects := fun o obj ho => ?_
      methods := fun t m hm => wf.exists_methodSignature (hfits hm).2
      calls := fun kind t s t' m hcall => ?_ }
  · -- a variable in use belongs to a method that can run
    obtain ⟨m, hm, k, hk, hrow⟩ := (rooted_of_solve hp h).vars x c v hx
    obtain ⟨t, ht⟩ := (hreadable.reaches_iff m).1 ⟨k, hk, c, hrow⟩
    exact wf.exists_varName hm (hfits ht).2
  · obtain ⟨s, hs, e, -⟩ := exists_settled_of_solve wf h
    have hrows := hs.valid.rows
    have hobj : r.output.heap.objects.get? o = some obj := Outcome.ofRow_eq_ok.1 ho
    rw [e] at hobj
    exact Program.exists_typeName (has_base_of_allocates wf (hrows.heap o obj hobj).1)
  · obtain ⟨-, -, hm, call, hs, -⟩ := hfits hcall
    obtain ⟨site, hsite, -⟩ := Program.stmtAt_eq_ok.1 hs
    exact ⟨⟨site.method, Program.ownerOf_eq_ok.2 ⟨site, hsite, rfl⟩,
      wf.exists_methodSignature (wf.stmtMethod s site hsite)⟩, wf.exists_methodSignature hm⟩

end PointerAnalysis
