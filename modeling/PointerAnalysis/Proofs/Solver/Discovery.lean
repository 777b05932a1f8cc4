import PointerAnalysis.Proofs.Solver.Rooted

/-!
# The order of discovery

The methods of an output stand in the order in which the run has found them.  Read in this order,
the output explains itself: the entry comes first, every other method is called by one that comes
before it, and no table holds anything that is not part of such a call.  This is so however the run
has ended.

## Main definitions

- `MadeBy`: the method under a context that makes a call.
- `Output.Justified`: the methods, calls, variables and call sites of an output are accounted for.

## Main statements

- `solve_justified`: what a run leaves behind is accounted for.
-/

namespace PointerAnalysis

/-- A site that makes a call has an entry in the index of calls. -/
theorem CallGraph.Indexed.edgesOutOf_ne_nil {τ μ : Type} [DecidableEq τ] [DecidableEq μ]
    {g : CallGraph τ μ} (hg : g.Indexed) {e : CallEdge τ μ} (he : e ∈ g.edges) :
    g.edgesOutOf e.site ≠ [] := by
  rw [hg.edgesOutOf_eq]
  exact List.ne_nil_of_mem (List.mem_filter.2 ⟨he, decide_eq_true rfl⟩)

namespace Solver

variable {p : Program} {σ : Sensitivity} {order : Order} {budget : Option Nat} {out : Output}

/-! ## Accounts -/

/-- The method that makes a call: the statement of the call site belongs to it, and it runs under
the context of the site. -/
def MadeBy (p : Program) (u : Universe) (e : CallEdge QSiteId QMethodId)
    (caller : Qualified MethodId) : Prop :=
  ∃ i, u.sites.get? e.site = some ⟨caller.context, i⟩ ∧ p.ownerOf i = .ok caller.entity

/-- The methods, calls, variables and call sites of an output are accounted for. -/
structure Output.Justified (p : Program) (out : Output) : Prop where
  /-- The entry is found first, under the empty context. -/
  entry : ∃ h, out.calls.reachable.head? = some h ∧
    out.world.methods.get? h = some ⟨.empty, p.entry⟩
  nodup : out.calls.reachable.Nodup
  /-- Every other method is called by one that is found strictly earlier. -/
  found : ∀ j h, 0 < j → out.calls.reachable[j]? = some h →
    ∃ e ∈ out.calls.edges, e.callee = h ∧ ∃ k g caller, k < j ∧
      out.calls.reachable[k]? = some g ∧ out.world.methods.get? g = some caller ∧
      MadeBy p out.world e caller
  /-- The two ends of a call can run. -/
  callers : ∀ e ∈ out.calls.edges, ∃ caller, MadeBy p out.world e caller ∧
    Runs out.world out.calls caller.context caller.entity
  callees : ∀ e ∈ out.calls.edges, e.callee ∈ out.calls.reachable ∧
    ∃ callee, out.world.methods.get? e.callee = some callee
  /-- A call is of the kind that its statement says. -/
  kinds : ∀ e ∈ out.calls.edges, ∃ q call, out.world.sites.get? e.site = some q ∧
    p.stmtAt q.entity = .ok (.invoke call) ∧ e.kind = call.kind
  /-- A variable in use belongs to a method that can run under the same context. -/
  vars : ∀ h c v, out.world.pointers.get? h = some (.var c v) →
    ∃ m, p.Owns m v ∧ Runs out.world out.calls c m
  /-- Methods get their handles in the order of discovery, and no other method has one. -/
  methods : out.calls.reachable = out.world.methods.handles
  /-- Every call site that has a handle makes a call, and has it in the index of calls. -/
  sites : ∀ i, out.world.sites.Has i →
    (∃ e ∈ out.calls.edges, e.site = i) ∧ out.calls.edgesOutOf i ≠ []

/-! ## Rooted outputs -/

/-- What is rooted is accounted for: a reason says who makes a call, and of which kind it is. -/
theorem Rooted.justified (h : Rooted p out.world out.heap out.calls) : out.Justified p where
  entry := by
    obtain ⟨m, hm, -, hfirst⟩ := h.entry
    exact ⟨m, List.head?_eq_getElem?.trans hfirst, hm⟩
  nodup := h.methods ▸ out.world.methods.nodup_handles
  found j m hj hm := by
    obtain ⟨e, he, hcallee, c, i, caller, k, g, hsite, howner, hk, hg, hrow⟩ := h.found j m hj hm
    exact ⟨e, he, hcallee, k, g, ⟨c, caller⟩, hk, hg, hrow, i, hsite, howner⟩
  callers e he := by
    obtain ⟨-, c, i, caller, m, call, hreason⟩ := h.edges e he
    exact ⟨⟨c, caller⟩, ⟨i, hreason.site, hreason.owner⟩, hreason.runs⟩
  callees e he := by
    obtain ⟨hmem, c, i, caller, m, call, hreason⟩ := h.edges e he
    exact ⟨hmem, m, hreason.callee⟩
  kinds e he := by
    obtain ⟨-, c, i, caller, m, call, hreason⟩ := h.edges e he
    exact ⟨⟨c, i⟩, call, hreason.site, hreason.stmt, hreason.kind⟩
  vars := h.vars
  methods := h.methods
  sites i hi := by
    obtain ⟨e, he, rfl⟩ := h.sites i hi
    exact ⟨⟨e, he, rfl⟩, h.indexed.edgesOutOf_ne_nil he⟩

/-- What a run leaves behind is accounted for, whether or not it came to its end. -/
theorem solve_justified (hp : p.Built) (h : solve p σ order budget = .ok out) : out.Justified p :=
  (rooted_of_solve hp h).justified

/-- A run on the box program that stops after one delivery has found the one call there is. -/
theorem boxProgram_justified :
    ∃ out, boxProgram.Built ∧ solve boxProgram (.object 1) .lifo (some 1) = .ok out ∧
      out.calls.edges.length = 1 ∧ out.calls.reachable.length = 2 ∧
      out.Justified boxProgram := by
  have hfound : ((solve boxProgram (.object 1) .lifo (some 1)).map fun out =>
      (out.calls.edges.length, out.calls.reachable.length)).toOption = some (1, 2) := by
    decide +kernel
  obtain ⟨out, h, hcounts⟩ := Outcome.exists_of_toOption_map hfound
  obtain ⟨hedges, hreachable⟩ := Prod.mk.inj hcounts
  exact ⟨out, boxProgram_built, h, hedges, hreachable, solve_justified boxProgram_built h⟩

end Solver

end PointerAnalysis
