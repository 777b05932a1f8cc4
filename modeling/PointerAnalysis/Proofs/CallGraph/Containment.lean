import PointerAnalysis.Proofs.CallGraph.FromHierarchy
import PointerAnalysis.Proofs.Result.Queries

/-!
# Calls of objects are calls of the hierarchy

A run looks up a call on every object that the receiver refers to, the class hierarchy on every
subtype of the class that the call names.  If the classes of the objects are among those subtypes,
what the run finds is in the graph of the hierarchy.

In the order in which a run finds methods, each but the first is called by an earlier one.  So the
methods are followed in this order; the budget of the run does not matter.

## Main definitions

- `Program.ReceiverFits`: an object of a type can be the receiver of a call.
- `Result.ReceiversFit`: all receivers that a result knows fit their calls.

## Main statements

- `Program.mayCall_of_targetOf`: what a receiver that fits selects is allowed by the hierarchy.
- `Solver.Rooted.mem_reachable`: the methods that a run finds are in every graph that has the calls
  they make.
- `plainCallGraph_within_hierarchy`: the calls of a run are in the graph of the hierarchy.
-/

namespace PointerAnalysis

open Solver

/-! ## Receivers -/

namespace Program

/-- The class whose methods an object of a type has.  Arrays have those of the root class. -/
def dispatchClass? (p : Program) : RefType → Option ClassId
  | .cls c => some c
  | .array _ => p.root

/-- An object of a type can be the receiver of a call: its dispatch class is a subtype of the class
that the call names. -/
def ReceiverFits (p : Program) (call : Invoke) (type : RefType) : Prop :=
  ∃ c, p.dispatchClass? type = some c ∧ p.isSubtype c call.methodRef.cls = .ok true

instance (p : Program) (call : Invoke) (type : RefType) : Decidable (p.ReceiverFits call type) :=
  match h : p.dispatchClass? type with
  | none => isFalse fun ⟨_, hc, _⟩ => by cases h.symm.trans hc
  | some c => decidable_of_iff (p.isSubtype c call.methodRef.cls = .ok true)
      ⟨fun hs => ⟨c, h, hs⟩, fun ⟨_, hc, hs⟩ => Option.some.inj (hc.symm.trans h) ▸ hs⟩

variable {p : Program}

theorem dispatchOnType_of_dispatchClass? {type : RefType} {c : ClassId}
    (h : p.dispatchClass? type = some c) (s : Subsignature) :
    p.dispatchOnType type s = p.dispatch c s := by
  cases type with
  | cls d =>
    obtain rfl := Option.some.inj h
    rfl
  | array elem =>
    have h : p.root = some c := h
    unfold dispatchOnType
    rw [h]

/-- What a call runs, on a receiver that fits if dispatch looks at the receiver at all, is allowed
by the hierarchy. -/
theorem mayCall_of_targetOf {call : Invoke} (hc : p.classes.Has call.methodRef.cls)
    {receiver : Option RefType}
    (hfit : call.kind = .virtual ∨ call.kind = .interface →
      ∀ type, receiver = some type → p.ReceiverFits call type)
    {m : MethodId} (h : targetOf p call receiver = .ok (some m)) : p.MayCall call m := by
  -- abstract methods are dropped in all cases alike
  have hfound : ∀ {x : Outcome (Option MethodId)},
      (do return (← x).filter p.isConcrete) = Except.ok (some m) →
      x = .ok (some m) ∧ p.isConcrete m = true := by
    intro x hx
    obtain ⟨target, rfl, hm⟩ := Outcome.bind_eq_ok.1 hx
    obtain ⟨rfl, hconcrete⟩ := Option.filter_eq_some_iff.1 (Outcome.pure_eq_ok.1 hm)
    exact ⟨rfl, hconcrete⟩
  have hdispatched : call.kind = .virtual ∨ call.kind = .interface → ∀ type,
      receiver = some type → p.dispatchOnType type call.methodRef.subsignature = .ok (some m) →
      p.isConcrete m = true → p.MayCall call m := by
    intro hk type htype hm hconcrete
    obtain ⟨c, hclass, hsub⟩ := hfit hk type htype
    rw [dispatchOnType_of_dispatchClass? hclass] at hm
    exact .dispatched hk (has_of_isSubtype hc hsub) hsub hm hconcrete
  unfold targetOf at h
  split at h
  case h_1 hk => exact .named (Or.inl hk) (hfound h).1 (hfound h).2
  case h_2 hk => exact .named (Or.inr hk) (hfound h).1 (hfound h).2
  case h_3 type hk => exact hdispatched (Or.inl hk) type rfl (hfound h).1 (hfound h).2
  case h_4 type hk => exact hdispatched (Or.inr hk) type rfl (hfound h).1 (hfound h).2
  -- without a receiver to look at, nothing is selected
  all_goals cases (hfound h).1

end Program

/-! ## Methods and calls of a run -/

namespace Solver

variable {p : Program} {u : Universe} {heap : Heap} {calls : CallGraph QSiteId QMethodId}
  {g : CallGraph StmtId MethodId}

/-- The class hierarchy allows every call that the program or a receiver selects. -/
def Allowed (p : Program) (u : Universe) (heap : Heap) : Prop :=
  ∀ c i call m, p.stmtAt i = .ok (.invoke call) → Selects p u heap c call m → p.MayCall call m

section Followed

variable (ho : p.Owned) (hallowed : Allowed p u heap)
  (hvisited : ∀ m ∈ g.reachable, g.Visited p m)
include ho hallowed hvisited

/-- A call whose caller is in a graph that has all calls of its methods is in that graph. -/
theorem Reason.mem_edges {e : CallEdge QSiteId QMethodId} {c : ContextId} {i : StmtId}
    {caller : MethodId} {m : Qualified MethodId} {call : Invoke}
    (h : Reason p u heap calls e c i caller m call) (hcaller : caller ∈ g.reachable) :
    ⟨e.kind, i, m.entity⟩ ∈ g.edges ∧ m.entity ∈ g.reachable := by
  have hx : p.Executes caller i (.invoke call) := ho.executes_iff.2 ⟨h.owner, h.stmt⟩
  rw [h.kind]
  exact hvisited caller hcaller i call hx call h.stmt m.entity
    (hallowed c i call m.entity h.stmt h.selects)

variable (h : Rooted p u heap calls) (hentry : p.entry ∈ g.reachable)
include h hentry

/-- The methods that a run finds are in every graph that has the entry and all calls of its
methods. -/
theorem Rooted.mem_reachable (j : Nat) {id : QMethodId} (hj : calls.reachable[j]? = some id)
    {m : Qualified MethodId} (hm : u.methods.get? id = some m) : m.entity ∈ g.reachable := by
  -- the caller has been found earlier
  induction j using Nat.strong_induction_on generalizing id m with
  | _ j ih =>
    rcases Nat.eq_zero_or_pos j with rfl | hpos
    · obtain ⟨first, hrow, -, hfirst⟩ := h.entry
      obtain rfl := Option.some.inj (hj.symm.trans hfirst)
      obtain rfl := Option.some.inj (hm.symm.trans hrow)
      exact hentry
    · obtain ⟨e, he, rfl, c, i, caller, k, id', hsite, howner, hk, hid', hcaller⟩ :=
        h.found j id hpos hj
      -- the edge has one reason, and it names the same statement and caller
      obtain ⟨-, c', i', caller', m', call, hreason⟩ := h.edges e he
      obtain ⟨rfl, rfl⟩ := Qualified.mk.inj (Option.some.inj (hsite.symm.trans hreason.site))
      obtain rfl := Except.ok.inj (howner.symm.trans hreason.owner)
      obtain rfl := Option.some.inj (hm.symm.trans hreason.callee)
      exact (hreason.mem_edges ho hallowed hvisited (ih k hk hid' hcaller)).2

/-- So are the calls of the run. -/
theorem Rooted.mem_edges {e : CallEdge QSiteId QMethodId} (he : e ∈ calls.edges)
    {e' : CallEdge StmtId MethodId} (hprojects : Projects u e e') : e' ∈ g.edges := by
  -- the caller can run, so it has been found at some point
  obtain ⟨-, c, i, caller, m, call, hreason⟩ := h.edges e he
  obtain ⟨id, hid, hcaller⟩ := hreason.runs
  obtain ⟨j, hj⟩ := List.mem_iff_getElem?.1 hid
  obtain ⟨hk, c', c'', hsite, hcallee⟩ := hprojects
  obtain ⟨-, hi⟩ := Qualified.mk.inj (Option.some.inj (hreason.site.symm.trans hsite))
  obtain rfl := Option.some.inj (hreason.callee.symm.trans hcallee)
  have hmem := (hreason.mem_edges ho hallowed hvisited
    (h.mem_reachable ho hallowed hvisited hentry j hj hcaller)).1
  rw [hi, ← hk] at hmem
  exact hmem

end Followed

end Solver

/-! ## Results -/

namespace Result

/-- What the receivers of calls with dynamic dispatch refer to fits the calls. -/
def ReceiversFit (p : Program) (r : Result) : Prop :=
  ∀ i call, p.stmtAt i = .ok (.invoke call) → call.kind = .virtual ∨ call.kind = .interface →
    ∀ v, call.receiver = some v → ∀ os, r.pointsTo v = .ok os →
      ∀ o ∈ os, ∀ obj, r.obj o = .ok obj → p.ReceiverFits call obj.type

variable {p : Program} {r : Result}

/-- Receivers are found out by going through the statements. -/
theorem receiversFit_iff : r.ReceiversFit p ↔
    ∀ row ∈ p.stmts.entries, ∀ call ∈ row.2.stmt.call?,
      call.kind = .virtual ∨ call.kind = .interface →
      ∀ v ∈ call.receiver, ∀ os, r.pointsTo v = .ok os →
        ∀ o ∈ os.toList, ∀ obj, r.obj o = .ok obj → p.ReceiverFits call obj.type := by
  constructor
  · intro h row hrow call hcall
    refine h row.1 call (Program.stmtAt_eq_ok.2 ⟨row.2, Table.mem_entries.1 hrow, ?_⟩)
    cases hs : row.2.stmt with
    | invoke call' =>
      rw [hs] at hcall
      rw [Option.some.inj hcall]
    | _ => rw [hs] at hcall; cases hcall
  · intro h i call hs
    obtain ⟨site, hsite, hs⟩ := Program.stmtAt_eq_ok.1 hs
    exact h (i, site) (Table.mem_entries.2 hsite) call (by rw [hs]; rfl)

instance : Decidable (r.ReceiversFit p) := decidable_of_iff' _ receiversFit_iff

/-- When receivers fit their calls, the hierarchy allows every call that the run selects. -/
theorem Readable.allowed (wf : p.WellFormed) (hr : r.Readable) (hfit : r.ReceiversFit p) :
    Allowed p r.output.world r.output.heap := by
  intro c i call m hs hselects
  have hc : p.classes.Has call.methodRef.cls := wf.stmt_classes hs (List.mem_singleton_self _)
  cases hselects with
  | static hk ht => exact Program.mayCall_of_targetOf hc (fun _ _ h => by cases h) ht
  | @receiver v h q key obj hb hh hq hkey hobj ht =>
    refine Program.mayCall_of_targetOf hc (fun hk type htype => ?_) ht
    obtain rfl := Option.some.inj htype
    -- the receiver refers to the object in the result as well
    obtain ⟨os, hos, hmem⟩ := hr.exists_projectAll (r.output.world.pointersOf v) fun h hh =>
      (hr.varsIndexed.mem.1 hh).elim fun _ h => Table.has_of_get? h
    have ho : key.entity ∈ os :=
      (hmem _).2 ⟨h, hr.varsIndexed.mem.2 ⟨c, hh⟩, q, hq, key, hkey, rfl⟩
    exact hfit i call hs hk v hb os hos _ ho obj (Outcome.ofRow_eq_ok.2 hobj)

end Result

/-! ## Main statement -/

/-- If the receivers of calls with dynamic dispatch fit their calls, the methods and calls that a
run finds are in the graph of the class hierarchy, whether or not the run came to its end. -/
theorem plainCallGraph_within_hierarchy {p : Program} (hp : p.Built) {σ : Sensitivity}
    {order : Order} {budget : Option Nat} {out : Output} (h : solve p σ order budget = .ok out)
    {label : String} {r : Result} (hr : Result.ofOutput label out = .ok r)
    (hfit : r.ReceiversFit p) :
    ∃ g g', r.plainCallGraph = .ok g ∧ p.hierarchyCallGraph = .ok g' ∧ g.edges ⊆ g'.edges ∧
      g.reachable ⊆ g'.reachable ∧ ∀ m, r.isReachable m = true → m ∈ g'.reachable := by
  have wf := hp.wellFormed
  have hrooted := rooted_of_solve hp h
  obtain ⟨rfl, hreadable⟩ := readable_of_solve hp h hr
  have hallowed := hreadable.allowed wf hfit
  obtain ⟨g', hg', -, hentry, hvisited⟩ := Program.exists_hierarchyCallGraph wf
  obtain ⟨g, hg, hmethods, hedges, -⟩ := hreadable.exists_plainCallGraph
  -- every method that can run has a place in the order of discovery
  have hreach : ∀ m, (∃ t, r.output.facts (.reaches t m)) → m ∈ g'.reachable := by
    intro m hm
    obtain ⟨id, hid, c, hrow⟩ := (hreadable.reaches_iff m).2 hm
    obtain ⟨j, hj⟩ := List.mem_iff_getElem?.1 hid
    exact hrooted.mem_reachable hp.owned hallowed hvisited hentry j hj hrow
  refine ⟨g, g', hg, hg', fun e he => ?_, fun m hm => hreach m ((hmethods m).1 hm),
    fun m hm => hreach m ((hreadable.isReachable_iff m).1 hm)⟩
  -- an edge without contexts stands for an edge of the run
  obtain ⟨t, t', e₀, he₀, hk, hs, hm⟩ := hedges e he
  have hprojects := projects_of_names _ hs hm
  rw [hk] at hprojects
  exact hrooted.mem_edges hp.owned hallowed hvisited hentry he₀ hprojects

/-- The result of a run on the box program that stops after one delivery. -/
def boxRun : Outcome Result := do
  Result.ofOutput "1-object" (← solve boxProgram (.object 1) .fifo (some 1))

/-- The run has found the one call of the box program by then, and the receiver fits it. -/
theorem boxProgram_within_hierarchy :
    ∃ out r g g', boxProgram.Built ∧ solve boxProgram (.object 1) .fifo (some 1) = .ok out ∧
      Result.ofOutput "1-object" out = .ok r ∧ r.ReceiversFit boxProgram ∧
      r.output.calls.edges ≠ [] ∧ r.plainCallGraph = .ok g ∧
      boxProgram.hierarchyCallGraph = .ok g' ∧ g.edges ⊆ g'.edges ∧
      g.reachable ⊆ g'.reachable := by
  have hfits : ∀ r, boxRun = .ok r → r.ReceiversFit boxProgram ∧ r.output.calls.edges ≠ [] := by
    decide +kernel
  have hok : boxRun.isOk = true := by decide +kernel
  obtain ⟨r, h⟩ := Outcome.exists_eq_ok hok
  obtain ⟨out, hsolve, hr⟩ := Outcome.bind_eq_ok.1 h
  obtain ⟨hfit, hedges⟩ := hfits r h
  obtain ⟨g, g', hg, hg', hsub, hreach, -⟩ :=
    plainCallGraph_within_hierarchy boxProgram_built hsolve hr hfit
  exact ⟨out, r, g, g', boxProgram_built, hsolve, hr, hfit, hedges, hg, hg', hsub, hreach⟩

end PointerAnalysis
