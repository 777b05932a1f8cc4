import PointerAnalysis.Proofs.Result.Queries
import PointerAnalysis.Proofs.Solver.Prescribed
import PointerAnalysis.Proofs.Solver.Termination

/-!
# Objects are reached allocation sites

A site is visited once under every context of its method and makes one object all the same.  When a
run stops, whether or not a budget has stopped it, every method that can run has been visited, so
the objects are those of all allocations in these methods.

## Main definitions

- `SiteReached`: a method that can run has the allocation.
- `Populated`: the objects of a heap are orderly, and their sites are reached.
- `Output.HoldsReachedSites`: the objects of an output are the sites it reaches.

## Main statements

- `Populated.move`: moves keep a heap populated.
- `Settled.exists_object`: when every method has been visited, every reached site has its object.
- `solve_objects`: the objects of an output are its reached sites, and requests to a heap are
  answered accordingly.
-/

namespace PointerAnalysis

namespace Solver

variable {p : Program} {σ : Sensitivity} {s s' : State}

/-! ## Sites that are reached -/

/-- A method that can run has the allocation. -/
def SiteReached (p : Program) (u : Universe) (calls : CallGraph QSiteId QMethodId) (i : StmtId) :
    Prop :=
  ∃ c m lhs type, Runs u calls c m ∧ p.Executes m i (.alloc lhs type)

/-- Objects are orderly, and their sites are reached. -/
structure Populated (p : Program) (u : Universe) (heap : Heap)
    (calls : CallGraph QSiteId QMethodId) : Prop where
  orderly : heap.Orderly p
  reached : ∀ o obj, heap.objects.get? o = some obj → SiteReached p u calls obj.site

theorem SiteReached.mono {u u' : Universe} {calls calls' : CallGraph QSiteId QMethodId}
    (hu : u.Extends u') (hreach : calls.reachable ⊆ calls'.reachable) {i : StmtId}
    (h : SiteReached p u calls i) : SiteReached p u' calls' i := by
  obtain ⟨c, m, lhs, type, hm, hx⟩ := h
  exact ⟨c, m, lhs, type, hm.mono hu hreach, hx⟩

/-- Moves keep a heap populated. -/
theorem Populated.move (wf : p.WellFormed) (h : Populated p s.world s.heap s.calls)
    (hmove : Move p σ s s') : Populated p s'.world s'.heap s'.calls := by
  have hg := hmove.grown
  -- only an allocation touches the heap
  have hframe : s'.heap = s.heap → Populated p s'.world s'.heap s'.calls := by
    intro e
    rw [e]
    exact ⟨h.orderly, fun o obj ho => (h.reached o obj ho).mono hg.world hg.reachable.subset⟩
  cases hmove with
  | visit _ => exact hframe rfl
  | arrive _ _ => exact hframe rfl
  | @alloc c c' m i lhs type o heap contexts hm hx ho hc =>
    refine ⟨h.orderly.objFor wf ho, fun o' obj hobj => ?_⟩
    have hsite : SiteReached p ((s.pooled contexts).allocated heap ⟨c', o⟩).world s.calls i :=
      SiteReached.mono hg.world (fun _ h => h) ⟨c, m, lhs, type, hm, hx⟩
    rcases Heap.objFor_cases ho with ⟨rfl, -⟩ | ⟨-, -, new, -, -, -, rfl, rfl, -⟩
    · exact (h.reached o' obj hobj).mono hg.world hg.reachable.subset
    · rcases Table.get?_push_cases hobj with hobj | ⟨-, rfl⟩
      · exact (h.reached o' obj hobj).mono hg.world hg.reachable.subset
      · exact hsite
  | send => exact hframe rfl
  | mention _ => exact hframe rfl
  | flow hflow =>
    obtain ⟨flow, w, rfl⟩ := addFlow_frame hflow
    exact hframe rfl
  | callStatically _ _ _ _ _ _ _ => exact hframe rfl
  | callOn _ _ _ _ _ _ _ _ _ _ => exact hframe (State.bound_tables _ _ _ _).2.2

theorem Populated.moves (wf : p.WellFormed) (h : Populated p s.world s.heap s.calls)
    (hmoves : Moves p σ s s') : Populated p s'.world s'.heap s'.calls := by
  induction hmoves with
  | refl => exact h
  | tail _ hmove ih => exact ih.move wf hmove

theorem populated_start (p : Program) (order : Order) :
    Populated p (start p order).world (start p order).heap (start p order).calls :=
  ⟨Heap.orderly_empty p, fun o obj ho => by cases ho⟩

/-- When every method that can run has been visited, every site that is reached has its object. -/
theorem Settled.exists_object (hs : Settled p σ s)
    (hall : s.calls.reachable.length ≤ s.visited) {i : StmtId}
    (hi : SiteReached p s.world s.calls i) :
    ∃ o obj, s.heap.objects.get? o = some obj ∧ obj.site = i := by
  obtain ⟨c, m, lhs, type, ⟨h, hmem, hrow⟩, hx⟩ := hi
  obtain ⟨t, m', hname, hsettled⟩ := hs.methodSettled hall hmem
  -- the name of the method that was visited is that of the method that can run
  obtain ⟨q, hq, hn⟩ := Option.bind_eq_some_iff.1 hname
  obtain rfl := Option.some.inj (hrow.symm.trans hq)
  obtain ⟨-, rfl⟩ := Universe.keyName?_eq_some.1 hn
  obtain ⟨-, q, -, ho, -⟩ := (hsettled i _ hx).1 _ .alloc
  obtain ⟨key, -, ho⟩ := Option.bind_eq_some_iff.1 ho
  obtain ⟨-, obj, hobj, hsite⟩ := Universe.objKeyName?_eq_some.1 ho
  exact ⟨key.entity, obj, hobj, hsite⟩

/-! ## Outputs -/

/-- The objects of an output are the allocation sites that it reaches, each as the program describes
it, and every object that a location refers to is one of them. -/
structure Output.HoldsReachedSites (p : Program) (out : Output) : Prop where
  ids : ∀ o obj, out.heap.objects.get? o = some obj → obj.id = o
  distinct : out.heap.objects.KeyedBy Obj.site
  sites : ∀ i, (∃ o obj, out.heap.objects.get? o = some obj ∧ obj.site = i) ↔
    SiteReached p out.world out.calls i
  described : ∀ o obj, out.heap.objects.get? o = some obj → p.Describes obj
  held : ∀ h q, out.world.Holds h q → ∃ key obj, out.world.objs.get? q = some key ∧
    out.heap.objects.get? key.entity = some obj

/-- The output of a run holds the allocation sites that it reaches. -/
theorem holdsReachedSites_of_solve (hp : p.Built) {order : Order} {budget : Option Nat}
    {out : Output} (h : solve p σ order budget = .ok out) :
    out.heap.Orderly p ∧ out.HoldsReachedSites p := by
  obtain ⟨n, s, hrun, e, hs, hall⟩ := exists_steps_of_solve hp.wellFormed h
  have hpopulated : Populated p s.world s.heap s.calls :=
    (populated_start p order).moves hp.wellFormed (moves_of_steps hp.wellFormed hrun)
  rw [e]
  refine ⟨hpopulated.orderly,
    { ids := hpopulated.orderly.ids
      distinct := hpopulated.orderly.sites
      sites := fun i => ⟨?_, hs.exists_object hall⟩
      described := hpopulated.orderly.described
      held := fun h q hq => ?_ }⟩
  -- an object is made for a site only when the site is reached
  · rintro ⟨o, obj, hobj, rfl⟩
    exact hpopulated.reached o obj hobj
  · obtain ⟨-, o, -, ho, -⟩ := hs.valid.holds h q hq
    obtain ⟨key, hkey, ho⟩ := Option.bind_eq_some_iff.1 ho
    obtain ⟨-, obj, hobj, -⟩ := Universe.objKeyName?_eq_some.1 ho
    exact ⟨key, obj, hkey, hobj⟩

end Solver

/-! ## Results -/

/-- A result finds an object by its site, by a search as well as by an index of all objects. -/
structure Result.FindsObjects (r : Result) : Prop where
  found : ∀ i o, r.objAt? i = some o ↔ ∃ obj, r.obj o = .ok obj ∧ obj.site = i
  indexed : ∀ i, r.objAt? i = Heap.siteIndex r.output.heap.objects.toList i

theorem Heap.Orderly.findsObjects {p : Program} {r : Result} (h : r.output.heap.Orderly p) :
    r.FindsObjects where
  found i o := by
    rw [Result.objAt?, h.find?_eq_siteIndex, h.siteIndex_eq_some]
    simp only [Result.obj, Heap.objAt, Outcome.ofRow_eq_ok]
  indexed i := h.find?_eq_siteIndex i

namespace Solver

/-- The objects of a run, whether complete or stopped by a budget, are the allocation sites that it
reaches, and its result finds them by their sites.  A heap of which objects are requested in any
order makes one for each site, and denies anything but an allocation without a change. -/
theorem solve_objects {p : Program} (hp : p.Built) :
    (∀ σ order budget out, solve p σ order budget = .ok out → out.HoldsReachedSites p ∧
      ∀ label, ∃ r, Result.ofOutput label out = .ok r ∧ r.output = out ∧ r.FindsObjects) ∧
    ∀ requests s,
      (∀ i o, (Store.after p {} requests).bySite i = some o ↔
        ∃ obj, (Store.after p {} requests).objects.get? o = some obj ∧ obj.site = i) ∧
      (Store.after p {} requests).AnswersRequest p s := by
  refine ⟨fun σ order budget out h => ?_, Store.answersRequest_after hp.wellFormed⟩
  obtain ⟨horderly, hholds⟩ := holdsReachedSites_of_solve hp h
  refine ⟨hholds, fun label => ?_⟩
  obtain ⟨r, hr, hout⟩ := exists_ofOutput_of_solve hp.wellFormed h label
  exact ⟨r, hr, hout, Heap.Orderly.findsObjects (hout ▸ horderly)⟩

/-- A run on the box program that a budget stops after one delivery has the one object there is, and
a store asked for it between two other statements denies these and gives the same answer twice. -/
theorem boxProgram_objects :
    ∃ out, boxProgram.Built ∧ solve boxProgram (.callSite 1) .lifo (some 1) = .ok out ∧
      out.completed = false ∧ out.HoldsReachedSites boxProgram ∧
      (Store.after boxProgram {} [⟨1⟩, ⟨0⟩, ⟨3⟩]).AnswersRequest boxProgram ⟨0⟩ := by
  have hrun : ((solve boxProgram (.callSite 1) .lifo (some 1)).map
      Output.completed).toOption = some false := by
    decide +kernel
  obtain ⟨out, hout, hcompleted⟩ := Outcome.exists_of_toOption_map hrun
  obtain ⟨hruns, hrequests⟩ := solve_objects boxProgram_built
  exact ⟨out, boxProgram_built, hout, hcompleted, (hruns _ _ _ out hout).1, (hrequests _ _).2⟩

end Solver

end PointerAnalysis
