import PointerAnalysis.Proofs.Program.WellFormed

/-!
# Lookup in well-formed programs

In a well-formed program no walk through the class hierarchy and no lookup follows a handle that
names no row.  A method is looked up without failure, and a field reference is either resolved or
reported.

## Main statements

- `exists_walk`: a walk along links between existing classes visits existing classes.
- `WellFormed.resolveFieldAs_cases`: a field access names a field or is reported.
- `WellFormed.exists_targetOf`: the target of a call is found out.
-/

namespace PointerAnalysis.Program

variable {p : Program}

/-! ## Walks -/

/-- Links lead from classes of the program to classes of the program. -/
def Leads (p : Program) (links : ClassId → Outcome (List ClassId)) : Prop :=
  ∀ c, p.classes.Has c → ∃ ds, links c = .ok ds ∧ ∀ d ∈ ds, p.classes.Has d

/-- A walk along links between existing classes comes to an end without a failure, and visits
existing classes only. -/
theorem exists_walk {links : ClassId → Outcome (List ClassId)} (hl : p.Leads links) (room : Nat)
    {queue : List ClassId} (seen : List ClassId) (hq : ∀ c ∈ queue, p.classes.Has c) :
    ∃ cs, walk links room queue seen = .ok cs ∧ ∀ c ∈ cs, p.classes.Has c := by
  -- the queue changes with every class visited, and so does the set of those seen
  induction room generalizing queue seen with
  | zero => exact ⟨[], rfl, by simp⟩
  | succ room ih =>
    rw [walk]
    cases hdrop : queue.dropWhile fun c => decide (c ∈ seen) with
    | nil => exact ⟨[], rfl, by simp⟩
    | cons c rest =>
      have hmem : ∀ d ∈ c :: rest, d ∈ queue := fun d hd =>
        (List.dropWhile_suffix _).subset (hdrop ▸ hd)
      have hc : p.classes.Has c := hq c (hmem c (List.mem_cons_self ..))
      -- what `c` is linked to joins the queue
      obtain ⟨found, hfound, hf⟩ := hl c hc
      have hnext : ∀ d ∈ rest ++ found, p.classes.Has d := by
        intro d hd
        rcases List.mem_append.1 hd with hd | hd
        · exact hq d (hmem d (List.mem_cons_of_mem _ hd))
        · exact hf d hd
      obtain ⟨later, hlater, hh⟩ := ih (c :: seen) hnext
      refine ⟨c :: later, ?_, List.forall_mem_cons.2 ⟨hc, hh⟩⟩
      simp only [hfound, hlater, bind, Except.bind, pure, Except.pure]

namespace WellFormed

variable (wf : p.WellFormed)
include wf

/-- The superclass of a class exists. -/
theorem leads_superclassLinks : p.Leads p.superclassLinks := by
  intro c hc
  obtain ⟨decl, hd⟩ := exists_classAt hc
  refine ⟨decl.superclass.toList, by simp [superclassLinks, hd, bind, Except.bind, pure, Except.pure],
    fun d hd' => ?_⟩
  exact wf.superclass c decl (Outcome.ofRow_eq_ok.1 hd) d (by simpa using hd')

/-- The interfaces of a class exist. -/
theorem leads_interfaceLinks : p.Leads p.interfaceLinks := by
  intro c hc
  obtain ⟨decl, hd⟩ := exists_classAt hc
  refine ⟨decl.interfaces, by simp [interfaceLinks, hd, bind, Except.bind, pure, Except.pure],
    fun d hd' => ?_⟩
  exact wf.interfaces c decl (Outcome.ofRow_eq_ok.1 hd) d hd'

/-- The superclasses of a class are found without a failure. -/
theorem exists_superclassChain {c : ClassId} (hc : p.classes.Has c) :
    ∃ cs, p.superclassChain c = .ok cs ∧ ∀ d ∈ cs, p.classes.Has d :=
  exists_walk wf.leads_superclassLinks _ [] (by simpa using hc)

/-- The interfaces of some classes are found without a failure. -/
theorem exists_interfacesAbove {chain : List ClassId} (hc : ∀ c ∈ chain, p.classes.Has c) :
    ∃ cs, p.interfacesAbove chain = .ok cs := by
  obtain ⟨listed, hlisted, hl⟩ := Outcome.exists_mapM_eq_ok (f := p.interfaceLinks)
    (P := fun ds => ∀ d ∈ ds, p.classes.Has d) fun c h => wf.leads_interfaceLinks c (hc c h)
  have hlisted' : ∀ d ∈ listed.flatten, p.classes.Has d := by
    intro d hd
    obtain ⟨ds, hds, hd⟩ := List.mem_flatten.1 hd
    exact hl ds hds d hd
  obtain ⟨cs, hcs, -⟩ := exists_walk wf.leads_interfaceLinks p.classes.size chain hlisted'
  exact ⟨cs, by rw [interfacesAbove, hlisted]; exact hcs⟩

end WellFormed

/-! ## Lookup -/

/-- A declared method exists. -/
theorem has_of_declaredMethod? {c : ClassId} {s : Subsignature} {m : MethodId}
    (h : p.declaredMethod? c s = some m) : p.methods.Has m :=
  (Table.get?_find? h).elim fun _ h => Table.has_of_get? h.1

theorem has_of_declaredField? {c : ClassId} {name : String} {f : FieldId}
    (h : p.declaredField? c name = some f) : p.fields.Has f :=
  (Table.get?_find? h).elim fun _ h => Table.has_of_get? h.1

namespace WellFormed

variable (wf : p.WellFormed)
include wf

/-- Dispatch finds a method that exists, or none. -/
theorem exists_dispatch {c : ClassId} (hc : p.classes.Has c) (s : Subsignature) :
    ∃ target, p.dispatch c s = .ok target ∧ ∀ m, target = some m → p.methods.Has m := by
  obtain ⟨chain, hchain, hh⟩ := wf.exists_superclassChain hc
  obtain ⟨above, habove⟩ := wf.exists_interfacesAbove hh
  refine ⟨_, by rw [dispatch, hchain]; show (p.interfacesAbove chain >>= _) = _; rw [habove]; rfl,
    fun m hm => ?_⟩
  -- the concrete method found first, or else the abstract one
  rcases Option.or_eq_some_iff.1 hm with hm | ⟨-, hm⟩
  · obtain ⟨d, -, hd⟩ := List.exists_of_findSome?_eq_some hm
    exact has_of_declaredMethod? (Option.filter_eq_some_iff.1 hd).1
  · obtain ⟨d, -, hd⟩ := List.exists_of_findSome?_eq_some hm
    exact has_of_declaredMethod? hd

/-- So does dispatch on the type of a receiver; an array has the methods of the root class. -/
theorem exists_dispatchOnType {type : RefType} (ht : p.classes.Has type.base) (s : Subsignature) :
    ∃ target, p.dispatchOnType type s = .ok target ∧ ∀ m, target = some m → p.methods.Has m := by
  cases type with
  | cls c => exact wf.exists_dispatch ht s
  | array elem =>
    unfold dispatchOnType
    cases hr : p.root with
    | none => exact ⟨none, rfl, by simp⟩
    | some root => exact wf.exists_dispatch (wf.root root hr) s

/-- The target of a call is found out, whether there is one or not. -/
theorem exists_targetOf {call : Invoke} (hc : p.classes.Has call.methodRef.cls)
    (receiver : Option RefType) (hr : ∀ type, receiver = some type → p.classes.Has type.base) :
    ∃ target, Solver.targetOf p call receiver = .ok target ∧
      ∀ m, target = some m → p.methods.Has m := by
  -- abstract methods are dropped in all cases alike
  have hfilter : ∀ {x : Outcome (Option MethodId)},
      (∃ target, x = .ok target ∧ ∀ m, target = some m → p.methods.Has m) →
      ∃ target, (do return (← x).filter p.isConcrete) = Except.ok target ∧
        ∀ m, target = some m → p.methods.Has m := by
    intro x hx
    obtain ⟨target, rfl, h⟩ := hx
    exact ⟨_, rfl, fun m hm => h m (Option.filter_eq_some_iff.1 hm).1⟩
  unfold Solver.targetOf
  -- by the kind of the call, and by whether there is a receiver
  split
  · exact hfilter (wf.exists_dispatch hc _)
  · exact hfilter (wf.exists_dispatch hc _)
  · exact hfilter (wf.exists_dispatchOnType (hr _ rfl) _)
  · exact hfilter (wf.exists_dispatchOnType (hr _ rfl) _)
  · exact hfilter ⟨none, rfl, by simp⟩
  · exact hfilter ⟨none, rfl, by simp⟩
  · exact hfilter ⟨none, rfl, by simp⟩

/-- A reference is resolved to a field that exists, or else it is reported as unresolved. -/
theorem resolveField_cases {r : FieldRef} (hr : p.classes.Has r.cls) :
    (∃ f, p.resolveField r = .ok f ∧ p.fields.Has f) ∨
      ∃ name, p.resolveField r = .error (.error (.unresolvedField name r.name)) := by
  -- the classes to search: the chain, and the interfaces above it
  obtain ⟨chain, hchain, hh⟩ := wf.exists_superclassChain hr
  obtain ⟨order, horder, -⟩ := exists_walk wf.leads_interfaceLinks p.classes.size [] hh
  obtain ⟨decl, hdecl⟩ := exists_classAt hr
  unfold resolveField
  simp only [hchain, horder, bind, Except.bind]
  cases hfound : order.findSome? (p.declaredField? · r.name) with
  | some f =>
    obtain ⟨d, -, hd⟩ := List.exists_of_findSome?_eq_some hfound
    exact Or.inl ⟨f, rfl, has_of_declaredField? hd⟩
  | none =>
    refine Or.inr ⟨decl.name, ?_⟩
    simp only [hdecl]

/-- A field access names a field of the sort it demands, or it is reported. -/
theorem resolveFieldAs_cases (isStatic : Bool) {r : FieldRef} (hr : p.classes.Has r.cls) :
    (∃ f, Solver.resolveFieldAs p isStatic r = .ok f ∧ p.fields.Has f) ∨
      ∃ e, Solver.resolveFieldAs p isStatic r = .error (.error e) := by
  unfold Solver.resolveFieldAs
  rcases wf.resolveField_cases hr with ⟨f, hf, hh⟩ | ⟨name, hname⟩
  · obtain ⟨decl, hdecl⟩ := exists_fieldAt hh
    obtain ⟨name, hname⟩ := wf.exists_fieldName hh
    simp only [hf, hdecl, hname, bind, Except.bind, Outcome.defect]
    -- a field of the wrong sort is reported by its name
    by_cases hs : decl.isStatic = isStatic
    · rw [if_pos hs]
      exact Or.inl ⟨f, rfl, hh⟩
    · rw [if_neg hs]
      cases isStatic with
      | true => exact Or.inr ⟨_, rfl⟩
      | false => exact Or.inr ⟨_, rfl⟩
  · exact Or.inr ⟨_, by rw [hname]; rfl⟩

/-- A field access that is not reported names a field. -/
theorem exists_field {isStatic : Bool} {r : FieldRef} (hr : p.classes.Has r.cls)
    (hno : ∀ e, Solver.resolveFieldAs p isStatic r ≠ .error (.error e)) :
    ∃ f, Solver.resolveFieldAs p isStatic r = .ok f := by
  rcases wf.resolveFieldAs_cases isStatic hr with ⟨f, hf, -⟩ | ⟨e, he⟩
  · exact ⟨f, hf⟩
  · exact absurd he (hno e)

/-- A method that is not reported to be of the wrong sort is of the right one. -/
theorem exists_decl (isStatic : Bool) {m : MethodId} (hm : p.methods.Has m)
    (hno : ∀ decl signature, p.methodAt m = .ok decl → decl.isStatic = !isStatic →
      p.methodSignature m ≠ .ok signature) :
    ∃ decl, p.methodAt m = .ok decl ∧ decl.isStatic = isStatic := by
  obtain ⟨decl, hdecl⟩ := exists_methodAt hm
  obtain ⟨signature, hsignature⟩ := wf.exists_methodSignature hm
  refine ⟨decl, hdecl, ?_⟩
  by_contra hne
  exact hno decl signature hdecl (Bool.eq_not_of_ne hne) hsignature

end WellFormed

end PointerAnalysis.Program
