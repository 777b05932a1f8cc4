import PointerAnalysis.CallGraph.FromHierarchy
import PointerAnalysis.Proofs.GrowingLists
import PointerAnalysis.Proofs.Hierarchy.ChainMemo

/-!
# Targets in the class hierarchy

The methods that a call may run are looked up for many classes at once, with a memo of the chains of
superclasses that have been searched.  The memo says for each class what dispatch would find on its
chain, so the lookup finds for each class the method that dispatch selects.

## Main definitions

- `Program.dispatchTargets`: the targets of a call, looked up without a memo.
- `Program.MayCall`: the class hierarchy allows a call to run a method.

## Main statements

- `exists_targetsIn`: the lookup of many classes is the dispatch of each.
- `exists_hierarchyTargets`: the targets of a call are those that the hierarchy allows.
- `hierarchyTargets_eq_dispatchTargets`: the memo makes no difference.
-/

namespace PointerAnalysis.Program

variable {p : Program} {s : Subsignature}

/-- Adding to a list what it does not have yet, one by one, erases what comes again. -/
theorem firstOccurrences_eq_eraseDups {α : Type} [DecidableEq α] (xs : List α) :
    firstOccurrences xs = xs.eraseDups := foldl_keepNew [] xs

theorem mem_firstOccurrences {α : Type} [DecidableEq α] {xs : List α} {x : α} :
    x ∈ firstOccurrences xs ↔ x ∈ xs := by
  rw [firstOccurrences_eq_eraseDups, List.mem_eraseDups]

theorem nodup_firstOccurrences {α : Type} [DecidableEq α] (xs : List α) :
    (firstOccurrences xs).Nodup := by
  rw [firstOccurrences_eq_eraseDups]
  exact nodup_eraseDups xs

/-- The targets of a call with dynamic dispatch, without a memo: dispatch selects a method for each
subtype of the class that the call names, and those with code are kept, each where it is selected
first. -/
def dispatchTargets (p : Program) (call : Invoke) : Outcome (List MethodId) := do
  let subtypes ← p.subtypes call.methodRef.cls
  let selected ← subtypes.mapM (p.dispatch · call.methodRef.subsignature)
  return (selected.filterMap (Option.filter p.isConcrete)).eraseDups

theorem hierarchyTargets_of_dispatched {call : Invoke}
    (hk : call.kind = .virtual ∨ call.kind = .interface) :
    p.hierarchyTargets call = (do
      let subtypes ← p.subtypes call.methodRef.cls
      return firstOccurrences (← p.targetsIn call.methodRef.subsignature [] subtypes)) := by
  unfold hierarchyTargets
  rcases hk with hk | hk <;> rw [hk]

/-- The class hierarchy allows a call to run a method: the method that the call names, or the one
that dispatch selects for a subtype of the class that the call names. -/
inductive MayCall (p : Program) (call : Invoke) (m : MethodId) : Prop where
  | named (hk : call.kind = .static ∨ call.kind = .special)
      (hm : p.resolveMethod call.methodRef = .ok (some m)) (hconcrete : p.isConcrete m = true)
  | dispatched {c : ClassId} (hk : call.kind = .virtual ∨ call.kind = .interface)
      (hc : p.classes.Has c) (hsub : p.isSubtype c call.methodRef.cls = .ok true)
      (hm : p.dispatch c call.methodRef.subsignature = .ok (some m))
      (hconcrete : p.isConcrete m = true)

theorem has_of_isConcrete {m : MethodId} (h : p.isConcrete m = true) : p.methods.Has m := by
  cases hm : p.methods.get? m with
  | none => rw [isConcrete, hm] at h; cases h
  | some decl => exact Table.has_of_get? hm

/-- What a call may run is a method of the program. -/
theorem MayCall.has {call : Invoke} {m : MethodId} (h : p.MayCall call m) : p.methods.Has m := by
  cases h with
  | named _ _ hconcrete => exact has_of_isConcrete hconcrete
  | dispatched _ _ _ _ hconcrete => exact has_of_isConcrete hconcrete

section Targets

variable (wf : p.WellFormed)
include wf

/-- The lookup of many classes with an exact memo gives for each the method that dispatch selects, if
that has code. -/
theorem exists_targetsIn {memo : ChainMemo} (hmemo : memo.Exact p s) {cs : List ClassId}
    (hcs : ∀ c ∈ cs, p.classes.Has c) :
    ∃ found, cs.mapM (p.dispatch · s) = .ok found ∧
      p.targetsIn s memo cs = .ok (found.filterMap (Option.filter p.isConcrete)) := by
  simp only [List.filterMap_eq_flatMap_toList]
  induction cs generalizing memo with
  | nil => exact ⟨[], rfl, rfl⟩
  | cons c cs ih =>
    obtain ⟨hc, hcs⟩ := List.forall_mem_cons.1 hcs
    obtain ⟨known, memo', hfind, hknown, -, hmemo'⟩ := ChainMemo.exists_find wf hmemo hc
    obtain ⟨found, hfound, hlater⟩ := ih hmemo' hcs
    obtain ⟨target, htarget, -⟩ := wf.exists_dispatch hc s
    refine ⟨target :: found, ?_, ?_⟩
    · rw [List.mapM_cons, htarget, hfound]
      rfl
    · refine Outcome.bind_eq_ok.2 ⟨_, hfind, ?_⟩
      -- what the chain declares is what dispatch selects
      cases known with
      | none => exact Outcome.bind_eq_ok.2 ⟨target, htarget, Outcome.bind_eq_ok.2 ⟨_, hlater, rfl⟩⟩
      | some m =>
        rw [dispatch_of_inherits wf hc ((hknown m).1 rfl)] at htarget
        obtain rfl := Except.ok.inj htarget
        exact Outcome.bind_eq_ok.2 ⟨some m, rfl, Outcome.bind_eq_ok.2 ⟨_, hlater, rfl⟩⟩

/-- The targets of a call are the methods that the hierarchy allows. -/
theorem exists_hierarchyTargets {call : Invoke} (hc : p.classes.Has call.methodRef.cls) :
    ∃ ms, p.hierarchyTargets call = .ok ms ∧ ∀ m, m ∈ ms ↔ p.MayCall call m := by
  obtain ⟨target, htarget, -⟩ := wf.exists_dispatch hc call.methodRef.subsignature
  have htarget : p.resolveMethod call.methodRef = .ok target := htarget
  obtain ⟨cs, hcs, hhas⟩ := exists_subtypes hc
  obtain ⟨found, hfound, htargets⟩ := exists_targetsIn wf
    (s := call.methodRef.subsignature) ChainMemo.exact_nil hhas
  -- named calls and dispatched calls exclude each other
  have hsorts : ¬ ((call.kind = .static ∨ call.kind = .special) ∧
      (call.kind = .virtual ∨ call.kind = .interface)) := by
    cases call.kind <;> simp
  have hnamed : call.kind = .static ∨ call.kind = .special → ∀ m,
      m ∈ (target.filter p.isConcrete).toList ↔ p.MayCall call m := by
    intro hk m
    rw [Option.mem_toList, Option.filter_eq_some_iff]
    constructor
    · intro hm
      obtain ⟨rfl, hconcrete⟩ := hm
      exact .named hk htarget hconcrete
    · intro hm
      cases hm with
      | named _ hm hconcrete => exact ⟨Except.ok.inj (htarget.symm.trans hm), hconcrete⟩
      | dispatched hk' => exact absurd ⟨hk, hk'⟩ hsorts
  have hdispatched : call.kind = .virtual ∨ call.kind = .interface → ∀ m,
      m ∈ firstOccurrences (found.filterMap (Option.filter p.isConcrete)) ↔ p.MayCall call m := by
    intro hk m
    simp only [mem_firstOccurrences, List.mem_filterMap, Outcome.mem_of_mapM_eq_ok hfound,
      Option.filter_eq_some_iff]
    constructor
    · intro hm
      obtain ⟨_, ⟨c, hmem, hm⟩, rfl, hconcrete⟩ := hm
      have hsub := (mem_subtypes_iff wf hc (hhas c hmem) hcs).1 hmem
      exact .dispatched hk (hhas c hmem) hsub hm hconcrete
    · intro hm
      cases hm with
      | named hk' => exact absurd ⟨hk', hk⟩ hsorts
      | dispatched _ hhas' hsub hm hconcrete =>
        exact ⟨_, ⟨_, (mem_subtypes_iff wf hc hhas' hcs).2 hsub, hm⟩, rfl, hconcrete⟩
  unfold hierarchyTargets
  cases hk : call.kind with
  | static => exact ⟨_, Outcome.bind_eq_ok.2 ⟨target, htarget, rfl⟩, hnamed (Or.inl hk)⟩
  | special => exact ⟨_, Outcome.bind_eq_ok.2 ⟨target, htarget, rfl⟩, hnamed (Or.inr hk)⟩
  | virtual =>
    exact ⟨_, Outcome.bind_eq_ok.2 ⟨cs, hcs, Outcome.bind_eq_ok.2 ⟨_, htargets, rfl⟩⟩,
      hdispatched (Or.inl hk)⟩
  | interface =>
    exact ⟨_, Outcome.bind_eq_ok.2 ⟨cs, hcs, Outcome.bind_eq_ok.2 ⟨_, htargets, rfl⟩⟩,
      hdispatched (Or.inr hk)⟩
  | dynamic =>
    refine ⟨[], rfl, fun m => iff_of_false List.not_mem_nil fun hm => ?_⟩
    cases hm with
    | named hk' => rcases hk' with hk' | hk' <;> cases hk.symm.trans hk'
    | dispatched hk' => rcases hk' with hk' | hk' <;> cases hk.symm.trans hk'

end Targets

/-! ## Targets without a memo -/

/-- The memo makes no difference to the targets of a call with dynamic dispatch, nor to their order.
If the class that the call names exists, the targets are found. -/
theorem hierarchyTargets_eq_dispatchTargets (hp : p.Built) {call : Invoke}
    (hk : call.kind = .virtual ∨ call.kind = .interface) :
    p.hierarchyTargets call = p.dispatchTargets call ∧
      (p.classes.Has call.methodRef.cls → ∃ ms, p.hierarchyTargets call = .ok ms) := by
  have wf := hp.wellFormed
  refine ⟨?_, fun hc => (exists_hierarchyTargets wf hc).imp fun _ h => h.1⟩
  rw [hierarchyTargets_of_dispatched hk, dispatchTargets]
  cases hcs : p.subtypes call.methodRef.cls with
  | error e => rfl
  | ok cs =>
    obtain ⟨selected, hselected, htargets⟩ := exists_targetsIn wf
      (s := call.methodRef.subsignature) ChainMemo.exact_nil fun c => has_of_mem_subtypes hcs
    simp only [htargets, hselected, firstOccurrences_eq_eraseDups, bind, Except.bind]

/-- A class without a method, below it one that gets the default method of an interface, and below
that two classes, of which one overrides the method. -/
def lateDefaultSteps : List Draft.Step :=
  [.declareClass "Base" none,
    .declareInterface "Greets" [],
    .declareClass "Middle" (some ⟨0⟩),
    .implement ⟨2⟩ ⟨1⟩,
    .declareClass "Loud" (some ⟨2⟩),
    .declareClass "Quiet" (some ⟨2⟩),
    .declareMethod ⟨1⟩ ⟨"void greet()"⟩ .member,
    .declareMethod ⟨3⟩ ⟨"void greet()"⟩ .member,
    .declareMethod ⟨0⟩ ⟨"void main()"⟩ .static,
    .setEntry ⟨2⟩]

/-- The program that these steps build. -/
def lateDefault : Program where
  classes := ⟨#[
    { name := "Base" },
    { name := "Greets", isInterface := true, isAbstract := true },
    { name := "Middle", superclass := some ⟨0⟩, interfaces := [⟨1⟩] },
    { name := "Loud", superclass := some ⟨2⟩ },
    { name := "Quiet", superclass := some ⟨2⟩ }]⟩
  methods := ⟨#[
    { subsignature := ⟨"void greet()"⟩, owner := ⟨1⟩, body := some { self := some ⟨0⟩ } },
    { subsignature := ⟨"void greet()"⟩, owner := ⟨3⟩, body := some { self := some ⟨1⟩ } },
    { subsignature := ⟨"void main()"⟩, owner := ⟨0⟩, isStatic := true, body := some {} }]⟩
  fields := {}
  vars := ⟨#[{ name := "this", method := ⟨0⟩ }, { name := "this", method := ⟨1⟩ }]⟩
  stmts := {}
  dereferences := ⟨#[{}, {}]⟩
  entry := ⟨2⟩
  root := none

/-- The default method is found below a class of which the memo knows that it has none, and it is
kept once. -/
theorem lateDefault_targets :
    let call : Invoke := { kind := .virtual, methodRef := ⟨⟨0⟩, ⟨"void greet()"⟩⟩ }
    lateDefault.Built ∧ lateDefault.classes.Has call.methodRef.cls ∧
      lateDefault.hierarchyTargets call = .ok [⟨0⟩, ⟨1⟩] ∧
      lateDefault.dispatchTargets call = .ok [⟨0⟩, ⟨1⟩] := by
  intro call
  have hbuilt : lateDefault.Built := ⟨lateDefaultSteps, by decide +kernel⟩
  have hc : lateDefault.classes.Has call.methodRef.cls := by decide
  have hkind : call.kind = .virtual ∨ call.kind = .interface := Or.inl rfl
  obtain ⟨heq, hfound⟩ := hierarchyTargets_eq_dispatchTargets hbuilt hkind
  obtain ⟨ms, hms⟩ := hfound hc
  have htargets : lateDefault.dispatchTargets call = .ok [⟨0⟩, ⟨1⟩] := by decide +kernel
  obtain rfl := Except.ok.inj (hms.symm.trans (heq.trans htargets))
  exact ⟨hbuilt, hc, hms, htargets⟩

end PointerAnalysis.Program
