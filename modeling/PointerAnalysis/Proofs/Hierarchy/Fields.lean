import PointerAnalysis.Proofs.Hierarchy.SearchOrder

/-!
# Lookup of fields

A field is looked up in a single search.  The chain of superclasses waits from the beginning, and the
interfaces that its classes list join behind it.  No class stands on the chain twice, so the chain is
visited first and as a whole, and the supertypes of a class are searched for fields in the same order
as for methods.

## Main definitions

- `Program.fieldOutcome`: a field that is found, or the report that there is none.
- `Program.FieldAnswer`: what the lookup of a field answers.

## Main statements

- `SearchOrder.visited_eq`: the search with the chain waiting visits the chain, then the interfaces.
- `resolveField_searches_supertypes`: the lookup of a field answers with what is found first.
-/

namespace PointerAnalysis.Program

variable {p : Program}

/-! ## The order of the search -/

/-- If the whole chain waits, it is visited first, and then the interfaces above it. -/
theorem SearchOrder.visited_eq {c : ClassId} {chain interfaces visited : List ClassId}
    (h : p.SearchOrder c chain interfaces) (hsearch : Search p.interfacesOf chain [] visited) :
    visited = chain ++ interfaces := by
  have hsearch : Search p.interfacesOf (chain ++ []) [] visited := by rwa [List.append_nil]
  obtain ⟨later, rfl, hlater⟩ := hsearch.exists_after h.isChain.nodup (by simp)
  rw [List.nil_append] at hlater
  rw [hlater.unique h.above (by simp)]

/-! ## What is found -/

/-- The outcome of a lookup: the field that is found, or the report that a class has none of the
name. -/
def fieldOutcome (cls name : String) (found : Option FieldId) : Outcome FieldId :=
  found.elim (.error (.error (.unresolvedField cls name))) .ok

theorem fieldOutcome_eq_ok {cls name : String} {found : Option FieldId} {f : FieldId} :
    fieldOutcome cls name found = .ok f ↔ found = some f := by
  cases found <;> simp [fieldOutcome]

theorem fieldOutcome_eq_unresolved {cls name : String} {found : Option FieldId} :
    fieldOutcome cls name found = .error (.error (.unresolvedField cls name)) ↔ found = none := by
  cases found <;> simp [fieldOutcome]

/-- What the lookup of a field answers if `chain` is the chain of superclasses of the class: a report
if no supertype declares a field of the name, and otherwise a field.  A class of the chain goes
before all interfaces, and among classes and among interfaces the first one is taken. -/
structure FieldAnswer (p : Program) (r : FieldRef) (cls : String) (chain : List ClassId)
    (outcome : Outcome FieldId) : Prop where
  unresolved_iff : outcome = .error (.error (.unresolvedField cls r.name)) ↔
    ∀ d, p.isSubtype r.cls d = .ok true → p.declaredField? d r.name = none
  resolved_iff : (∃ f, outcome = .ok f) ↔
    ∃ d f, p.isSubtype r.cls d = .ok true ∧ p.declaredField? d r.name = some f
  ofChain : ∀ f, chain.findSome? (p.declaredField? · r.name) = some f → outcome = .ok f
  ofInterfaces : chain.findSome? (p.declaredField? · r.name) = none → ∀ f, outcome = .ok f ↔
    FirstAnswer p.interfacesOf (chain.flatMap p.interfacesOf) (p.declaredField? · r.name) f

/-- The first of all supertypes in the order of the search answers as described. -/
theorem SearchOrder.fieldAnswer {r : FieldRef} {chain interfaces : List ClassId}
    (h : p.SearchOrder r.cls chain interfaces) (cls : String) :
    p.FieldAnswer r cls chain
      (fieldOutcome cls r.name ((chain ++ interfaces).findSome? (p.declaredField? · r.name))) where
  unresolved_iff := by
    rw [fieldOutcome_eq_unresolved, h.findSome?_eq_none_iff]
  resolved_iff := by
    simp only [fieldOutcome_eq_ok, h.exists_findSome?_iff]
  ofChain := by
    intro f hf
    rw [fieldOutcome_eq_ok, List.findSome?_append, hf, Option.some_or]
  ofInterfaces := by
    intro hnone f
    rw [fieldOutcome_eq_ok, h.findSome?_above_iff hnone]

/-- The lookup of a field searches the chain of superclasses, then the interfaces above it. -/
theorem exists_resolveField_eq (hp : p.Built) {r : FieldRef} (hr : p.classes.Has r.cls) :
    ∃ chain interfaces decl, p.SearchOrder r.cls chain interfaces ∧
      Search p.interfacesOf chain [] (chain ++ interfaces) ∧
      p.classes.get? r.cls = some decl ∧
      p.resolveField r = fieldOutcome decl.name r.name
        ((chain ++ interfaces).findSome? (p.declaredField? · r.name)) := by
  have wf := hp.wellFormed
  obtain ⟨chain, interfaces, hchain, -, horder⟩ := exists_searchOrder wf hr hp.interfacesApart
  have hhas : ∀ d ∈ chain, p.classes.Has d := fun d hd =>
    wf.has_of_reaches hr (horder.isChain.reaches hd).of_superclassLinks
  obtain ⟨visited, hvisited, -⟩ := exists_walk wf.leads_interfaceLinks p.classes.size [] hhas
  have hsearch : Search p.interfacesOf chain [] visited :=
    search_of_fresh_walk wf.leads_interfaceLinks (fun _ => links_eq_named) hvisited hhas
  -- the single search meets what the two searches meet one after the other
  obtain rfl := horder.visited_eq hsearch
  obtain ⟨decl, hdecl⟩ := exists_classAt hr
  refine ⟨chain, interfaces, decl, horder, hsearch, Outcome.ofRow_eq_ok.1 hdecl, ?_⟩
  unfold resolveField
  simp only [hchain, hvisited, hdecl, bind, Except.bind]
  cases (chain ++ interfaces).findSome? (p.declaredField? · r.name) <;> rfl

/-- The lookup of a field in a class of a built program searches its supertypes in order, and answers
with what is found first. -/
theorem resolveField_searches_supertypes (hp : p.Built) {r : FieldRef}
    (hr : p.classes.Has r.cls) :
    ∃ chain interfaces decl, p.SearchOrder r.cls chain interfaces ∧
      Search p.interfacesOf chain [] (chain ++ interfaces) ∧
      p.classes.get? r.cls = some decl ∧
      p.FieldAnswer r decl.name chain (p.resolveField r) := by
  obtain ⟨chain, interfaces, decl, horder, hsearch, hdecl, heq⟩ := exists_resolveField_eq hp hr
  exact ⟨chain, interfaces, decl, horder, hsearch, hdecl, heq ▸ horder.fieldAnswer decl.name⟩

/-- Two classes that extend each other.  The first implements an interface that extends another one,
and the second declares a field that both interfaces declare too. -/
def shadowedSteps : List Draft.Step :=
  [.declareInterface "Limits" [],
    .declareInterface "Colors" [⟨0⟩],
    .declareClass "Panel" (some ⟨3⟩),
    .declareClass "Frame" (some ⟨2⟩),
    .implement ⟨2⟩ ⟨1⟩,
    .implement ⟨3⟩ ⟨0⟩,
    .declareField ⟨0⟩ "max" true,
    .declareField ⟨1⟩ "max" true,
    .declareField ⟨0⟩ "width" true,
    .declareField ⟨1⟩ "width" true,
    .declareField ⟨3⟩ "width" false,
    .declareMethod ⟨2⟩ ⟨"void main()"⟩ .static,
    .setEntry ⟨0⟩]

/-- The program that these steps build. -/
def shadowedProgram : Program where
  classes := ⟨#[
    { name := "Limits", isInterface := true, isAbstract := true },
    { name := "Colors", interfaces := [⟨0⟩], isInterface := true, isAbstract := true },
    { name := "Panel", superclass := some ⟨3⟩, interfaces := [⟨1⟩] },
    { name := "Frame", superclass := some ⟨2⟩, interfaces := [⟨0⟩] }]⟩
  methods := ⟨#[
    { subsignature := ⟨"void main()"⟩, owner := ⟨2⟩, isStatic := true, body := some {} }]⟩
  fields := ⟨#[
    { name := "max", owner := ⟨0⟩, isStatic := true },
    { name := "max", owner := ⟨1⟩, isStatic := true },
    { name := "width", owner := ⟨0⟩, isStatic := true },
    { name := "width", owner := ⟨1⟩, isStatic := true },
    { name := "width", owner := ⟨3⟩, isStatic := false }]⟩
  vars := {}
  stmts := {}
  dereferences := {}
  entry := ⟨0⟩
  root := none

/-- A field of the superclass goes before those of the interfaces, of which otherwise the nearest
counts. -/
theorem shadowedProgram_searches :
    shadowedProgram.Built ∧ shadowedProgram.classes.Has ⟨2⟩ ∧
      shadowedProgram.resolveField ⟨⟨2⟩, "width"⟩ = .ok ⟨4⟩ ∧
      ∃ chain interfaces, shadowedProgram.SearchOrder ⟨2⟩ chain interfaces ∧
        shadowedProgram.FieldAnswer ⟨⟨2⟩, "max"⟩ "Panel" chain (.ok ⟨1⟩) := by
  have hbuilt : shadowedProgram.Built := ⟨shadowedSteps, by decide +kernel⟩
  have hc : shadowedProgram.classes.Has ⟨2⟩ := by decide
  obtain ⟨chain, interfaces, decl, horder, -, hdecl, hanswer⟩ :=
    resolveField_searches_supertypes hbuilt (r := ⟨⟨2⟩, "max"⟩) hc
  have hmax : shadowedProgram.resolveField ⟨⟨2⟩, "max"⟩ = .ok ⟨1⟩ := by decide +kernel
  obtain rfl := Option.some.inj hdecl
  exact ⟨hbuilt, hc, by decide +kernel, chain, interfaces, horder, hmax ▸ hanswer⟩

end PointerAnalysis.Program
