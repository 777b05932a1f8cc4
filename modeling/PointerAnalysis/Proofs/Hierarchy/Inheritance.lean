import PointerAnalysis.Proofs.Hierarchy.Reachability

/-!
# Inheritance

A class has the methods of its superclasses, unless it declares them itself.  What a class inherits
is said here without chains of superclasses, and so the answer for a class can be used for those
below it.

A chain of superclasses is followed link by link; where the hierarchy has a cycle, the chain ends
before it comes back to a class.  The search of the chain finds what is inherited all the same, since
the classes that are not passed again declare nothing new.

## Main definitions

- `Program.Inherits`: a class has a method from its superclasses.
- `Program.Inherited`: what a class inherits, if anything.
- `Program.SuperclassPath`: a list of classes goes from each to its superclass.

## Main statements

- `findSome?_superclassChain_iff`: the search of a chain finds what is inherited.
- `dispatch_of_inherits`: dispatch selects what is inherited before anything else.
-/

namespace PointerAnalysis.Program

variable {p : Program} {s : Subsignature}

/-! ## Inheritance -/

/-- The method that a class has for a subsignature: its own if that has code, or else that of its
superclass. -/
inductive Inherits (p : Program) (s : Subsignature) : ClassId → MethodId → Prop where
  | here {c : ClassId} {m : MethodId} (hm : p.concreteMethod? c s = some m) : Inherits p s c m
  | above {c d : ClassId} {decl : ClassDecl} {m : MethodId}
      (hnone : p.concreteMethod? c s = none) (hc : p.classes.get? c = some decl)
      (hd : decl.superclass = some d) (h : Inherits p s d m) : Inherits p s c m

/-- What a class inherits, if anything. -/
def Inherited (p : Program) (s : Subsignature) (c : ClassId) (found : Option MethodId) : Prop :=
  ∀ m, found = some m ↔ Inherits p s c m

/-- A class without a method of its own has that of its superclass. -/
theorem inherits_above_iff {c d : ClassId} {decl : ClassDecl} {m : MethodId}
    (hnone : p.concreteMethod? c s = none) (hc : p.classes.get? c = some decl)
    (hd : decl.superclass = some d) : Inherits p s c m ↔ Inherits p s d m := by
  refine ⟨fun h => ?_, .above hnone hc hd⟩
  cases h with
  | here hm => cases hnone.symm.trans hm
  | above _ hc' hd' h =>
    obtain rfl := Option.some.inj (hc.symm.trans hc')
    obtain rfl := Option.some.inj (hd.symm.trans hd')
    exact h

theorem Inherits.inj {c : ClassId} {m m' : MethodId} (h : Inherits p s c m)
    (h' : Inherits p s c m') : m = m' := by
  induction h with
  | here hm =>
    cases h' with
    | here hm' => exact Option.some.inj (hm.symm.trans hm')
    | above hnone _ _ _ => cases hm.symm.trans hnone
  | above hnone hc hd _ ih => exact ih ((inherits_above_iff hnone hc hd).1 h')

/-- What is inherited is declared by a class that superclass links lead to. -/
theorem Inherits.exists_reaches {c : ClassId} {m : MethodId} (h : Inherits p s c m) :
    ∃ d, Reaches p.superclassLinks c d ∧ p.concreteMethod? d s = some m := by
  induction h with
  | here hm => exact ⟨_, .refl, hm⟩
  | @above c d decl m _ hc hd _ ih =>
    obtain ⟨e, hreach, hm⟩ := ih
    refine ⟨e, .head ⟨[d], ?_, List.mem_singleton_self d⟩ hreach, hm⟩
    exact Outcome.bind_eq_ok.2 ⟨decl, Outcome.ofRow_eq_ok.2 hc, by rw [hd]; rfl⟩

/-! ## Chains of superclasses -/

/-- A list of classes begins with the given one and goes on with the superclass of each. -/
inductive SuperclassPath (p : Program) : Option ClassId → List ClassId → Prop where
  | stop (c : Option ClassId) : SuperclassPath p c []
  | step {c : ClassId} {decl : ClassDecl} {cs : List ClassId} (hc : p.classes.get? c = some decl)
      (h : SuperclassPath p decl.superclass cs) : SuperclassPath p (some c) (c :: cs)

/-- A walk along superclasses follows a path: never does more than one class wait. -/
theorem superclassPath_of_walk {room : Nat} {c : Option ClassId} {seen cs : List ClassId}
    (h : walk p.superclassLinks room c.toList seen = .ok cs) : SuperclassPath p c cs := by
  induction room generalizing c seen cs with
  | zero =>
    obtain rfl := Except.ok.inj h
    exact .stop c
  | succ room ih =>
    rcases walk_cases h with
      ⟨rfl, -⟩ | ⟨passed, d, rest, found, later, hqueue, -, -, hfound, hlater, rfl⟩
    · exact .stop c
    · -- a class has at most one superclass, so the queue holds the next class and nothing else
      have hlength := congrArg List.length hqueue
      cases c with
      | none => simp at hlength
      | some c =>
        obtain ⟨rfl, rfl⟩ : passed = [] ∧ rest = [] := by
          simp only [Option.toList_some, List.length_append, List.length_cons,
            List.length_nil] at hlength
          exact ⟨List.length_eq_zero_iff.1 (by omega), List.length_eq_zero_iff.1 (by omega)⟩
        obtain rfl : c = d := by simpa using hqueue
        obtain ⟨decl, hdecl, hlinks⟩ := Outcome.bind_eq_ok.1 hfound
        obtain rfl := Outcome.pure_eq_ok.1 hlinks
        exact .step (Outcome.ofRow_eq_ok.1 hdecl) (ih hlater)

/-- What is found on a path is inherited by the class that it begins with. -/
theorem SuperclassPath.exists_inherits {c : Option ClassId} {cs : List ClassId} {m : MethodId}
    (hpath : SuperclassPath p c cs) (h : cs.findSome? (p.concreteMethod? · s) = some m) :
    ∃ d, c = some d ∧ Inherits p s d m := by
  induction hpath with
  | stop => cases h
  | @step c decl cs hc _ ih =>
    rw [List.findSome?_cons] at h
    cases hm : p.concreteMethod? c s with
    | some m' =>
      rw [hm] at h
      obtain rfl := Option.some.inj h
      exact ⟨c, rfl, .here hm⟩
    | none =>
      rw [hm] at h
      obtain ⟨d, hd, hinherits⟩ := ih h
      exact ⟨c, rfl, .above hm hc hd hinherits⟩

section Dispatch

variable (wf : p.WellFormed)
include wf

/-- The search of the chain of superclasses finds what is inherited. -/
theorem findSome?_superclassChain_iff {c : ClassId} (hc : p.classes.Has c) {cs : List ClassId}
    (h : p.superclassChain c = .ok cs) {m : MethodId} :
    cs.findSome? (p.concreteMethod? · s) = some m ↔ Inherits p s c m := by
  have hfound : ∀ {m}, cs.findSome? (p.concreteMethod? · s) = some m → Inherits p s c m := by
    intro m hm
    obtain ⟨d, hd, hinherits⟩ := (superclassPath_of_walk (c := some c) h).exists_inherits hm
    obtain rfl := Option.some.inj hd
    exact hinherits
  refine ⟨hfound, fun hinherits => ?_⟩
  -- the chain passes the class that declares the method, so something is found
  obtain ⟨d, hreach, hd⟩ := hinherits.exists_reaches
  have hmem : d ∈ cs := (mem_walk_iff wf.leads_superclassLinks hc h).2 hreach
  cases hm : cs.findSome? (p.concreteMethod? · s) with
  | none =>
    have hnone := List.findSome?_eq_none_iff.1 hm d hmem
    rw [hd] at hnone
    cases hnone
  | some m' => rw [(hfound hm).inj hinherits]

/-- Dispatch selects what is inherited from superclasses before anything else. -/
theorem dispatch_of_inherits {c : ClassId} (hc : p.classes.Has c) {m : MethodId}
    (h : Inherits p s c m) : p.dispatch c s = .ok (some m) := by
  -- the chain comes before the interfaces, so what it declares is found first
  obtain ⟨chain, hchain, hhas⟩ := wf.exists_superclassChain hc
  obtain ⟨above, habove⟩ := wf.exists_interfacesAbove hhas
  refine Outcome.bind_eq_ok.2 ⟨chain, hchain, Outcome.bind_eq_ok.2 ⟨above, habove, ?_⟩⟩
  simp only [List.findSome?_append, (findSome?_superclassChain_iff wf hc hchain).2 h,
    Option.some_or]
  rfl

end Dispatch

end PointerAnalysis.Program
