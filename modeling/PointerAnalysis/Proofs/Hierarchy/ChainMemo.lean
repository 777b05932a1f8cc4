import PointerAnalysis.Proofs.Hierarchy.Dispatch

/-!
# Lookup with a memo

The concrete methods that chains of superclasses declare are looked up with a memo.  A lookup climbs
from class to class until it comes to one that is known or declares the method, and notes what it
has found for all classes passed.  These inherit the same, so each entry of the memo is the answer
for its class, whatever has been asked for before.

No climb recognizes a class that it has passed before.  On a cycle of superclasses it ends for lack
of room, and then there was nothing to be found: what is inherited is declared on the chain, and a
chain has no more classes than there are.

## Main definitions

- `ChainMemo.Climbs`: the course of a climb.
- `ChainMemo.Exact`: each entry of a memo is the answer for its class.
- `ChainMemo.findEach`: a sequence of lookups that share one memo.
- `Program.ChainAnswer`: what the chain of superclasses of a class answers.
- `ChainMemo.Answers`: a lookup and the memo after it are right.

## Main statements

- `ChainMemo.Climbs.inherited`: a climb with an exact memo finds what is inherited.
- `ChainMemo.exists_find`: a lookup leaves an exact memo exact.
- `ChainMemo.findEach_answers`: every lookup of a sequence answers for its class, and so does every
  entry that the memo ever has.
-/

namespace PointerAnalysis

namespace ChainMemo

variable {p : Program} {s : Subsignature} {memo : ChainMemo}

theorem mem_of_lookup {c : ClassId} {found : Option MethodId} (h : memo.lookup c = some found) :
    (c, found) ∈ memo := by
  obtain ⟨before, after, rfl, -⟩ := List.lookup_eq_some_iff.1 h
  exact List.mem_append_right _ (List.mem_cons_self ..)

/-! ## Climbs -/

/-- The course of a climb from a class: it ends at a class that is known, that declares the method
or that has no superclass, or else for lack of room. -/
inductive Climbs (p : Program) (s : Subsignature) (memo : ChainMemo) :
    (room : Nat) → ClassId → (passed : List ClassId) → (found : Option MethodId) → Prop where
  | known {room : Nat} {c : ClassId} {found : Option MethodId} (h : (c, found) ∈ memo) :
      Climbs p s memo room c [] found
  | exhausted (c : ClassId) : Climbs p s memo 0 c [] none
  | declares {room : Nat} {c : ClassId} {m : MethodId} (hc : p.classes.Has c)
      (hm : p.concreteMethod? c s = some m) : Climbs p s memo (room + 1) c [c] (some m)
  | top {room : Nat} {c : ClassId} {decl : ClassDecl} (hnone : p.concreteMethod? c s = none)
      (hc : p.classes.get? c = some decl) (hd : decl.superclass = none) :
      Climbs p s memo (room + 1) c [c] none
  | above {room : Nat} {c d : ClassId} {decl : ClassDecl} {passed : List ClassId}
      {found : Option MethodId} (hnone : p.concreteMethod? c s = none)
      (hc : p.classes.get? c = some decl) (hd : decl.superclass = some d)
      (h : Climbs p s memo room d passed found) : Climbs p s memo (room + 1) c (c :: passed) found

/-- Every climb ends, and takes such a course. -/
theorem exists_climb (wf : p.WellFormed) (memo : ChainMemo) (room : Nat) {c : ClassId}
    (hc : p.classes.Has c) :
    ∃ passed found, climb p s memo room c = .ok (passed, found) ∧
      Climbs p s memo room c passed found := by
  induction room generalizing c with
  | zero =>
    rw [climb]
    cases hlookup : memo.lookup c with
    | some known => exact ⟨[], known, rfl, .known (mem_of_lookup hlookup)⟩
    | none => exact ⟨[], none, rfl, .exhausted c⟩
  | succ room ih =>
    rw [climb]
    cases hlookup : memo.lookup c with
    | some known => exact ⟨[], known, rfl, .known (mem_of_lookup hlookup)⟩
    | none =>
      -- a class that the memo does not know declares the method, has no superclass, or goes on
      obtain ⟨decl, hdecl⟩ := Program.exists_classAt hc
      have hrow := Outcome.ofRow_eq_ok.1 hdecl
      dsimp only
      rw [hdecl]
      cases hm : p.concreteMethod? c s with
      | some m => exact ⟨[c], some m, rfl, .declares hc hm⟩
      | none =>
        cases hd : decl.superclass with
        | none =>
          refine ⟨[c], none, ?_, .top hm hrow hd⟩
          simp only [hd, bind, Except.bind, pure, Except.pure]
        | some d =>
          obtain ⟨passed, found, hclimb, h⟩ := ih (wf.superclass c decl hrow d hd)
          refine ⟨c :: passed, found, ?_, .above hm hrow hd h⟩
          simp only [hd, hclimb, bind, Except.bind, pure, Except.pure]

/-- The classes that a climb passes are there. -/
theorem Climbs.has {room : Nat} {c : ClassId} {passed : List ClassId} {found : Option MethodId}
    (h : Climbs p s memo room c passed found) : ∀ d ∈ passed, p.classes.Has d := by
  induction h with
  | known | exhausted => simp
  | declares hc => exact List.forall_mem_singleton.2 hc
  | top _ hc => exact List.forall_mem_singleton.2 (Table.has_of_get? hc)
  | above _ hc _ _ ih => exact List.forall_mem_cons.2 ⟨Table.has_of_get? hc, ih⟩

/-- The classes that a climb passes inherit the same as the class that it begins with. -/
theorem Climbs.inherits_iff {room : Nat} {c d : ClassId} {passed : List ClassId}
    {found : Option MethodId} {m : MethodId} (h : Climbs p s memo room c passed found)
    (hd : d ∈ passed) : p.Inherits s d m ↔ p.Inherits s c m := by
  induction h with
  | known | exhausted => cases hd
  | declares | top => rw [List.mem_singleton.1 hd]
  | above hnone hc hsuper _ ih =>
    rcases List.mem_cons.1 hd with rfl | hd
    · exact Iff.rfl
    · exact (ih hd).trans (Program.inherits_above_iff hnone hc hsuper).symm

/-- With room to pass a class, the first one is passed unless it is known. -/
theorem Climbs.known_or_passed {room : Nat} {c : ClassId} {passed : List ClassId}
    {found : Option MethodId} (h : Climbs p s memo (room + 1) c passed found) :
    (c, found) ∈ memo ∨ c ∈ passed := by
  cases h with
  | known h => exact Or.inl h
  | declares | top | above => exact Or.inr (List.mem_cons_self ..)

/-! ## Exact memos -/

/-- Each entry of a memo says what its class inherits, or that it inherits nothing. -/
def Exact (p : Program) (s : Subsignature) (memo : ChainMemo) : Prop :=
  ∀ c found, (c, found) ∈ memo → p.classes.Has c ∧ p.Inherited s c found

theorem exact_nil : Exact p s [] := fun _ _ h => by cases h

theorem Exact.note (hmemo : memo.Exact p s) {c : ClassId} {found : Option MethodId}
    (hc : p.classes.Has c) (h : p.Inherited s c found) : (memo.note c found).Exact p s := by
  intro d found' hd
  rcases List.mem_cons.1 hd with e | hd
  · obtain ⟨rfl, rfl⟩ := Prod.mk.inj e
    exact ⟨hc, h⟩
  · exact hmemo d found' (List.mem_of_mem_filter hd)

theorem Exact.noteAll (hmemo : memo.Exact p s) {cs : List ClassId} {found : Option MethodId}
    (h : ∀ c ∈ cs, p.classes.Has c ∧ p.Inherited s c found) :
    Exact p s (cs.foldl (fun memo c => memo.note c found) memo) := by
  induction cs generalizing memo with
  | nil => exact hmemo
  | cons c cs ih =>
    obtain ⟨⟨hc, hfound⟩, h⟩ := List.forall_mem_cons.1 h
    exact ih (hmemo.note hc hfound) h

/-- What is noted for several classes is known of each, and what was the same before stays. -/
theorem mem_noteAll {c : ClassId} {found : Option MethodId} {cs : List ClassId}
    (h : (c, found) ∈ memo ∨ c ∈ cs) :
    (c, found) ∈ cs.foldl (fun memo c => memo.note c found) memo := by
  induction cs generalizing memo with
  | nil => exact h.resolve_right List.not_mem_nil
  | cons d cs ih =>
    refine ih ?_
    by_cases e : c = d
    · exact Or.inl (e ▸ List.mem_cons_self ..)
    · refine h.imp (fun h => ?_) fun h => (List.mem_cons.1 h).resolve_left e
      exact List.mem_cons_of_mem _ (List.mem_filter.2 ⟨h, decide_eq_true e⟩)

section Climbs

variable {room : Nat} {c : ClassId} {passed : List ClassId} {found : Option MethodId} {m : MethodId}
variable (hmemo : memo.Exact p s) (h : Climbs p s memo room c passed found)
include hmemo h

/-- What a climb finds is inherited. -/
theorem Climbs.inherits (hm : found = some m) : p.Inherits s c m := by
  induction h with
  | known hknown => exact ((hmemo _ _ hknown).2 m).1 hm
  | exhausted => cases hm
  | declares _ hdeclared => exact .here (hdeclared.trans hm)
  | top => cases hm
  | above hnone hc hd _ ih => exact .above hnone hc hd (ih hm)

/-- A climb finds what is declared on a path of superclasses, if it has room for all classes of the
path. -/
theorem Climbs.eq_some_of_path {cs : List ClassId} (hpath : p.SuperclassPath (some c) cs)
    (hm : cs.findSome? (p.concreteMethod? · s) = some m) (hroom : cs.length ≤ room) :
    found = some m := by
  induction h generalizing cs with
  | @known _ c found hknown =>
    obtain ⟨d, hd, hinherits⟩ := hpath.exists_inherits hm
    obtain rfl := Option.some.inj hd
    exact ((hmemo _ _ hknown).2 m).2 hinherits
  | exhausted =>
    obtain rfl := List.length_eq_zero_iff.1 (Nat.le_zero.1 hroom)
    cases hm
  | declares _ hdeclared =>
    cases hpath with
    | stop => cases hm
    | step => rwa [List.findSome?_cons, hdeclared] at hm
  | top hnone hc hd =>
    cases hpath with
    | stop => cases hm
    | step hc' hrest =>
      obtain rfl := Option.some.inj (hc.symm.trans hc')
      rw [hd] at hrest
      -- above the last class the path does not go on
      cases hrest
      rw [List.findSome?_cons, hnone] at hm
      cases hm
  | above hnone hc hd _ ih =>
    cases hpath with
    | stop => cases hm
    | step hc' hrest =>
      obtain rfl := Option.some.inj (hc.symm.trans hc')
      rw [hd] at hrest
      rw [List.findSome?_cons, hnone] at hm
      exact ih hrest hm (Nat.le_of_succ_le_succ hroom)

end Climbs

/-- A climb with an exact memo finds what is inherited.  If there is anything, it is declared on the
chain of superclasses, which passes no class twice, so there is room enough to come to it. -/
theorem Climbs.inherited (wf : p.WellFormed) (hmemo : memo.Exact p s) {c : ClassId}
    (hc : p.classes.Has c) {passed : List ClassId} {found : Option MethodId}
    (h : Climbs p s memo (p.classes.size + 1) c passed found) : p.Inherited s c found := by
  refine fun m => ⟨h.inherits hmemo, fun hinherits => ?_⟩
  obtain ⟨chain, hchain, hhas⟩ := wf.exists_superclassChain hc
  have hlength : chain.length ≤ p.classes.size :=
    Table.length_le_of_nodup (Program.nodup_walk hchain).1 hhas
  exact h.eq_some_of_path hmemo (Program.superclassPath_of_walk (c := some c) hchain)
    ((Program.findSome?_superclassChain_iff wf hc hchain).2 hinherits) (Nat.le_succ_of_le hlength)

/-! ## Lookups -/

/-- A lookup with an exact memo finds what is inherited.  The memo stays exact, and knows the class
now. -/
theorem exists_find (wf : p.WellFormed) (hmemo : memo.Exact p s) {c : ClassId}
    (hc : p.classes.Has c) :
    ∃ found memo', memo.find p s c = .ok (found, memo') ∧ p.Inherited s c found ∧
      (c, found) ∈ memo' ∧ memo'.Exact p s := by
  obtain ⟨passed, found, hclimb, h⟩ := exists_climb (s := s) wf memo (p.classes.size + 1) hc
  have hfound : p.Inherited s c found := h.inherited wf hmemo hc
  refine ⟨found, _, Outcome.bind_eq_ok.2 ⟨_, hclimb, rfl⟩, hfound, mem_noteAll h.known_or_passed,
    hmemo.noteAll fun d hd => ?_⟩
  exact ⟨h.has d hd, fun m => (hfound m).trans (h.inherits_iff hd).symm⟩

/-- Lookups that share a memo, one after the other: what each of them answers, and the memo after
it. -/
def findEach (p : Program) (s : Subsignature) (memo : ChainMemo) :
    List ClassId → Outcome (List (Option MethodId × ChainMemo))
  | [] => pure []
  | c :: cs => do
    let (found, memo) ← memo.find p s c
    let later ← findEach p s memo cs
    return (found, memo) :: later

/-- With an exact memo each lookup of a sequence finds what is inherited, and the memo stays
exact. -/
theorem exists_findEach (wf : p.WellFormed) (hmemo : memo.Exact p s) {cs : List ClassId}
    (hcs : ∀ c ∈ cs, p.classes.Has c) :
    ∃ results, findEach p s memo cs = .ok results ∧
      List.Forall₂ (fun c result => p.Inherited s c result.1 ∧ (c, result.1) ∈ result.2 ∧
        result.2.Exact p s) cs results := by
  induction cs generalizing memo with
  | nil => exact ⟨[], rfl, .nil⟩
  | cons c cs ih =>
    obtain ⟨hc, hcs⟩ := List.forall_mem_cons.1 hcs
    obtain ⟨found, memo₁, hfind, hfound, hknown, hmemo₁⟩ := exists_find wf hmemo hc
    obtain ⟨later, hlater, hresults⟩ := ih hmemo₁ hcs
    refine ⟨(found, memo₁) :: later, ?_, .cons ⟨hfound, hknown, hmemo₁⟩ hresults⟩
    exact Outcome.bind_eq_ok.2 ⟨_, hfind, Outcome.bind_eq_ok.2 ⟨_, hlater, rfl⟩⟩

end ChainMemo

/-! ## Answers of chains -/

namespace Program

variable {p : Program} {s : Subsignature} {c : ClassId}

/-- What the chain of superclasses of `c` answers: the concrete method of the first class that
declares one, or nothing.  An answer is what dispatch selects, and what dispatch selects on the
chain is the answer. -/
structure ChainAnswer (p : Program) (s : Subsignature) (c : ClassId) (answer : Option MethodId) :
    Prop where
  first : ∃ chain, p.SuperclassChain c chain ∧ answer = chain.findSome? (p.concreteMethod? · s)
  dispatched : ∀ m, answer = some m → p.dispatch c s = .ok (some m)
  complete : ∀ m chain d, p.dispatch c s = .ok (some m) → p.isConcrete m = true →
    p.SuperclassChain c chain → d ∈ chain → p.declaredMethod? d s = some m → answer = some m

/-- What is inherited answers as described. -/
theorem Inherited.chainAnswer (hp : p.Built) (hc : p.classes.Has c) {found : Option MethodId}
    (h : p.Inherited s c found) : p.ChainAnswer s c found := by
  have wf := hp.wellFormed
  obtain ⟨chain, interfaces, hchain, -, horder⟩ := exists_searchOrder wf hc hp.interfacesApart
  have hfound : found = chain.findSome? (p.concreteMethod? · s) :=
    Option.ext fun m => (h m).trans (findSome?_superclassChain_iff wf hc hchain).symm
  have hdispatched : ∀ m, found = some m → p.dispatch c s = .ok (some m) := fun m hm =>
    dispatch_of_inherits wf hc ((h m).1 hm)
  refine ⟨⟨chain, horder.isChain, hfound⟩, hdispatched, ?_⟩
  intro m chain' d hdispatch hconcrete hchain' hd hdeclares
  -- the chain passes the class that declares the method, so something is found
  have hmem : d ∈ chain :=
    (mem_walk_iff wf.leads_superclassLinks hc hchain).2 (hchain'.reaches hd)
  cases found with
  | some m' => exact Except.ok.inj ((hdispatched m' rfl).symm.trans hdispatch)
  | none =>
    cases (List.findSome?_eq_none_iff.1 hfound.symm d hmem).symm.trans
      (concreteMethod?_eq_some.2 ⟨hdeclares, hconcrete⟩)

end Program

namespace ChainMemo

/-- A lookup has answered what the chain of its class answers, and the memo after it knows this
answer and holds nothing but answers. -/
structure Answers (p : Program) (s : Subsignature) (c : ClassId)
    (result : Option MethodId × ChainMemo) : Prop where
  answer : p.ChainAnswer s c result.1
  noted : (c, result.1) ∈ result.2
  entries : ∀ d found, (d, found) ∈ result.2 → p.ChainAnswer s d found

/-- Lookups that share a memo, which is empty in the beginning, all come to their ends, and the memo
holds the right answers all the time. -/
theorem findEach_answers {p : Program} (hp : p.Built) (s : Subsignature) {cs : List ClassId}
    (hcs : ∀ c ∈ cs, p.classes.Has c) :
    ∃ results, findEach p s [] cs = .ok results ∧ List.Forall₂ (Answers p s) cs results := by
  obtain ⟨results, hfind, hresults⟩ := exists_findEach hp.wellFormed exact_nil hcs
  refine ⟨results, hfind, ((List.forall₂_and_left _ _).2 ⟨hcs, hresults⟩).imp ?_⟩
  intro c result h
  obtain ⟨hc, hfound, hnoted, hmemo⟩ := h
  refine ⟨hfound.chainAnswer hp hc, hnoted, fun d found hd => ?_⟩
  exact (hmemo d found hd).2.chainAnswer hp (hmemo d found hd).1

/-- A program with a class below a cycle of superclasses, and another one that inherits a method. -/
def tangledSteps : List Draft.Step :=
  [.declareClass "Shape" none,
    .declareClass "Square" (some ⟨0⟩),
    .declareClass "Loop" (some ⟨3⟩),
    .declareClass "Knot" (some ⟨2⟩),
    .declareClass "Tail" (some ⟨2⟩),
    .declareMethod ⟨0⟩ ⟨"void area()"⟩ .member,
    .declareMethod ⟨0⟩ ⟨"void main()"⟩ .static,
    .setEntry ⟨1⟩]

/-- The program that these steps build. -/
def tangledProgram : Program where
  classes := ⟨#[
    { name := "Shape" },
    { name := "Square", superclass := some ⟨0⟩ },
    { name := "Loop", superclass := some ⟨3⟩ },
    { name := "Knot", superclass := some ⟨2⟩ },
    { name := "Tail", superclass := some ⟨2⟩ }]⟩
  methods := ⟨#[
    { subsignature := ⟨"void area()"⟩, owner := ⟨0⟩, body := some { self := some ⟨0⟩ } },
    { subsignature := ⟨"void main()"⟩, owner := ⟨0⟩, isStatic := true, body := some {} }]⟩
  fields := {}
  vars := ⟨#[{ name := "this", method := ⟨0⟩ }]⟩
  stmts := {}
  dereferences := ⟨#[{}]⟩
  entry := ⟨1⟩
  root := none

/-- The climb from below the cycle ends without an answer, and notes that for three classes.  After
the next lookup all five classes are known. -/
theorem tangledProgram_answers :
    tangledProgram.Built ∧ (∀ c ∈ [⟨4⟩, ⟨1⟩, ⟨3⟩, ⟨0⟩], tangledProgram.classes.Has c) ∧
      ∃ results, findEach tangledProgram ⟨"void area()"⟩ [] [⟨4⟩, ⟨1⟩, ⟨3⟩, ⟨0⟩] = .ok results ∧
        results.map (fun r => (r.1, r.2.length)) =
          [(none, 3), (some ⟨0⟩, 5), (none, 5), (some ⟨0⟩, 5)] ∧
        List.Forall₂ (Answers tangledProgram ⟨"void area()"⟩) [⟨4⟩, ⟨1⟩, ⟨3⟩, ⟨0⟩] results := by
  have hbuilt : tangledProgram.Built := ⟨tangledSteps, by decide +kernel⟩
  have hcs : ∀ c ∈ [⟨4⟩, ⟨1⟩, ⟨3⟩, ⟨0⟩], tangledProgram.classes.Has c := by decide
  obtain ⟨results, hfind, hresults⟩ := findEach_answers hbuilt ⟨"void area()"⟩ hcs
  have hrun : (findEach tangledProgram ⟨"void area()"⟩ [] [⟨4⟩, ⟨1⟩, ⟨3⟩, ⟨0⟩]).map
      (List.map fun r => (r.1, r.2.length)) =
        .ok [(none, 3), (some ⟨0⟩, 5), (none, 5), (some ⟨0⟩, 5)] := by
    decide +kernel
  rw [hfind] at hrun
  exact ⟨hbuilt, hcs, results, hfind, Except.ok.inj hrun, hresults⟩

end ChainMemo

end PointerAnalysis
