import PointerAnalysis.Proofs.Hierarchy.BreadthFirst
import PointerAnalysis.Proofs.Hierarchy.Inheritance
import PointerAnalysis.Proofs.Program.Supertypes

/-!
# The order of supertypes

The supertypes of a class are its chain of superclasses and the interfaces above that chain.  The
chain goes from a class to its superclass, and ends at a class without one or before it comes back to
a class.  The interfaces are met in breadth-first order, from those that the classes of the chain
list: interfaces that a class of the chain lists early come before those that it lists later, and
before those of its superclass.

## Main definitions

- `Program.superclassesOf`, `Program.interfacesOf`: what the declaration of a class names.
- `Program.SuperclassChain`: the chain of superclasses of a class.
- `Program.SearchOrder`: the order in which the supertypes of a class are searched.

## Main statements

- `mem_chain_append_iff`: the chain and the interfaces above it are all supertypes.
- `exists_searchOrder`: every class has a chain and interfaces in this order.
- `SearchOrder.findSome?_above_iff`: what is found above a chain is what is first in layers.
-/

namespace PointerAnalysis.Program

variable {p : Program}

/-! ## Direct supertypes -/

/-- The classes that the declaration of a class names in one of its parts. -/
def named (p : Program) (part : ClassDecl → List ClassId) (c : ClassId) : List ClassId :=
  (p.classes.get? c).elim [] part

/-- The superclass of a class, as a list of at most one. -/
def superclassesOf (p : Program) : ClassId → List ClassId :=
  p.named fun decl => decl.superclass.toList

/-- The interfaces that a class lists. -/
def interfacesOf (p : Program) : ClassId → List ClassId := p.named ClassDecl.interfaces

section Named

variable {part : ClassDecl → List ClassId} {c d : ClassId}

/-- A class is named in a part of a declaration that exists. -/
theorem mem_named :
    d ∈ p.named part c ↔ ∃ decl, p.classes.get? c = some decl ∧ d ∈ part decl := by
  unfold named
  cases p.classes.get? c <;> simp

/-- Links that read a part of a declaration lead to the classes named there. -/
theorem links_eq_named (hc : p.classes.Has c) :
    (do return part (← p.classAt c)) = Except.ok (p.named part c) := by
  obtain ⟨decl, hdecl⟩ := exists_classAt hc
  refine Outcome.bind_eq_ok.2 ⟨decl, hdecl, ?_⟩
  rw [named, Outcome.ofRow_eq_ok.1 hdecl]
  rfl

/-- One link upwards is one name in the declaration. -/
theorem linksTo_iff_mem_named :
    LinksTo (fun c => do return part (← p.classAt c)) c d ↔ d ∈ p.named part c := by
  rw [mem_named]
  constructor
  · intro h
    obtain ⟨ds, hds, hd⟩ := h
    obtain ⟨decl, hdecl, h⟩ := Outcome.bind_eq_ok.1 hds
    obtain rfl := Outcome.pure_eq_ok.1 h
    exact ⟨decl, Outcome.ofRow_eq_ok.1 hdecl, hd⟩
  · intro h
    obtain ⟨decl, hdecl, hd⟩ := h
    exact ⟨_, Outcome.bind_eq_ok.2 ⟨decl, Outcome.ofRow_eq_ok.2 hdecl, rfl⟩, hd⟩

/-- The list of superclasses holds the superclass, if there is one. -/
theorem mem_superclassesOf :
    d ∈ p.superclassesOf c ↔
      ∃ decl, p.classes.get? c = some decl ∧ decl.superclass = some d := by
  simp only [superclassesOf, mem_named, Option.mem_toList]

/-- The list of interfaces is the one of the declaration. -/
theorem mem_interfacesOf :
    d ∈ p.interfacesOf c ↔ ∃ decl, p.classes.get? c = some decl ∧ d ∈ decl.interfaces :=
  mem_named

/-- The links of the search for classes are the declared superclasses. -/
theorem linksTo_superclassLinks_iff : LinksTo p.superclassLinks c d ↔ d ∈ p.superclassesOf c :=
  linksTo_iff_mem_named

/-- The links of the search for interfaces are the declared interfaces. -/
theorem linksTo_interfaceLinks_iff : LinksTo p.interfaceLinks c d ↔ d ∈ p.interfacesOf c :=
  linksTo_iff_mem_named

end Named

/-- A direct supertype is a superclass or a listed interface. -/
theorem linksTo_supertypeLinks_iff_mem {c d : ClassId} :
    LinksTo p.supertypeLinks c d ↔ d ∈ p.superclassesOf c ∨ d ∈ p.interfacesOf c := by
  rw [linksTo_supertypeLinks_iff, mem_superclassesOf, mem_interfacesOf, ← exists_or]
  exact exists_congr fun _ => and_or_left

/-- Superclasses of superclasses are supertypes. -/
theorem Reaches.of_superclassLinks {c d : ClassId} (h : Reaches p.superclassLinks c d) :
    Reaches p.supertypeLinks c d :=
  Relation.ReflTransGen.mono
    (fun _ _ h => linksTo_supertypeLinks_iff_mem.2 (Or.inl (linksTo_superclassLinks_iff.1 h))) _ _ h

/-- Interfaces above interfaces are supertypes. -/
theorem Reaches.of_interfaceLinks {c d : ClassId} (h : Reaches p.interfaceLinks c d) :
    Reaches p.supertypeLinks c d :=
  Relation.ReflTransGen.mono
    (fun _ _ h => linksTo_supertypeLinks_iff_mem.2 (Or.inr (linksTo_interfaceLinks_iff.1 h))) _ _ h

/-! ## Interfaces among the supertypes -/

/-- A class of the program is an interface. -/
def IsInterface (p : Program) (c : ClassId) : Prop :=
  ∃ decl, p.classes.get? c = some decl ∧ decl.isInterface = true

theorem IsInterface.has {c : ClassId} (h : p.IsInterface c) : p.classes.Has c :=
  h.elim fun _ h => Table.has_of_get? h.1

/-- An interface has no superclass. -/
theorem IsInterface.not_mem_superclassesOf (apart : p.InterfacesApart) {c d : ClassId}
    (h : p.IsInterface c) : d ∉ p.superclassesOf c := by
  intro hd
  obtain ⟨decl, hdecl, hsuper⟩ := mem_superclassesOf.1 hd
  obtain ⟨decl', hdecl', hsort⟩ := h
  obtain rfl := Option.some.inj (hdecl.symm.trans hdecl')
  cases hsuper.symm.trans (apart.noSuperclass c decl hdecl hsort)

section Interfaces

variable (wf : p.WellFormed) (apart : p.InterfacesApart)
include wf apart

/-- What is listed as an interface is one. -/
theorem isInterface_of_mem_interfacesOf {c d : ClassId} (hd : d ∈ p.interfacesOf c) :
    p.IsInterface d := by
  obtain ⟨decl, hdecl, hd⟩ := mem_interfacesOf.1 hd
  obtain ⟨sup, hsup⟩ := Table.exists_get? (wf.interfaces c decl hdecl d hd)
  exact ⟨sup, hsup, apart.interfaces c decl d sup hdecl hd hsup⟩

/-- From an interface no chain of supertypes leads back to a class. -/
theorem isInterface_of_reaches {c d : ClassId} (hc : p.IsInterface c)
    (h : Reaches p.supertypeLinks c d) : p.IsInterface d := by
  induction h with
  | refl => exact hc
  | @tail d e _ hlink ih =>
    rcases linksTo_supertypeLinks_iff_mem.1 hlink with he | he
    · exact absurd he (ih.not_mem_superclassesOf apart)
    · exact isInterface_of_mem_interfacesOf wf apart he

end Interfaces

/-! ## Chains of superclasses -/

/-- The chain of superclasses of a class.  It begins with the class and goes on with the superclass
of each, and it ends at a class without superclass or before it comes back to a class. -/
structure SuperclassChain (p : Program) (c : ClassId) (chain : List ClassId) : Prop where
  first : c ∈ chain
  path : SuperclassPath p (some c) chain
  nodup : chain.Nodup
  closed : ∀ d ∈ chain, ∀ e ∈ p.superclassesOf d, e ∈ chain

/-- The classes on a path are reached from the first one. -/
theorem SuperclassPath.reaches {c : Option ClassId} {cs : List ClassId}
    (h : SuperclassPath p c cs) {d : ClassId} (hd : d ∈ cs) :
    ∃ e, c = some e ∧ Reaches p.superclassLinks e d := by
  induction h with
  | stop => cases hd
  | @step c decl cs hc _ ih =>
    refine ⟨c, rfl, ?_⟩
    rcases List.mem_cons.1 hd with rfl | hd
    · exact .refl
    · obtain ⟨e, he, hreach⟩ := ih hd
      exact .head (linksTo_superclassLinks_iff.2 (mem_superclassesOf.2 ⟨decl, hc, he⟩)) hreach

/-- On a path each class reaches those after it. -/
theorem SuperclassPath.reaches_of_append {c : Option ClassId} {d e : ClassId}
    {before after : List ClassId} (h : SuperclassPath p c (before ++ d :: after))
    (he : e ∈ after) : Reaches p.superclassLinks d e := by
  induction before generalizing c with
  | nil =>
    obtain ⟨d', hd', hreach⟩ := h.reaches (List.mem_cons_of_mem d he)
    cases h with
    | step => exact Option.some.inj hd' ▸ hreach
  | cons b before ih =>
    cases h with
    | step _ h => exact ih h

/-- Everything on a chain is a superclass of its first class. -/
theorem SuperclassChain.reaches {c d : ClassId} {chain : List ClassId}
    (h : SuperclassChain p c chain) (hd : d ∈ chain) : Reaches p.superclassLinks c d := by
  obtain ⟨c', hc', hreach⟩ := h.path.reaches hd
  rwa [Option.some.inj hc']

/-- Above a class there are no interfaces on the chain. -/
theorem SuperclassChain.eq_of_isInterface (apart : p.InterfacesApart) {c d : ClassId}
    {chain : List ClassId} (h : SuperclassChain p c chain) (hd : d ∈ chain)
    (hsort : p.IsInterface d) : d = c := by
  obtain ⟨sup, hsup, hsort⟩ := hsort
  rcases Relation.ReflTransGen.cases_tail (h.reaches hd) with rfl | ⟨e, -, hlink⟩
  · rfl
  · obtain ⟨decl, hdecl, hsuper⟩ := mem_superclassesOf.1 (linksTo_superclassLinks_iff.1 hlink)
    cases hsort.symm.trans (apart.superclass e decl d sup hdecl hsuper hsup)

/-! ## The order of the search -/

/-- The order in which the supertypes of a class are searched: the chain of superclasses, then the
interfaces above it, breadth-first from those that the classes of the chain list.  Both searches come
to their ends, only interfaces are met above the chain, and together all supertypes are met. -/
structure SearchOrder (p : Program) (c : ClassId) (chain interfaces : List ClassId) : Prop where
  isChain : p.SuperclassChain c chain
  superclasses : Search p.superclassesOf [c] [] chain
  above : Search p.interfacesOf (chain.flatMap p.interfacesOf) chain interfaces
  isInterface : ∀ d ∈ interfaces, p.IsInterface d
  supertypes : ∀ d, d ∈ chain ++ interfaces ↔ p.isSubtype c d = .ok true

section Order

variable {c : ClassId} {chain interfaces : List ClassId}

variable (wf : p.WellFormed)
include wf

/-- The walk along superclasses computes the chain. -/
theorem superclassChain_of_eq_ok (hc : p.classes.Has c) (h : p.superclassChain c = .ok chain) :
    p.SuperclassChain c chain := by
  obtain ⟨hvisits, hleaves⟩ := closed_walk wf.leads_superclassLinks h (by simpa using hc)
    List.nodup_nil (by simp) (by simp) (by simp)
  rw [List.nil_append] at hvisits hleaves
  exact
    { first := hvisits c (List.mem_singleton_self c)
      path := superclassPath_of_walk (c := some c) h
      nodup := (nodup_walk h).1
      closed := fun d hd e he => hleaves d hd e (linksTo_superclassLinks_iff.2 he) }

section Above

variable (apart : p.InterfacesApart) (h : walk p.interfaceLinks p.classes.size
  (chain.flatMap p.interfacesOf) chain = .ok interfaces)
include apart

/-- What the classes of a chain list are interfaces. -/
theorem isInterface_of_listed {d : ClassId} (hd : d ∈ chain.flatMap p.interfacesOf) :
    p.IsInterface d := by
  obtain ⟨b, -, hd⟩ := List.mem_flatMap.1 hd
  exact isInterface_of_mem_interfacesOf wf apart hd

include h

/-- What is met above a chain is an interface. -/
theorem isInterface_of_mem_walk {d : ClassId} (hd : d ∈ interfaces) : p.IsInterface d := by
  obtain ⟨b, hb, hreach⟩ := exists_reaches_of_mem_walk h hd
  exact isInterface_of_reaches wf apart (isInterface_of_listed wf apart hb) hreach.of_interfaceLinks

/-- The chain and the interfaces above it are all that a class reaches upwards. -/
theorem mem_chain_append_iff (hchain : p.SuperclassChain c chain)
    (hhas : ∀ d ∈ chain, p.classes.Has d) {d : ClassId} :
    d ∈ chain ++ interfaces ↔ Reaches p.supertypeLinks c d := by
  constructor
  · intro hd
    rcases List.mem_append.1 hd with hd | hd
    · exact (hchain.reaches hd).of_superclassLinks
    · obtain ⟨e, he, hreach⟩ := exists_reaches_of_mem_walk h hd
      obtain ⟨b, hb, he⟩ := List.mem_flatMap.1 he
      exact ((hchain.reaches hb).of_superclassLinks.tail
        (linksTo_supertypeLinks_iff_mem.2 (Or.inr he))).trans hreach.of_interfaceLinks
  · intro hreach
    -- no link of an interface is left out, neither below nor above the chain's end
    obtain ⟨-, hleaves⟩ := closed_walk wf.leads_interfaceLinks h
      (fun d hd => (isInterface_of_listed wf apart hd).has) hchain.nodup hhas (by omega)
      fun e he d hd => Or.inr (List.mem_flatMap.2 ⟨e, he, linksTo_interfaceLinks_iff.1 hd⟩)
    -- one link after the other
    induction hreach with
    | refl => exact List.mem_append_left _ hchain.first
    | @tail d e _ hlink ih =>
      rcases linksTo_supertypeLinks_iff_mem.1 hlink with he | he
      · rcases List.mem_append.1 ih with hd | hd
        · exact List.mem_append_left _ (hchain.closed d hd e he)
        · -- an interface has no superclass
          exact absurd he ((isInterface_of_mem_walk wf apart h hd).not_mem_superclassesOf apart)
      · exact hleaves d ih e (linksTo_interfaceLinks_iff.2 he)

end Above

/-- Every class of a program has such an order, and the chain and the interfaces above it are found
in this order. -/
theorem exists_searchOrder (hc : p.classes.Has c) (apart : p.InterfacesApart) :
    ∃ chain interfaces, p.superclassChain c = .ok chain ∧
      p.interfacesAbove chain = .ok interfaces ∧ p.SearchOrder c chain interfaces := by
  obtain ⟨chain, hchain, hhas⟩ := wf.exists_superclassChain hc
  obtain ⟨interfaces, hinterfaces⟩ := wf.exists_interfacesAbove hhas
  -- the search above the chain begins with what its classes list
  have hlisted : chain.mapM p.interfaceLinks = .ok (chain.map p.interfacesOf) :=
    Outcome.mapM_eq_ok_map fun d hd => links_eq_named (hhas d hd)
  have hwalk : walk p.interfaceLinks p.classes.size (chain.flatMap p.interfacesOf) chain =
      .ok interfaces := by
    rw [interfacesAbove, hlisted] at hinterfaces
    exact hinterfaces
  have hchain' := superclassChain_of_eq_ok wf hc hchain
  refine ⟨chain, interfaces, hchain, hinterfaces, ?_⟩
  exact
    { isChain := hchain'
      superclasses := search_of_fresh_walk wf.leads_superclassLinks (fun _ => links_eq_named) hchain
        (by simpa using hc)
      above := search_of_walk wf.leads_interfaceLinks (fun _ => links_eq_named) hwalk
        (fun d hd => (isInterface_of_listed wf apart hd).has) hchain'.nodup hhas (by omega)
      isInterface := fun d => isInterface_of_mem_walk wf apart hwalk
      supertypes := fun d => by
        rw [isSubtype_iff wf hc, mem_chain_append_iff wf apart hwalk hchain' hhas] }

end Order

section Found

variable {c : ClassId} {chain interfaces : List ClassId} (h : p.SearchOrder c chain interfaces)
variable {α : Type} {g : ClassId → Option α}
include h

/-- Nothing is found exactly if no supertype has an answer. -/
theorem SearchOrder.findSome?_eq_none_iff :
    (chain ++ interfaces).findSome? g = none ↔ ∀ d, p.isSubtype c d = .ok true → g d = none := by
  rw [List.findSome?_eq_none_iff]
  exact forall_congr' fun d => by rw [h.supertypes]

/-- Something is found exactly if some supertype has an answer. -/
theorem SearchOrder.exists_findSome?_iff :
    (∃ m, (chain ++ interfaces).findSome? g = some m) ↔
      ∃ d m, p.isSubtype c d = .ok true ∧ g d = some m := by
  rw [← Option.isSome_iff_exists, List.isSome_findSome?, List.any_eq_true]
  simp only [h.supertypes, Option.isSome_iff_exists, exists_and_left]

/-- If nothing is found on the chain, what is found above it is what is first in layers. -/
theorem SearchOrder.findSome?_above_iff (hchain : chain.findSome? g = none) {m : α} :
    (chain ++ interfaces).findSome? g = some m ↔
      FirstAnswer p.interfacesOf (chain.flatMap p.interfacesOf) g m := by
  have hunderway : Underway p.interfacesOf g (chain.flatMap p.interfacesOf) chain interfaces :=
    { search := h.above
      followed := fun c hc d hd => Or.inr (List.mem_flatMap.2 ⟨c, hc, hd⟩)
      unfound := List.findSome?_eq_none_iff.1 hchain }
  rw [List.findSome?_append, hchain, Option.none_or]
  exact hunderway.findSome?_iff

end Found

end PointerAnalysis.Program
