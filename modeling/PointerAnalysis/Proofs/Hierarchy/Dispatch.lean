import PointerAnalysis.Proofs.Hierarchy.SearchOrder

/-!
# Dispatch searches the supertypes in order

Dispatch takes the first concrete declaration among the supertypes of a class, or else the first
abstract one: first on the chain of superclasses, then in the interfaces above it, in breadth-first
order.

A method that is found on the chain is overridden by no supertype of the class.  Above the chain this
can happen: in breadth-first order an interface may come before one that extends it, and a class that
lists both then gets the default method of the first, although the second overrides it.

## Main definitions

- `Program.firstOf`: the first declaration among some classes.
- `Program.SearchAnswer`: what is found among the supertypes of a class.

## Main statements

- `dispatch_searches_supertypes`: dispatch answers with what is found first.
- `dispatch_overridden`: if dispatch selects an overridden method, it is found above the chain, and
  the interface that overrides it comes later in breadth-first order.
- `siblingDefaults_dispatch`: a program where this happens.
-/

namespace PointerAnalysis.Program

variable {p : Program}

/-! ## The first declaration of a method -/

theorem concreteMethod?_eq_some {c : ClassId} {s : Subsignature} {m : MethodId} :
    p.concreteMethod? c s = some m ↔ p.declaredMethod? c s = some m ∧ p.isConcrete m = true :=
  Option.filter_eq_some_iff

section FirstOf

variable {cs : List ClassId} {s : Subsignature} {m : MethodId}

/-- The first concrete declaration of some classes, or else the first declaration. -/
def firstOf (p : Program) (s : Subsignature) (cs : List ClassId) : Option MethodId :=
  (cs.findSome? (p.concreteMethod? · s)).or (cs.findSome? (p.declaredMethod? · s))

theorem firstOf_eq_none_iff :
    p.firstOf s cs = none ↔ ∀ c ∈ cs, p.declaredMethod? c s = none := by
  rw [firstOf, Option.or_eq_none_iff, List.findSome?_eq_none_iff, List.findSome?_eq_none_iff]
  refine and_iff_right_of_imp fun h c hc => ?_
  rw [concreteMethod?, h c hc]
  rfl

/-- What is found is concrete exactly if it is the first concrete declaration. -/
theorem firstOf_concrete_iff :
    p.firstOf s cs = some m ∧ p.isConcrete m = true ↔
      cs.findSome? (p.concreteMethod? · s) = some m := by
  rw [firstOf, Option.or_eq_some_iff]
  constructor
  · intro h
    obtain ⟨hm | ⟨hnone, hm⟩, hconcrete⟩ := h
    · exact hm
    · obtain ⟨c, hc, hm⟩ := List.exists_of_findSome?_eq_some hm
      cases (List.findSome?_eq_none_iff.1 hnone c hc).symm.trans
        (concreteMethod?_eq_some.2 ⟨hm, hconcrete⟩)
  · intro hm
    obtain ⟨c, -, hc⟩ := List.exists_of_findSome?_eq_some hm
    exact ⟨Or.inl hm, (concreteMethod?_eq_some.1 hc).2⟩

/-- What is found is abstract only if it is the first declaration. -/
theorem findSome?_of_firstOf (h : p.firstOf s cs = some m) (habstract : p.isConcrete m = false) :
    cs.findSome? (p.declaredMethod? · s) = some m := by
  rcases Option.or_eq_some_iff.1 h with hm | ⟨-, hm⟩
  · cases habstract.symm.trans (firstOf_concrete_iff.2 hm).2
  · exact hm

end FirstOf

/-! ## What is found -/

/-- What dispatch answers if `chain` is the chain of superclasses of `c`: nothing if no supertype
declares the method, and something concrete if one declares that.  A class of the chain goes before
all interfaces, and among classes and among interfaces the first one is taken. -/
structure SearchAnswer (p : Program) (c : ClassId) (s : Subsignature) (chain : List ClassId)
    (answer : Option MethodId) : Prop where
  none_iff : answer = none ↔ ∀ d, p.isSubtype c d = .ok true → p.declaredMethod? d s = none
  concrete_iff : (∃ m, answer = some m ∧ p.isConcrete m = true) ↔
    ∃ d m, p.isSubtype c d = .ok true ∧ p.declaredMethod? d s = some m ∧ p.isConcrete m = true
  ofChain : ∀ m, chain.findSome? (p.concreteMethod? · s) = some m → answer = some m
  ofInterfaces : chain.findSome? (p.concreteMethod? · s) = none → ∀ m,
    (answer = some m ∧ p.isConcrete m = true) ↔
      FirstAnswer p.interfacesOf (chain.flatMap p.interfacesOf) (p.concreteMethod? · s) m
  ofAbstract : ∀ m, answer = some m → p.isConcrete m = false →
    chain.findSome? (p.declaredMethod? · s) = some m ∨
      chain.findSome? (p.declaredMethod? · s) = none ∧
        FirstAnswer p.interfacesOf (chain.flatMap p.interfacesOf) (p.declaredMethod? · s) m

/-- The first of all supertypes in the order of the search answers as described. -/
theorem SearchOrder.searchAnswer {c : ClassId} {chain interfaces : List ClassId}
    (h : p.SearchOrder c chain interfaces) (s : Subsignature) :
    p.SearchAnswer c s chain (p.firstOf s (chain ++ interfaces)) where
  none_iff := by
    rw [firstOf_eq_none_iff]
    exact forall_congr' fun d => by rw [h.supertypes]
  concrete_iff := by
    simp only [firstOf_concrete_iff, h.exists_findSome?_iff, concreteMethod?_eq_some]
  ofChain := by
    intro m hm
    refine (firstOf_concrete_iff.2 ?_).1
    rw [List.findSome?_append, hm, Option.some_or]
  ofInterfaces := by
    intro hnone m
    rw [firstOf_concrete_iff, h.findSome?_above_iff hnone]
  ofAbstract := by
    intro m hm habstract
    have hm := findSome?_of_firstOf hm habstract
    cases hchain : chain.findSome? (p.declaredMethod? · s) with
    | some m' =>
      rw [List.findSome?_append, hchain, Option.some_or] at hm
      exact Or.inl hm
    | none => exact Or.inr ⟨rfl, (h.findSome?_above_iff hchain).1 hm⟩

/-- Dispatch answers with the first declaration in the order of the search. -/
theorem exists_dispatch_eq_firstOf (hp : p.Built) {c : ClassId} (hc : p.classes.Has c) :
    ∃ chain interfaces, p.SearchOrder c chain interfaces ∧
      ∀ s, p.dispatch c s = .ok (p.firstOf s (chain ++ interfaces)) := by
  obtain ⟨chain, interfaces, hchain, hinterfaces, horder⟩ :=
    exists_searchOrder hp.wellFormed hc hp.interfacesApart
  exact ⟨chain, interfaces, horder, fun s =>
    Outcome.bind_eq_ok.2 ⟨chain, hchain, Outcome.bind_eq_ok.2 ⟨interfaces, hinterfaces, rfl⟩⟩⟩

/-- Dispatch on a class of a built program searches its supertypes in order, and answers with what is
found first. -/
theorem dispatch_searches_supertypes (hp : p.Built) {c : ClassId} (hc : p.classes.Has c)
    (s : Subsignature) :
    ∃ chain interfaces answer, p.SearchOrder c chain interfaces ∧ p.dispatch c s = .ok answer ∧
      p.SearchAnswer c s chain answer := by
  obtain ⟨chain, interfaces, horder, hdispatch⟩ := exists_dispatch_eq_firstOf hp hc
  exact ⟨chain, interfaces, _, horder, hdispatch s, horder.searchAnswer s⟩

/-- A program whose hierarchy has a cycle of classes and one of interfaces.  The method that `File`
calls is declared by an interface that its superclass implements indirectly. -/
def cyclicSteps : List Draft.Step :=
  [.declareInterface "Reader" [⟨1⟩],
    .declareInterface "Source" [⟨0⟩],
    .declareClass "File" (some ⟨3⟩),
    .declareClass "Node" (some ⟨2⟩),
    .implement ⟨3⟩ ⟨0⟩,
    .declareMethod ⟨1⟩ ⟨"void read()"⟩ .member,
    .declareMethod ⟨2⟩ ⟨"void main()"⟩ .static,
    .setEntry ⟨1⟩]

/-- The program that these steps build. -/
def cyclicProgram : Program where
  classes := ⟨#[
    { name := "Reader", interfaces := [⟨1⟩], isInterface := true, isAbstract := true },
    { name := "Source", interfaces := [⟨0⟩], isInterface := true, isAbstract := true },
    { name := "File", superclass := some ⟨3⟩ },
    { name := "Node", superclass := some ⟨2⟩, interfaces := [⟨0⟩] }]⟩
  methods := ⟨#[
    { subsignature := ⟨"void read()"⟩, owner := ⟨1⟩, body := some { self := some ⟨0⟩ } },
    { subsignature := ⟨"void main()"⟩, owner := ⟨2⟩, isStatic := true, body := some {} }]⟩
  fields := {}
  vars := ⟨#[{ name := "this", method := ⟨0⟩ }]⟩
  stmts := {}
  dereferences := ⟨#[{}]⟩
  entry := ⟨1⟩
  root := none

/-- In a hierarchy with cycles the search ends as well, and it finds the method beyond them. -/
theorem cyclicProgram_searches :
    cyclicProgram.Built ∧ cyclicProgram.classes.Has ⟨2⟩ ∧
      ∃ chain interfaces, cyclicProgram.SearchOrder ⟨2⟩ chain interfaces ∧
        cyclicProgram.SearchAnswer ⟨2⟩ ⟨"void read()"⟩ chain (some ⟨0⟩) := by
  have hbuilt : cyclicProgram.Built := ⟨cyclicSteps, by decide +kernel⟩
  have hc : cyclicProgram.classes.Has ⟨2⟩ := by decide
  obtain ⟨chain, interfaces, answer, horder, hdispatch, hanswer⟩ :=
    dispatch_searches_supertypes hbuilt hc ⟨"void read()"⟩
  have hread : cyclicProgram.dispatch ⟨2⟩ ⟨"void read()"⟩ = .ok (some ⟨0⟩) := by decide +kernel
  obtain rfl := Except.ok.inj (hread.symm.trans hdispatch)
  exact ⟨hbuilt, hc, chain, interfaces, horder, hanswer⟩

/-! ## Overridden methods -/

theorem owner_of_concreteMethod? {c : ClassId} {s : Subsignature} {m : MethodId}
    (h : p.concreteMethod? c s = some m) : ∃ decl, p.methods.get? m = some decl ∧ decl.owner = c := by
  obtain ⟨decl, hdecl, h⟩ := Table.get?_find? (concreteMethod?_eq_some.1 h).1
  simp only [Bool.and_eq_true, decide_eq_true_eq] at h
  exact ⟨decl, hdecl, h.1⟩

section Overridden

variable {c d e : ClassId} {s : Subsignature} {m m' : MethodId} {chain interfaces : List ClassId}

/-- Nothing that is found on the chain is overridden by a supertype of `c`: if one below the class `d`
of the method declares it as well, then `d` is also below that one.  On the chain a class comes after
those that extend it, and of the interfaces above it none extends a class. -/
theorem SearchOrder.isSubtype_of_found (wf : p.WellFormed) (apart : p.InterfacesApart)
    (hc : p.classes.Has c) (h : p.SearchOrder c chain interfaces)
    (hm : chain.findSome? (p.concreteMethod? · s) = some m) (hd : p.concreteMethod? d s = some m)
    (he : p.isSubtype c e = .ok true) (hed : p.isSubtype e d = .ok true)
    (hm' : p.concreteMethod? e s = some m') : p.isSubtype d e = .ok true := by
  obtain ⟨before, d', after, hchain, hd', hbefore⟩ := List.findSome?_eq_some_iff.1 hm
  -- the method is found at the class that declares it
  obtain rfl : d' = d := by
    obtain ⟨decl, hdecl, hd⟩ := owner_of_concreteMethod? hd
    obtain ⟨decl', hdecl', hd'⟩ := owner_of_concreteMethod? hd'
    obtain rfl := Option.some.inj (hdecl.symm.trans hdecl')
    exact hd'.symm.trans hd
  have hmem : d' ∈ chain := hchain ▸ List.mem_append_right _ (List.mem_cons_self ..)
  have hhas : p.classes.Has d' :=
    wf.has_of_reaches hc (h.isChain.reaches hmem).of_superclassLinks
  rcases List.mem_append.1 ((h.supertypes e).2 he) with hmem' | hmem'
  · rw [hchain] at hmem'
    rcases List.mem_append.1 hmem' with hmem' | hmem'
    · -- before `d` nothing is found
      cases hm'.symm.trans (hbefore e hmem')
    · rw [isSubtype_iff wf hhas]
      rcases List.mem_cons.1 hmem' with rfl | hmem'
      · exact .refl
      · exact ((hchain ▸ h.isChain.path).reaches_of_append hmem').of_superclassLinks
  · -- from an interface only interfaces are reached, and the chain has none but the class itself
    have hsort := h.isInterface e hmem'
    have hsort' := isInterface_of_reaches wf apart hsort ((isSubtype_iff wf hsort.has).1 hed)
    rwa [h.isChain.eq_of_isInterface apart hmem hsort']

end Overridden

/-- If dispatch selects a method of `d` although a proper subtype `e` of `d` overrides it, then both
stand above the chain of superclasses, and `d` comes before `e` in breadth-first order. -/
theorem dispatch_overridden (hp : p.Built) {c : ClassId} (hc : p.classes.Has c) {s : Subsignature}
    {m : MethodId} (h : p.dispatch c s = .ok (some m)) (hm : p.isConcrete m = true) :
    ∃ decl chain, p.methods.get? m = some decl ∧ p.SuperclassChain c chain ∧
      ∀ e m', p.isSubtype c e = .ok true → p.isSubtype e decl.owner = .ok true →
        p.isSubtype decl.owner e = .ok false → p.concreteMethod? e s = some m' →
        decl.owner ∉ chain ∧ e ∉ chain ∧
          Precedes p.interfacesOf (chain.flatMap p.interfacesOf) decl.owner e := by
  have wf := hp.wellFormed
  have apart := hp.interfacesApart
  obtain ⟨chain, interfaces, horder, hdispatch⟩ := exists_dispatch_eq_firstOf hp hc
  have hfirst : p.firstOf s (chain ++ interfaces) = some m :=
    Except.ok.inj ((hdispatch s).symm.trans h)
  have hfound := firstOf_concrete_iff.1 ⟨hfirst, hm⟩
  cases hchain : chain.findSome? (p.concreteMethod? · s) with
  | some m₀ =>
    -- what is found on the chain is not overridden at all
    rw [List.findSome?_append, hchain, Option.some_or] at hfound
    obtain rfl := Option.some.inj hfound
    obtain ⟨d, -, hd⟩ := List.exists_of_findSome?_eq_some hchain
    obtain ⟨decl, hdecl, rfl⟩ := owner_of_concreteMethod? hd
    refine ⟨decl, chain, hdecl, horder.isChain, fun e m' he hed hde hm' => ?_⟩
    cases hde.symm.trans (horder.isSubtype_of_found wf apart hc hchain hd he hed hm')
  | none =>
    obtain ⟨d, hd, hprecedes⟩ := ((horder.findSome?_above_iff hchain).1 hfound).exists_precedes
    obtain ⟨decl, hdecl, rfl⟩ := owner_of_concreteMethod? hd
    -- both declare the method, and no class of the chain does
    have hnone := List.findSome?_eq_none_iff.1 hchain
    refine ⟨decl, chain, hdecl, horder.isChain, fun e m' _ _ _ hm' => ⟨?_, ?_, ?_⟩⟩
    · exact fun hmem => nomatch hd.symm.trans (hnone _ hmem)
    · exact fun hmem => nomatch hm'.symm.trans (hnone _ hmem)
    · exact hprecedes e (by rw [hm']; exact Option.some_ne_none m')

/-- A class implements two interfaces with a default method each, of which the second extends the
first and overrides its method. -/
def siblingDefaultsSteps : List Draft.Step :=
  [.declareInterface "I" [],
    .declareInterface "J" [⟨0⟩],
    .declareClass "C" none,
    .implement ⟨2⟩ ⟨0⟩,
    .implement ⟨2⟩ ⟨1⟩,
    .declareMethod ⟨0⟩ ⟨"void m()"⟩ .member,
    .declareMethod ⟨1⟩ ⟨"void m()"⟩ .member,
    .declareMethod ⟨2⟩ ⟨"void main()"⟩ .static,
    .setEntry ⟨2⟩]

/-- The program that these steps build. -/
def siblingDefaults : Program where
  classes := ⟨#[
    { name := "I", isInterface := true, isAbstract := true },
    { name := "J", interfaces := [⟨0⟩], isInterface := true, isAbstract := true },
    { name := "C", interfaces := [⟨0⟩, ⟨1⟩] }]⟩
  methods := ⟨#[
    { subsignature := ⟨"void m()"⟩, owner := ⟨0⟩, body := some { self := some ⟨0⟩ } },
    { subsignature := ⟨"void m()"⟩, owner := ⟨1⟩, body := some { self := some ⟨1⟩ } },
    { subsignature := ⟨"void main()"⟩, owner := ⟨2⟩, isStatic := true, body := some {} }]⟩
  fields := {}
  vars := ⟨#[{ name := "this", method := ⟨0⟩ }, { name := "this", method := ⟨1⟩ }]⟩
  stmts := {}
  dereferences := ⟨#[{}, {}]⟩
  entry := ⟨2⟩
  root := none

theorem siblingDefaults_built : siblingDefaults.Built := ⟨siblingDefaultsSteps, by decide +kernel⟩

/-- Dispatch selects the method of `I`, although `J` overrides it. -/
theorem siblingDefaults_dispatch :
    siblingDefaults.Built ∧
      siblingDefaults.dispatch ⟨2⟩ ⟨"void m()"⟩ = .ok (some ⟨0⟩) ∧
      siblingDefaults.concreteMethod? ⟨0⟩ ⟨"void m()"⟩ = some ⟨0⟩ ∧
      siblingDefaults.isSubtype ⟨2⟩ ⟨1⟩ = .ok true ∧
      siblingDefaults.isSubtype ⟨1⟩ ⟨0⟩ = .ok true ∧
      siblingDefaults.isSubtype ⟨0⟩ ⟨1⟩ = .ok false ∧
      siblingDefaults.concreteMethod? ⟨1⟩ ⟨"void m()"⟩ = some ⟨1⟩ :=
  ⟨siblingDefaults_built, by decide +kernel⟩

/-- Both interfaces stand above the chain, and `I` comes first. -/
theorem siblingDefaults_precedes :
    ∃ chain, siblingDefaults.SuperclassChain ⟨2⟩ chain ∧ ⟨0⟩ ∉ chain ∧ ⟨1⟩ ∉ chain ∧
      Precedes siblingDefaults.interfacesOf (chain.flatMap siblingDefaults.interfacesOf) ⟨0⟩ ⟨1⟩ := by
  have hm : siblingDefaults.dispatch ⟨2⟩ ⟨"void m()"⟩ = .ok (some ⟨0⟩) := by decide +kernel
  obtain ⟨decl, chain, hdecl, hchain, hoverridden⟩ :=
    dispatch_overridden siblingDefaults_built (by decide) hm (by decide)
  obtain rfl := Option.some.inj hdecl
  exact ⟨chain, hchain, hoverridden ⟨1⟩ ⟨1⟩ (by decide +kernel) (by decide +kernel)
    (by decide +kernel) (by decide +kernel)⟩

end PointerAnalysis.Program
