import Mathlib.Order.Lattice.Nat
import PointerAnalysis.Proofs.Hierarchy.BreadthFirst
import PointerAnalysis.Proofs.Program.Build

/-!
# Subtyping upwards and downwards

Whether a class is a subtype of another one is found out from below: the search climbs from a class
to its superclass and to the interfaces that it lists.  All subtypes of a class are found from above:
the search descends to the classes that name it, through lists of subclasses, of subinterfaces and of
implementing classes.  The two searches follow the same links in opposite directions, and each comes
to its end, so they agree, also where the hierarchy has cycles.

Since classes are met breadth-first on the way down, those that are nearer come first.

## Main definitions

- `Program.DirectSupertype`: the declaration of a class names another one above it.
- `Program.Ascent`: a number of direct supertypes lead from one class to another.
- `Program.distance`: the least such number.
- `Program.SubtypeOrder`: what is to be said of a list of all subtypes.

## Main statements

- `mem_layer_subtypeLinks_iff`: on the way down, a layer holds the classes of one ascent length.
- `subtypeOrder_of_eq_ok`: subtypes are listed once, and nearer ones first.
- `isSubtype_dual_subtypes`: the search from below and the search from above agree.
-/

namespace PointerAnalysis.Program

variable {p : Program}

/-! ## Direct supertypes -/

/-- `d` is the superclass of `c` or one of the interfaces that `c` lists. -/
def DirectSupertype (p : Program) (c d : ClassId) : Prop :=
  ∃ decl, p.classes.get? c = some decl ∧ (decl.superclass = some d ∨ d ∈ decl.interfaces)

/-- `n` direct supertypes, one after the other, lead from one class to another. -/
inductive Ascent (p : Program) : (n : Nat) → ClassId → ClassId → Prop where
  | refl (c : ClassId) : Ascent p 0 c c
  | tail {n : Nat} {c d e : ClassId} (h : Ascent p n c d) (hde : p.DirectSupertype d e) :
      Ascent p (n + 1) c e

/-- The distance of a class from a supertype: the least number of direct supertypes that lead to
it. -/
noncomputable def distance (p : Program) (c d : ClassId) : Nat := sInf {n | p.Ascent n c d}

theorem directSupertype_eq_linksTo : p.DirectSupertype = LinksTo p.supertypeLinks := by
  funext c d
  exact propext linksTo_supertypeLinks_iff.symm

theorem exists_ascent_iff {c d : ClassId} :
    (∃ n, p.Ascent n c d) ↔ Relation.ReflTransGen p.DirectSupertype c d := by
  constructor
  · intro h
    obtain ⟨n, h⟩ := h
    induction h with
    | refl => exact .refl
    | tail _ hde ih => exact ih.tail hde
  · intro h
    induction h with
    | refl => exact ⟨0, .refl c⟩
    | tail _ hde ih => exact ih.imp' Nat.succ fun _ h => h.tail hde

theorem ascent_zero_iff {c d : ClassId} : p.Ascent 0 c d ↔ c = d := by
  constructor
  · intro h
    cases h with
    | refl => rfl
  · exact fun h => h ▸ .refl c

theorem ascent_succ_iff {n : Nat} {c e : ClassId} :
    p.Ascent (n + 1) c e ↔ ∃ d, p.Ascent n c d ∧ p.DirectSupertype d e := by
  constructor
  · intro h
    cases h with
    | tail h hde => exact ⟨_, h, hde⟩
  · exact fun h => h.elim fun _ h => .tail h.1 h.2

/-- If one class is above another, the distance is the length of some ascent. -/
theorem ascent_distance {c d : ClassId} (h : Relation.ReflTransGen p.DirectSupertype c d) :
    p.Ascent (p.distance c d) c d :=
  Nat.sInf_mem (exists_ascent_iff.2 h)

theorem Ascent.distance_le {n : Nat} {c d : ClassId} (h : p.Ascent n c d) : p.distance c d ≤ n :=
  Nat.sInf_le h

/-! ## Walks without a bound -/

/-- The classes that links lead to; none, where the links fail. -/
def linkedBy (links : ClassId → Outcome (List ClassId)) (c : ClassId) : List ClassId :=
  (links c).toOption.getD []

section Linked

variable {links : ClassId → Outcome (List ClassId)} {c d : ClassId}

theorem mem_linkedBy : d ∈ linkedBy links c ↔ LinksTo links c d := by
  unfold linkedBy LinksTo
  cases links c with
  | ok ds => simp [Except.toOption]
  | error e => simp [Except.toOption]

/-- A walk from a class, with room for all classes, is a search without a bound. -/
theorem search_linkedBy (hl : p.Leads links) (hc : p.classes.Has c) {cs : List ClassId}
    (h : walk links p.classes.size [c] [] = .ok cs) : Search (linkedBy links) [c] [] cs := by
  refine search_of_fresh_walk hl (fun d hd => ?_) h (by simpa using hc)
  obtain ⟨ds, hds, -⟩ := hl d hd
  rw [linkedBy, hds]
  rfl

end Linked

/-! ## The order of subtypes -/

/-- All subtypes of a class in a list: the class itself first, no class twice, and none before one
that is nearer. -/
structure SubtypeOrder (p : Program) (b : ClassId) (below : List ClassId) : Prop where
  first : below.head? = some b
  nodup : below.Nodup
  mem_iff : ∀ a, a ∈ below ↔ Relation.ReflTransGen p.DirectSupertype a b
  byDistance : below.Pairwise fun c d => p.distance c b ≤ p.distance d b

section Order

variable (wf : p.WellFormed)
include wf

/-- On the way down links lead to the classes that are directly below. -/
theorem mem_linkedBy_subtypeLinks {c d : ClassId} :
    d ∈ linkedBy p.subtypeLinks c ↔ p.DirectSupertype d c := by
  rw [mem_linkedBy, directSupertype_eq_linksTo]
  constructor
  · intro h
    obtain ⟨ds, hds, -⟩ := id h
    exact (linksTo_subtypeLinks_iff (has_of_subtypeLinks hds)).1 h
  · intro h
    have hc : p.classes.Has c := wf.has_of_reaches (has_of_supertypeLinks h) (.single h)
    exact (linksTo_subtypeLinks_iff hc).2 h

/-- A layer on the way down holds the classes from which ascents of one length lead up. -/
theorem mem_layer_subtypeLinks_iff {start : List ClassId} {n : Nat} {c : ClassId} :
    c ∈ layer (linkedBy p.subtypeLinks) start n ↔ ∃ b ∈ start, p.Ascent n c b := by
  induction n generalizing start with
  | zero => simp [ascent_zero_iff]
  | succ n ih =>
    simp only [layer_succ, ih, ascent_succ_iff, List.mem_flatMap, mem_linkedBy_subtypeLinks wf]
    constructor
    · intro h
      obtain ⟨d, ⟨b, hb, hdb⟩, hcd⟩ := h
      exact ⟨b, hb, d, hcd, hdb⟩
    · intro h
      obtain ⟨b, hb, d, hcd, hdb⟩ := h
      exact ⟨d, ⟨b, hb, hdb⟩, hcd⟩

/-- Of two classes on the way down, the one that is met first is no farther away. -/
theorem Precedes.distance_le {b c d : ClassId}
    (h : Precedes (linkedBy p.subtypeLinks) [b] c d)
    (hd : Relation.ReflTransGen p.DirectSupertype d b) : p.distance c b ≤ p.distance d b := by
  obtain ⟨n, before, after, hlayer, -, hfirst⟩ := h
  have hmem : c ∈ layer (linkedBy p.subtypeLinks) [b] n :=
    hlayer ▸ List.mem_append_right _ (List.mem_cons_self ..)
  obtain ⟨b', hb', hascent⟩ := (mem_layer_subtypeLinks_iff wf).1 hmem
  obtain rfl := List.mem_singleton.1 hb'
  -- `d` is in the layer of its distance, and in none before the `n`-th
  refine hascent.distance_le.trans (Nat.le_of_not_lt fun hlt => hfirst _ hlt ?_)
  exact (mem_layer_subtypeLinks_iff wf).2 ⟨b', List.mem_singleton_self b', ascent_distance hd⟩

/-- The search from above lists all subtypes in this order. -/
theorem subtypeOrder_of_eq_ok {b : ClassId} (hb : p.classes.Has b) {below : List ClassId}
    (h : p.subtypes b = .ok below) : p.SubtypeOrder b below := by
  have hsearch := search_linkedBy leads_subtypeLinks hb h
  have hnodup := (nodup_walk h).1
  -- links downwards and links upwards connect the same classes
  have hmem : ∀ a, a ∈ below ↔ Relation.ReflTransGen p.DirectSupertype a b := by
    intro a
    rw [directSupertype_eq_linksTo]
    constructor
    · intro ha
      exact (reaches_subtypeLinks_iff wf hb (has_of_mem_subtypes h ha)).1
        ((mem_walk_iff leads_subtypeLinks hb h).1 ha)
    · intro hreach
      exact (mem_walk_iff leads_subtypeLinks hb h).2
        ((reaches_subtypeLinks_iff wf hb (has_of_reaches_has hb hreach)).2 hreach)
  exact
    { first := hsearch.head?_eq
      nodup := hnodup
      mem_iff := hmem
      byDistance := (hsearch.pairwise_precedes hnodup).imp_of_mem fun _ hd hcd =>
        Precedes.distance_le wf hcd ((hmem _).1 hd) }

end Order

/-! ## Duality -/

/-- The search that climbs from `a` and the one that descends from `b` come to their ends and agree:
`a` counts as a subtype of `b` if `b` is met on the way up, if `a` is met on the way down, and if
direct supertypes lead from `a` to `b`; each of these implies the others. -/
theorem isSubtype_dual_subtypes (hp : p.Built) {a b : ClassId} (ha : p.classes.Has a)
    (hb : p.classes.Has b) :
    ∃ answer above below, p.isSubtype a b = .ok answer ∧ p.subtypes b = .ok below ∧
      Search (linkedBy p.supertypeLinks) [a] [] above ∧
      Search (linkedBy p.subtypeLinks) [b] [] below ∧
      (answer = true ↔ b ∈ above) ∧ (answer = true ↔ a ∈ below) ∧
      (answer = true ↔ Relation.ReflTransGen p.DirectSupertype a b) ∧
      p.SubtypeOrder b below := by
  have wf := hp.wellFormed
  obtain ⟨above, habove, -⟩ := exists_walk wf.leads_supertypeLinks p.classes.size []
    (List.forall_mem_singleton.2 ha)
  obtain ⟨below, hbelow, -⟩ := exists_subtypes hb
  have horder := subtypeOrder_of_eq_ok wf hb hbelow
  have hup : b ∈ above ↔ Relation.ReflTransGen p.DirectSupertype a b := by
    rw [mem_walk_iff wf.leads_supertypeLinks ha habove, directSupertype_eq_linksTo]
  refine ⟨decide (b ∈ above), above, below, isSubtype_eq_decide wf ha habove, hbelow,
    search_linkedBy wf.leads_supertypeLinks ha habove, search_linkedBy leads_subtypeLinks hb hbelow,
    ?_, ?_, ?_, horder⟩
  · exact decide_eq_true_iff
  · rw [decide_eq_true_iff, hup, horder.mem_iff]
  · rw [decide_eq_true_iff, hup]

/-- Two interfaces that extend each other, and two classes that do; one of these implements the first
interface twice. -/
def mutualSteps : List Draft.Step :=
  [.declareInterface "Input" [⟨1⟩],
    .declareInterface "Stream" [⟨0⟩],
    .declareClass "Buffer" (some ⟨3⟩),
    .declareClass "Pipe" (some ⟨2⟩),
    .implement ⟨3⟩ ⟨0⟩,
    .implement ⟨3⟩ ⟨0⟩,
    .declareMethod ⟨2⟩ ⟨"void main()"⟩ .static,
    .setEntry ⟨0⟩]

/-- The program that these steps build. -/
def mutualProgram : Program where
  classes := ⟨#[
    { name := "Input", interfaces := [⟨1⟩], isInterface := true, isAbstract := true },
    { name := "Stream", interfaces := [⟨0⟩], isInterface := true, isAbstract := true },
    { name := "Buffer", superclass := some ⟨3⟩ },
    { name := "Pipe", superclass := some ⟨2⟩, interfaces := [⟨0⟩, ⟨0⟩] }]⟩
  methods := ⟨#[
    { subsignature := ⟨"void main()"⟩, owner := ⟨2⟩, isStatic := true, body := some {} }]⟩
  fields := {}
  vars := {}
  stmts := {}
  dereferences := {}
  entry := ⟨0⟩
  root := none

/-- `Buffer` is a subtype of `Stream` across both cycles, and comes last among its subtypes. -/
theorem mutualProgram_dual :
    mutualProgram.Built ∧ mutualProgram.classes.Has ⟨2⟩ ∧ mutualProgram.classes.Has ⟨1⟩ ∧
      mutualProgram.isSubtype ⟨2⟩ ⟨1⟩ = .ok true ∧
      mutualProgram.subtypes ⟨1⟩ = .ok [⟨1⟩, ⟨0⟩, ⟨3⟩, ⟨2⟩] ∧
      Relation.ReflTransGen mutualProgram.DirectSupertype ⟨2⟩ ⟨1⟩ ∧
      mutualProgram.SubtypeOrder ⟨1⟩ [⟨1⟩, ⟨0⟩, ⟨3⟩, ⟨2⟩] := by
  have hbuilt : mutualProgram.Built := ⟨mutualSteps, by decide +kernel⟩
  have ha : mutualProgram.classes.Has ⟨2⟩ := by decide
  have hb : mutualProgram.classes.Has ⟨1⟩ := by decide
  obtain ⟨answer, above, below, hanswer, hbelow, -, -, -, -, hreach, horder⟩ :=
    isSubtype_dual_subtypes hbuilt ha hb
  have hsub : mutualProgram.isSubtype ⟨2⟩ ⟨1⟩ = .ok true := by decide +kernel
  have hlist : mutualProgram.subtypes ⟨1⟩ = .ok [⟨1⟩, ⟨0⟩, ⟨3⟩, ⟨2⟩] := by decide +kernel
  obtain rfl := Except.ok.inj (hanswer.symm.trans hsub)
  obtain rfl := Except.ok.inj (hbelow.symm.trans hlist)
  exact ⟨hbuilt, ha, hb, hsub, hlist, hreach.1 rfl, horder⟩

end PointerAnalysis.Program
