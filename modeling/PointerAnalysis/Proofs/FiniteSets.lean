import Mathlib.Data.Finset.Card
import PointerAnalysis.Proofs.AscendingSet
import PointerAnalysis.Universe

/-!
# Ascending sets stand for finite sets

However an ascending set has come about, its list is strictly ascending.  So there is one list for
each finite set, and every operation on lists is an operation on finite sets: what is left to show of
it is which one.

## Main definitions

- `AscendingSet.Formed`: the sets that the operations build.
- `AscendingSet.toFinset`: the finite set that a list stands for.
- `AscendingSet.ActsAsFinset`: the operations do what they do to finite sets.

## Main statements

- `Formed.ascending`: whatever the operations build is ascending.
- `formed_actsAsFinset`: on such sets the operations are those of finite sets.
-/

namespace PointerAnalysis.AscendingSet

variable {α : Type} [LT α] [DecidableLT α]

/-! ## Sets that are built -/

/-- The sets that come out of any sequence of operations.  An absorption gives two of them: the set
that has grown, and what was new in it. -/
inductive Formed : AscendingSet α → Prop where
  | empty : Formed empty
  | singleton (x : α) : Formed (singleton x)
  | ofList (xs : List α) : Formed (ofList xs)
  | insert {s : AscendingSet α} (hs : Formed s) (x : α) : Formed (s.insert x).2
  | grown {s t : AscendingSet α} (hs : Formed s) (ht : Formed t) : Formed (s.absorb t).1
  | fresh {s t : AscendingSet α} (hs : Formed s) (ht : Formed t) : Formed (s.absorb t).2

section Order

variable [IsStrictTotalOrder α (· < ·)]

/-- Whatever the operations build is ascending. -/
theorem Formed.ascending {s : AscendingSet α} (hs : s.Formed) : s.Ascending := by
  -- every operation keeps the lists ascending
  induction hs with
  | empty => exact ascending_empty
  | singleton x => exact ascending_singleton x
  | ofList xs => exact ascending_ofList xs
  | insert _ x ih => exact ascending_placeIn ih
  | grown _ _ ihs iht => exact (ascending_absorb ihs iht).1
  | fresh _ _ ihs iht => exact (ascending_absorb ihs iht).2

end Order

/-! ## Finite sets -/

variable [DecidableEq α]

omit [LT α] [DecidableLT α] in
/-- The finite set of the elements. -/
def toFinset (s : AscendingSet α) : Finset α := s.elems.toFinset

omit [LT α] [DecidableLT α] in
@[simp] theorem mem_toFinset {s : AscendingSet α} {x : α} : x ∈ s.toFinset ↔ x ∈ s :=
  List.mem_toFinset

/-- The operations on the sets `s` and `t` do to their lists what is done to finite sets. -/
structure ActsAsFinset (s t : AscendingSet α) : Prop where
  ascending : s.toList.Pairwise (· < ·)
  size : s.size = s.toFinset.card
  isEmpty : s.isEmpty = true ↔ s.toFinset = ∅
  contains : ∀ x, s.contains x = true ↔ x ∈ s.toFinset
  /-- An insertion adds just the element, and tells whether it was not there. -/
  insert : ∀ x, (s.insert x).2.toFinset = Insert.insert x s.toFinset
  inserted : ∀ x, (s.insert x).1 = true ↔ x ∉ s.toFinset
  /-- An absorption joins the sets, and tells what was not there. -/
  grown : (s.absorb t).1.toFinset = s.toFinset ∪ t.toFinset
  fresh : (s.absorb t).2.toFinset = t.toFinset \ s.toFinset
  freshAscending : (s.absorb t).2.toList.Pairwise (· < ·)
  untouched : (s.absorb t).2.isEmpty = true → (s.absorb t).1 = s
  isSubset : s.isSubset t = true ↔ s.toFinset ⊆ t.toFinset
  intersects : s.intersects t = true ↔ ¬ Disjoint s.toFinset t.toFinset
  eq_iff : s = t ↔ s.toFinset = t.toFinset

variable [IsStrictTotalOrder α (· < ·)] {s t : AscendingSet α}

omit [DecidableLT α] in
/-- There is one ascending list for each finite set. -/
theorem Ascending.toFinset_inj (hs : s.Ascending) (ht : t.Ascending) :
    s.toFinset = t.toFinset ↔ s = t := by
  constructor
  · intro h
    refine hs.ext ht fun x => ?_
    rw [← mem_toFinset, h, mem_toFinset]
  · exact congrArg toFinset

/-- On ascending sets, each operation does what it does to finite sets. -/
theorem Ascending.actsAsFinset (hs : s.Ascending) (ht : t.Ascending) : s.ActsAsFinset t where
  ascending := hs
  size := (List.toFinset_card_of_nodup hs.nodup).symm
  isEmpty := by
    simp only [isEmpty_iff, Finset.eq_empty_iff_forall_notMem, mem_toFinset]
  contains x := (contains_iff hs).trans mem_toFinset.symm
  insert x := by
    ext y
    rw [Finset.mem_insert, mem_toFinset, mem_toFinset]
    exact mem_placeIn
  inserted x := by
    rw [mem_toFinset, ← contains_iff hs]
    simp [AscendingSet.insert]
  grown := by
    ext x
    simp only [mem_toFinset, Finset.mem_union, mem_absorb_fst]
  fresh := by
    ext x
    simp only [mem_toFinset, Finset.mem_sdiff, mem_absorb_snd hs ht]
  freshAscending := (ascending_absorb hs ht).2
  untouched := absorb_fst_of_isEmpty
  isSubset := by
    rw [isSubset_iff hs ht]
    simp only [Finset.subset_iff, mem_toFinset]
  intersects := by
    rw [intersects_iff hs ht, Finset.not_disjoint_iff]
    simp only [mem_toFinset]
  eq_iff := (hs.toFinset_inj ht).symm

/-- Sets that are built by any operations act as finite sets.  They begin with no element, with one
element or with those of a list, and the operations are those of finite sets from there on. -/
theorem formed_actsAsFinset :
    (empty : AscendingSet α).toFinset = ∅ ∧ (∀ x : α, (singleton x).toFinset = {x}) ∧
      (∀ xs : List α, (ofList xs).toFinset = xs.toFinset) ∧
      ∀ s t : AscendingSet α, s.Formed → t.Formed → s.ActsAsFinset t := by
  refine ⟨rfl, fun x => rfl, fun xs => ?_, fun s t hs ht => hs.ascending.actsAsFinset ht.ascending⟩
  ext x
  rw [mem_toFinset, mem_ofList, List.mem_toFinset]

/-- The references of a pointer: what is new among four others is added in its places. -/
theorem pointsTo_actsAsFinset :
    ∃ s t : PointsTo, s.Formed ∧ t.Formed ∧ s.toList = [⟨1⟩, ⟨4⟩, ⟨9⟩] ∧
      t.toList = [⟨0⟩, ⟨4⟩, ⟨10⟩, ⟨11⟩] ∧ (s.absorb t).2.toList = [⟨0⟩, ⟨10⟩, ⟨11⟩] ∧
      (s.absorb t).1.toList = [⟨0⟩, ⟨1⟩, ⟨4⟩, ⟨9⟩, ⟨10⟩, ⟨11⟩] ∧ s.ActsAsFinset t := by
  have hs : (((ofList [⟨9⟩, ⟨1⟩, ⟨9⟩] : PointsTo).insert ⟨4⟩).2).Formed := (Formed.ofList _).insert _
  have ht : (ofList [⟨4⟩, ⟨0⟩, ⟨11⟩, ⟨10⟩] : PointsTo).Formed := .ofList _
  exact ⟨_, _, hs, ht, by decide, by decide, by decide, by decide,
    formed_actsAsFinset.2.2.2 _ _ hs ht⟩

end PointerAnalysis.AscendingSet
