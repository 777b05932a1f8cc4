import Mathlib.Data.List.Induction
import Mathlib.Data.List.Perm.Subperm
import Mathlib.Order.Defs.Unbundled
import Mathlib.Tactic.Tauto
import PointerAnalysis.AscendingSet
import PointerAnalysis.Handle

/-!
# Ascending sets as finite sets

Membership in an ascending set is membership in its list.  The laws of `absorb` say that a single
pass over both lists yields the union, and that what it reports as new is exactly what was lacking.

## Main statements

- `mem_absorb_fst`, `mem_absorb_snd`: the union, and the elements that were new in it.
- `ascending_absorb`: both answers are ascending again.
- `size_absorb`: the union has grown by the number of new elements.
- `mem_ofList`: the set of a list has the elements of the list.
- `Ascending.ext`: ascending sets with the same elements are equal.
- `contains_iff`, `isSubset_iff`, `intersects_iff`: what the tests say of ascending sets.
-/

namespace PointerAnalysis

/-- Handles of one kind are ordered by their positions. -/
instance (k : Kind) : IsStrictTotalOrder (Handle k) (· < ·) where
  trichotomous _ _ h h' := Handle.ext (Nat.le_antisymm (Nat.not_lt.1 h') (Nat.not_lt.1 h))
  irrefl a h := Nat.lt_irrefl a.index h
  trans _ _ _ h h' := Nat.lt_trans h h'

namespace AscendingSet

variable {α : Type}

/-! ## Membership -/

instance : Membership α (AscendingSet α) := ⟨fun s x => x ∈ s.elems⟩

theorem mem_def {s : AscendingSet α} {x : α} : x ∈ s ↔ x ∈ s.elems := Iff.rfl

@[simp] theorem mem_toList {s : AscendingSet α} {x : α} : x ∈ s.toList ↔ x ∈ s := Iff.rfl

@[simp] theorem not_mem_empty (x : α) : x ∉ (empty : AscendingSet α) := List.not_mem_nil

@[simp] theorem mem_singleton {x y : α} : x ∈ singleton y ↔ x = y := List.mem_singleton

/-- A set counts as empty exactly if it has no element. -/
theorem isEmpty_iff {s : AscendingSet α} : s.isEmpty = true ↔ ∀ x, x ∉ s := by
  simp [isEmpty, mem_def, List.eq_nil_iff_forall_not_mem]

theorem isEmpty_eq_false_iff {s : AscendingSet α} : s.isEmpty = false ↔ ∃ x, x ∈ s := by
  rw [← Bool.not_eq_true, isEmpty_iff, not_forall_not]

theorem size_pos_of_not_isEmpty {s : AscendingSet α} (h : s.isEmpty = false) : 0 < s.size := by
  rw [size, List.length_pos_iff]
  intro e
  simp [isEmpty, e] at h

/-! ## Ascent -/

section Ascending

variable [LT α]

/-- The list of a set is strictly ascending. -/
def Ascending (s : AscendingSet α) : Prop := s.elems.Pairwise (· < ·)

theorem ascending_empty : (empty : AscendingSet α).Ascending := List.Pairwise.nil

theorem ascending_singleton (x : α) : (singleton x).Ascending := List.pairwise_singleton _ x

variable [IsStrictTotalOrder α (· < ·)]

/-- A strictly ascending list holds nothing twice. -/
theorem Ascending.nodup {s : AscendingSet α} (h : s.Ascending) : s.elems.Nodup := by
  refine List.Pairwise.imp ?_ h
  intro a b hlt e
  subst e
  exact irrefl a hlt

/-- Ascending sets with the same elements are equal. -/
theorem Ascending.ext {s t : AscendingSet α} (hs : s.Ascending) (ht : t.Ascending)
    (h : ∀ x, x ∈ s ↔ x ∈ t) : s = t := by
  -- the lists have the same elements, and there is one ascending order of these
  have hperm : s.elems.Perm t.elems := (List.perm_ext_iff_of_nodup hs.nodup ht.nodup).2 h
  have helems : s.elems = t.elems := by
    refine List.Perm.eq_of_pairwise (fun a b _ _ hab hba => ?_) hs ht hperm
    exact absurd hba (asymm hab)
  cases s
  cases t
  exact congrArg _ helems

/-- Two elements of which neither comes first are one. -/
private theorem eq_of_not_lt {x y : α} (h : ¬ x < y) (h' : ¬ y < x) : x = y :=
  Std.Trichotomous.trichotomous x y h h'

end Ascending

/-! ## Merging -/

section Merging

variable [LT α] [DecidableLT α] {x y : α} {xs ys : List α} {merged : List α → List α × List α}

/-- One turn of the merge, for whatever is done with the rest of the first list.  A merge recurs on
two lists, and this is the recursion on the second one. -/
private theorem length_mergeHead
    (hm : ∀ ys, (merged ys).1.length = xs.length + (merged ys).2.length) (ys : List α) :
    (mergeHead x xs merged ys).1.length =
      (x :: xs).length + (mergeHead x xs merged ys).2.length := by
  -- an element of the second list that lies below `x` is passed by
  induction ys with
  | nil => simp [mergeHead]
  | cons y ys ih =>
    rw [mergeHead]
    split
    · simp only [List.length_cons, hm]; omega
    · split
      · simp only [List.length_cons] at ih ⊢; omega
      · simp only [List.length_cons, hm]; omega

/-- What comes out of a merge is as long as the first list and the new elements together. -/
private theorem length_mergeNew (xs ys : List α) :
    (mergeNew xs ys).1.length = xs.length + (mergeNew xs ys).2.length := by
  -- the recursion on the first list; that on the second is in `length_mergeHead`
  induction xs generalizing ys with
  | nil => simp [mergeNew]
  | cons x xs ih => exact length_mergeHead ih ys

variable [IsStrictTotalOrder α (· < ·)]

private theorem mem_mergeHead (hm : ∀ ys z, z ∈ (merged ys).1 ↔ z ∈ xs ∨ z ∈ ys) (ys : List α)
    (z : α) : z ∈ (mergeHead x xs merged ys).1 ↔ z ∈ x :: xs ∨ z ∈ ys := by
  induction ys with
  | nil => simp [mergeHead]
  | cons y ys ih =>
    rw [mergeHead]
    split
    · simp [hm, or_assoc]
    · split
      · simp only [List.mem_cons] at ih ⊢
        rw [ih]
        tauto
      · rename_i hxy hyx
        obtain rfl : x = y := eq_of_not_lt hxy hyx
        simp only [List.mem_cons, hm]
        tauto

/-- A merge has the elements of both lists. -/
private theorem mem_mergeNew (xs ys : List α) (z : α) :
    z ∈ (mergeNew xs ys).1 ↔ z ∈ xs ∨ z ∈ ys := by
  induction xs generalizing ys z with
  | nil => simp [mergeNew]
  | cons x xs ih => exact mem_mergeHead ih ys z

/-- What is reported as new comes from the second list alone. -/
private theorem mem_new_mergeHead
    (hm : ∀ ys, ys.Pairwise (· < ·) → ∀ z, z ∈ (merged ys).2 ↔ z ∈ ys ∧ z ∉ xs)
    (hx : ∀ z ∈ xs, x < z) (ys : List α) (hys : ys.Pairwise (· < ·)) (z : α) :
    z ∈ (mergeHead x xs merged ys).2 ↔ z ∈ ys ∧ z ∉ x :: xs := by
  induction ys with
  | nil => simp [mergeHead]
  | cons y ys ih =>
    obtain ⟨hy, hys'⟩ := List.pairwise_cons.1 hys
    rw [mergeHead]
    split
    · -- every element of the second list lies above `x`
      rename_i hxy
      rw [hm _ hys]
      have hne : z ∈ y :: ys → z ≠ x := by
        intro hz e
        subst e
        rcases List.mem_cons.1 hz with rfl | hz
        · exact irrefl z hxy
        · exact irrefl z (trans_of (· < ·) hxy (hy z hz))
      simp only [List.mem_cons] at hne ⊢
      tauto
    · split
      · -- `y` lies below all of the first list
        rename_i hyx
        have hne : z = y → z ∉ x :: xs := by
          intro e hz
          subst e
          rcases List.mem_cons.1 hz with rfl | hz
          · exact irrefl z hyx
          · exact irrefl z (trans_of (· < ·) hyx (hx z hz))
        simp only [List.mem_cons] at ih hne ⊢
        rw [ih hys']
        tauto
      · -- the heads are equal, and what follows in the second list lies above them
        rename_i hxy hyx
        obtain rfl : x = y := eq_of_not_lt hxy hyx
        have hne : z ∈ ys → z ≠ x := by
          intro hz e
          subst e
          exact irrefl z (hy z hz)
        simp only [hm _ hys', List.mem_cons]
        tauto

/-- What a merge of ascending lists reports as new is what the first list lacks. -/
private theorem mem_new_mergeNew {xs ys : List α} (hxs : xs.Pairwise (· < ·))
    (hys : ys.Pairwise (· < ·)) (z : α) : z ∈ (mergeNew xs ys).2 ↔ z ∈ ys ∧ z ∉ xs := by
  induction xs generalizing ys z with
  | nil => simp [mergeNew]
  | cons x xs ih =>
    obtain ⟨hx, hxs⟩ := List.pairwise_cons.1 hxs
    exact mem_new_mergeHead (fun ys hys z => ih hxs hys z) hx ys hys z

/-- One turn of the merge keeps both answers ascending, given that the rest of it does. -/
private theorem ascending_mergeHead
    (hm : ∀ ys, ys.Pairwise (· < ·) →
      (merged ys).1.Pairwise (· < ·) ∧ (merged ys).2.Pairwise (· < ·))
    (hmem : ∀ ys z, z ∈ (merged ys).1 ↔ z ∈ xs ∨ z ∈ ys)
    (hnew : ∀ ys, ys.Pairwise (· < ·) → ∀ z, z ∈ (merged ys).2 ↔ z ∈ ys ∧ z ∉ xs)
    (hx : ∀ z ∈ xs, x < z) (hxs : xs.Pairwise (· < ·)) (ys : List α)
    (hys : ys.Pairwise (· < ·)) :
    (mergeHead x xs merged ys).1.Pairwise (· < ·) ∧
      (mergeHead x xs merged ys).2.Pairwise (· < ·) := by
  induction ys with
  | nil => exact ⟨List.pairwise_cons.2 ⟨hx, hxs⟩, List.Pairwise.nil⟩
  | cons y ys ih =>
    obtain ⟨hy, hys'⟩ := List.pairwise_cons.1 hys
    rw [mergeHead]
    split
    · -- `x` comes first
      rename_i hxy
      refine ⟨List.pairwise_cons.2 ⟨fun z hz => ?_, (hm _ hys).1⟩, (hm _ hys).2⟩
      rcases (hmem _ z).1 hz with hz | hz
      · exact hx z hz
      · rcases List.mem_cons.1 hz with rfl | hz
        · exact hxy
        · exact trans_of (· < ·) hxy (hy z hz)
    · split
      · -- `y` comes first, and is new
        rename_i hyx
        obtain ⟨h₁, h₂⟩ := ih hys'
        refine ⟨List.pairwise_cons.2 ⟨fun z hz => ?_, h₁⟩,
          List.pairwise_cons.2 ⟨fun z hz => ?_, h₂⟩⟩
        · rcases (mem_mergeHead hmem ys z).1 hz with hz | hz
          · rcases List.mem_cons.1 hz with rfl | hz
            · exact hyx
            · exact trans_of (· < ·) hyx (hx z hz)
          · exact hy z hz
        · exact hy z ((mem_new_mergeHead hnew hx ys hys' z).1 hz).1
      · -- the heads are equal, and one of them is kept
        rename_i hxy hyx
        obtain rfl : x = y := eq_of_not_lt hxy hyx
        refine ⟨List.pairwise_cons.2 ⟨fun z hz => ?_, (hm _ hys').1⟩, (hm _ hys').2⟩
        exact ((hmem _ z).1 hz).elim (hx z) (hy z)

/-- A merge of ascending lists is ascending, and so is what it reports as new. -/
private theorem ascending_mergeNew {xs ys : List α} (hxs : xs.Pairwise (· < ·))
    (hys : ys.Pairwise (· < ·)) :
    (mergeNew xs ys).1.Pairwise (· < ·) ∧ (mergeNew xs ys).2.Pairwise (· < ·) := by
  induction xs generalizing ys with
  | nil => exact ⟨hys, hys⟩
  | cons x xs ih =>
    obtain ⟨hx, hxs⟩ := List.pairwise_cons.1 hxs
    exact ascending_mergeHead (fun ys hys => ih hxs hys) (mem_mergeNew xs)
      (fun ys hys z => mem_new_mergeNew hxs hys z) hx hxs ys hys

end Merging

/-! ## Absorption -/

section Absorption

variable [LT α] [DecidableLT α]

/-- To merge nothing changes nothing. -/
theorem mergeNew_nil (xs : List α) : mergeNew xs [] = (xs, []) := by
  cases xs <;> rfl

/-- If a merge reports nothing as new, it gives the first list back. -/
private theorem mergeNew_of_new_eq_nil {xs ys : List α} (h : (mergeNew xs ys).2 = []) :
    (mergeNew xs ys).1 = xs := by
  -- a head of the second list that comes first is new
  have hhead : ∀ (x : α) (xs ys : List α) (merged : List α → List α × List α),
      (∀ zs, (merged zs).2 = [] → (merged zs).1 = xs) → (mergeHead x xs merged ys).2 = [] →
      (mergeHead x xs merged ys).1 = x :: xs := by
    intro x xs ys merged hm h
    cases ys with
    | nil => rfl
    | cons y ys =>
      by_cases hxy : x < y
      · simp only [mergeHead, hxy, if_true] at h ⊢
        rw [hm _ h]
      · by_cases hyx : y < x
        · simp [mergeHead, hxy, hyx] at h
        · simp only [mergeHead, hxy, hyx, if_false] at h ⊢
          rw [hm _ h]
  induction xs generalizing ys with
  | nil => exact h
  | cons x xs ih => exact hhead x xs ys _ (fun _ h => ih h) h

/-- To absorb a set is to merge it, whether or not there is anything to merge. -/
theorem absorb_eq (s t : AscendingSet α) :
    s.absorb t = (⟨(mergeNew s.elems t.elems).1⟩, ⟨(mergeNew s.elems t.elems).2⟩) := by
  obtain ⟨xs⟩ := s
  obtain ⟨ys⟩ := t
  cases ys with
  | nil => rw [mergeNew_nil]; rfl
  | cons y ys =>
    cases xs with
    | nil => rfl
    | cons x xs =>
      show (if (mergeNew (x :: xs) (y :: ys)).2.isEmpty then _ else _, _) = _
      cases hnew : (mergeNew (x :: xs) (y :: ys)).2.isEmpty with
      | true =>
        rw [if_pos rfl, mergeNew_of_new_eq_nil (List.isEmpty_iff.1 hnew)]
      | false => rfl

/-- The union has grown by the number of new elements. -/
theorem size_absorb (s t : AscendingSet α) :
    (s.absorb t).1.size = s.size + (s.absorb t).2.size := by
  rw [absorb_eq]
  exact length_mergeNew s.elems t.elems

/-- A set that gets nothing new is left as it is. -/
theorem absorb_fst_of_isEmpty {s t : AscendingSet α} (h : (s.absorb t).2.isEmpty = true) :
    (s.absorb t).1 = s := by
  rw [absorb_eq] at h ⊢
  exact congrArg AscendingSet.mk (mergeNew_of_new_eq_nil (List.isEmpty_iff.1 h))

/-- What is new in a set was added to it. -/
theorem mem_of_mem_absorb_snd {s t : AscendingSet α} {x : α} (h : x ∈ (s.absorb t).2) : x ∈ t := by
  -- the list that is merged in is followed, against each head of the first list
  have hhead : ∀ (y : α) (ys : List α) (merged : List α → List α × List α),
      (∀ zs, ∀ x ∈ (merged zs).2, x ∈ zs) → ∀ zs, ∀ x ∈ (mergeHead y ys merged zs).2, x ∈ zs := by
    intro y ys merged hm zs
    induction zs with
    | nil => simp [mergeHead]
    | cons z zs ih =>
      intro x hx
      rw [mergeHead] at hx
      split at hx
      · exact hm _ x hx
      · split at hx
        · exact (List.mem_cons.1 hx).elim (fun e => e ▸ List.mem_cons_self ..)
            fun hx => List.mem_cons_of_mem _ (ih x hx)
        · exact List.mem_cons_of_mem _ (hm _ x hx)
  have hmerge : ∀ xs zs : List α, ∀ x ∈ (mergeNew xs zs).2, x ∈ zs := by
    intro xs
    induction xs with
    | nil => exact fun zs x hx => hx
    | cons y ys ih => exact hhead y ys _ ih
  rw [absorb_eq] at h
  exact hmerge _ _ x h

variable [IsStrictTotalOrder α (· < ·)] {s t : AscendingSet α} {x : α}

/-- A set that absorbs another becomes the union. -/
theorem mem_absorb_fst : x ∈ (s.absorb t).1 ↔ x ∈ s ∨ x ∈ t := by
  rw [absorb_eq]
  exact mem_mergeNew s.elems t.elems x

/-- What is reported as new are the elements that were lacking. -/
theorem mem_absorb_snd (hs : s.Ascending) (ht : t.Ascending) :
    x ∈ (s.absorb t).2 ↔ x ∈ t ∧ x ∉ s := by
  rw [absorb_eq]
  exact mem_new_mergeNew hs ht x

/-- Ascending sets stay ascending, and what is reported as new is ascending too. -/
theorem ascending_absorb (hs : s.Ascending) (ht : t.Ascending) :
    (s.absorb t).1.Ascending ∧ (s.absorb t).2.Ascending := by
  rw [absorb_eq]
  exact ascending_mergeNew hs ht

end Absorption

/-! ## Sets of lists -/

section OfList

variable [LT α] [DecidableLT α] [IsStrictTotalOrder α (· < ·)]

/-- An element that is put in its place is among the elements afterwards. -/
theorem mem_placeIn {x y : α} {xs : List α} : y ∈ placeIn x xs ↔ y = x ∨ y ∈ xs := by
  induction xs with
  | nil => simp [placeIn]
  | cons z zs ih =>
    rw [placeIn]
    split
    · simp only [List.mem_cons, ih]
      tauto
    · split
      · simp only [List.mem_cons]
      · -- neither is less than the other
        obtain rfl := Std.Trichotomous.trichotomous (r := (· < ·)) x z ‹_› ‹_›
        simp

/-- To put an element in its place keeps a list ascending. -/
theorem ascending_placeIn {x : α} {xs : List α} (h : xs.Pairwise (· < ·)) :
    (placeIn x xs).Pairwise (· < ·) := by
  induction xs with
  | nil => exact List.pairwise_singleton _ x
  | cons y ys ih =>
    obtain ⟨hy, hys⟩ := List.pairwise_cons.1 h
    rw [placeIn]
    split
    · -- `x` goes somewhere behind `y`
      rename_i hyx
      refine List.pairwise_cons.2 ⟨fun z hz => ?_, ih hys⟩
      rcases mem_placeIn.1 hz with rfl | hz
      · exact hyx
      · exact hy z hz
    · split
      · -- `x` goes in front of `y`
        rename_i hxy
        refine List.pairwise_cons.2 ⟨fun z hz => ?_, h⟩
        rcases List.mem_cons.1 hz with rfl | hz
        · exact hxy
        · exact trans_of (· < ·) hxy (hy z hz)
      · exact h

/-- The set of any list is ascending. -/
theorem ascending_ofList (xs : List α) : (ofList xs).Ascending := by
  unfold ofList
  -- the elements are placed one by one, the last of them at last
  induction xs using List.reverseRecOn with
  | nil => exact ascending_empty
  | append_singleton xs y ih =>
    rw [List.foldl_append, List.foldl_cons, List.foldl_nil]
    exact ascending_placeIn ih

/-- The set of a list has the elements of the list. -/
theorem mem_ofList {x : α} {xs : List α} : x ∈ ofList xs ↔ x ∈ xs := by
  unfold ofList
  induction xs using List.reverseRecOn with
  | nil => exact iff_of_false (not_mem_empty x) List.not_mem_nil
  | append_singleton xs y ih =>
    rw [List.foldl_append, List.foldl_cons, List.foldl_nil, List.mem_append, List.mem_singleton,
      ← ih]
    exact mem_placeIn.trans or_comm

/-- The sets of two lists are equal if the lists have the same elements. -/
theorem ofList_congr {xs ys : List α} (h : ∀ x, x ∈ xs ↔ x ∈ ys) : ofList xs = ofList ys :=
  (ascending_ofList xs).ext (ascending_ofList ys) fun x => by rw [mem_ofList, mem_ofList, h]

end OfList

/-! ## Tests -/

section Tests

variable [LT α] [DecidableLT α] [IsStrictTotalOrder α (· < ·)] {s t : AscendingSet α} {x : α}

/-- In an ascending list the search may end at the first greater element. -/
theorem standsIn_iff {xs : List α} (h : xs.Pairwise (· < ·)) :
    standsIn x xs = true ↔ x ∈ xs := by
  induction xs with
  | nil => simp [standsIn]
  | cons y ys ih =>
    obtain ⟨hy, hys⟩ := List.pairwise_cons.1 h
    rw [standsIn, List.mem_cons]
    split
    · -- `y` lies below `x`, so the search goes on
      rename_i hyx
      have hne : x ≠ y := fun e => irrefl y (e ▸ hyx)
      rw [ih hys, or_iff_right hne]
    · -- the search is over: `y` is `x`, or all that follows is too great
      rename_i hyx
      simp only [Bool.not_eq_true', decide_eq_false_iff_not]
      constructor
      · exact fun hxy => Or.inl (Std.Trichotomous.trichotomous (r := (· < ·)) x y hxy hyx)
      · intro hx hxy
        rcases hx with rfl | hx
        · exact irrefl x hxy
        · exact hyx (hy x hx)

/-- The test for an element looks up to the first greater one, and that is enough in an ascending
set. -/
theorem contains_iff (ht : t.Ascending) : t.contains x = true ↔ x ∈ t := standsIn_iff ht

omit [IsStrictTotalOrder α (· < ·)] in
/-- What is passed by lies below `x`, so nothing from `x` on is lost. -/
private theorem mem_dropWhile_lt {x z : α} {ys : List α} (hz : ¬ z < x) :
    z ∈ ys.dropWhile (· < x) ↔ z ∈ ys := by
  induction ys with
  | nil => rfl
  | cons y ys ih =>
    rw [List.dropWhile_cons]
    split
    · rename_i hyx
      have hne : z ≠ y := fun e => hz (e ▸ of_decide_eq_true hyx)
      rw [ih, List.mem_cons, or_iff_right hne]
    · rfl

omit [IsStrictTotalOrder α (· < ·)] in
/-- The first element that is not passed by does not lie below `x`. -/
private theorem not_lt_of_dropWhile_eq_cons {x y : α} {ys rest : List α}
    (h : ys.dropWhile (· < x) = y :: rest) : ¬ y < x := by
  have hne : ys.dropWhile (· < x) ≠ [] := by
    rw [h]
    exact List.cons_ne_nil _ _
  have hhead := List.head_dropWhile_not (fun z => decide (z < x)) hne
  simpa only [h, List.head_cons, decide_eq_false_iff_not] using hhead

/-- One pass over both lists tells whether the first one is part of the second. -/
private theorem allStandIn_iff {xs ys : List α} (hxs : xs.Pairwise (· < ·))
    (hys : ys.Pairwise (· < ·)) : allStandIn xs ys = true ↔ ∀ x ∈ xs, x ∈ ys := by
  induction xs generalizing ys with
  | nil => simp [allStandIn]
  | cons x xs ih =>
    obtain ⟨hx, hxs⟩ := List.pairwise_cons.1 hxs
    have hmem : ∀ z, ¬ z < x → (z ∈ ys.dropWhile (· < x) ↔ z ∈ ys) :=
      fun z hz => mem_dropWhile_lt hz
    have hpairwise := hys.sublist (List.dropWhile_sublist fun y => decide (y < x))
    rw [allStandIn, List.forall_mem_cons, ← hmem x (irrefl x)]
    cases hdrop : ys.dropWhile (· < x) with
    -- the second list is used up before `x` is found
    | nil => simp
    | cons y rest =>
      rw [hdrop] at hmem hpairwise
      obtain ⟨hy, hrest⟩ := List.pairwise_cons.1 hpairwise
      dsimp only
      split
      · -- all that is left lies above `x`
        rename_i hxy
        refine iff_of_false Bool.false_ne_true fun hall => ?_
        rcases List.mem_cons.1 hall.1 with rfl | hin
        · exact irrefl x hxy
        · exact irrefl x (trans_of (· < ·) hxy (hy x hin))
      · -- `x` is found, and the second list is followed from there
        rename_i hxy
        obtain rfl := eq_of_not_lt hxy (not_lt_of_dropWhile_eq_cons hdrop)
        rw [ih hxs hrest, and_iff_right List.mem_cons_self]
        -- what comes behind `x` in the first list is not `x`
        refine forall₂_congr fun z hz => ?_
        have hlt := hx z hz
        have hne : z ≠ x := fun e => irrefl x (e ▸ hlt)
        rw [← hmem z (asymm hlt), List.mem_cons, or_iff_right hne]

/-- The test for a subset, which compares sizes first, is right for ascending sets. -/
theorem isSubset_iff (hs : s.Ascending) (ht : t.Ascending) :
    s.isSubset t = true ↔ ∀ x ∈ s, x ∈ t := by
  unfold isSubset
  split
  · -- more elements do not fit into fewer
    rename_i hlt
    refine iff_of_false Bool.false_ne_true fun hsub => ?_
    exact absurd (List.subperm_of_subset hs.nodup hsub).length_le (Nat.not_le.2 hlt)
  · exact allStandIn_iff hs ht

/-- One step of `meet`, against an ascending list: `xs` is what stands behind `x`. -/
private theorem meetHead_iff {x : α} {xs : List α} {rest : List α → Bool}
    (hrest : ∀ ys, ys.Pairwise (· < ·) → (rest ys = true ↔ ∃ z ∈ xs, z ∈ ys))
    (hx : ∀ z ∈ xs, x < z) {ys : List α} (hys : ys.Pairwise (· < ·)) :
    meetHead x rest ys = true ↔ ∃ z ∈ x :: xs, z ∈ ys := by
  induction ys with
  | nil => simp [meetHead]
  | cons y ys ih =>
    obtain ⟨hy, hys'⟩ := List.pairwise_cons.1 hys
    rw [meetHead]
    split
    · -- `x` lies below all of the second list
      rename_i hxy
      have hne : x ∉ y :: ys := by
        intro hin
        rcases List.mem_cons.1 hin with rfl | hin
        · exact irrefl x hxy
        · exact irrefl x (trans_of (· < ·) hxy (hy x hin))
      rw [hrest _ hys]
      refine exists_congr fun z => and_congr_left fun hz => ?_
      have hzx : z ≠ x := fun e => hne (e ▸ hz)
      rw [List.mem_cons, or_iff_right hzx]
    · split
      · -- `y` lies below all of the first list
        rename_i hyx
        have hne : ∀ z ∈ x :: xs, z ≠ y := by
          intro z hz e
          subst e
          rcases List.mem_cons.1 hz with rfl | hz
          · exact irrefl z hyx
          · exact irrefl z (trans_of (· < ·) hyx (hx z hz))
        rw [ih hys']
        refine exists_congr fun z => and_congr_right fun hz => ?_
        rw [List.mem_cons, or_iff_right (hne z hz)]
      · rename_i hxy hyx
        obtain rfl := eq_of_not_lt hxy hyx
        exact iff_of_true rfl ⟨x, List.mem_cons_self, List.mem_cons_self⟩

/-- One pass over both lists tells whether they have an element in common. -/
private theorem meet_iff {xs ys : List α} (hxs : xs.Pairwise (· < ·))
    (hys : ys.Pairwise (· < ·)) : meet xs ys = true ↔ ∃ z ∈ xs, z ∈ ys := by
  induction xs generalizing ys with
  | nil => simp [meet]
  | cons x xs ih =>
    obtain ⟨hx, hxs⟩ := List.pairwise_cons.1 hxs
    exact meetHead_iff (fun ys hys => ih hxs hys) hx hys

/-- The test for a common element is right for ascending sets. -/
theorem intersects_iff (hs : s.Ascending) (ht : t.Ascending) :
    s.intersects t = true ↔ ∃ x, x ∈ s ∧ x ∈ t := meet_iff hs ht

end Tests

end AscendingSet

end PointerAnalysis
