import Mathlib.Data.List.Basic
import Mathlib.Data.List.Induction

/-!
# Growing lists

A list that only grows at its end keeps its elements at their positions.  If it is given elements
one by one, and keeps an element only if it is new, it ends as the list of first occurrences.

## Main definitions

- `keepNew`: a list goes on with a new element only.
- `keepNewBy`: a list goes on with an element that no element in it counts as.

## Main statements

- `eraseDupsBy_concat`, `eraseDups_concat`, `foldl_keepNew`: what is kept are the first occurrences.
- `nodup_eraseDups`: nothing is kept twice.
- `getElem?_mono`, `getElem?_concat_cases`: what is at a position later.
-/

namespace PointerAnalysis

/-! ## Positions -/

/-- What is at a position stays there while a list grows at its end. -/
theorem getElem?_mono {α : Type} {xs ys : List α} (h : xs <+: ys) {i : Nat} {a : α}
    (hi : xs[i]? = some a) : ys[i]? = some a := by
  obtain ⟨hlt, rfl⟩ := List.getElem?_eq_some_iff.1 hi
  exact List.prefix_iff_getElem?.1 h i hlt

/-- What is at a position after an element is added was there before, or it is the new element. -/
theorem getElem?_concat_cases {α : Type} {xs : List α} {a b : α} {i : Nat}
    (h : (xs ++ [a])[i]? = some b) : xs[i]? = some b ∨ i = xs.length ∧ b = a := by
  rw [List.getElem?_append] at h
  split at h
  · exact Or.inl h
  · obtain ⟨hi, e⟩ := List.getElem?_eq_some_iff.1 h
    simp only [List.length_singleton] at hi
    exact Or.inr ⟨by omega, by simpa [eq_comm] using e⟩

/-! ## First occurrences -/

section By

variable {α : Type} (same : α → α → Bool)

/-- A list goes on with an element unless one in it counts as the same. -/
def keepNewBy (kept : List α) (x : α) : List α :=
  if kept.any (same x) then kept else kept ++ [x]

private theorem eraseDupsBy_loop_concat (xs kept : List α) (x : α) :
    List.eraseDupsBy.loop same (xs ++ [x]) kept =
      keepNewBy same (List.eraseDupsBy.loop same xs kept) x := by
  -- the loop carries what it has kept, so the statement is about any such list
  induction xs generalizing kept with
  | nil =>
    -- the elements kept so far are held in reverse
    cases h : kept.any (same x) <;> simp [List.eraseDupsBy.loop, keepNewBy, h]
  | cons y xs ih =>
    rw [List.cons_append, List.eraseDupsBy.loop, List.eraseDupsBy.loop]
    cases kept.any (same y)
    · exact ih (y :: kept)
    · exact ih kept

/-- To erase repetitions with one element more at the end is to offer that element to what was kept
of the others. -/
theorem eraseDupsBy_concat (xs : List α) (x : α) :
    (xs ++ [x]).eraseDupsBy same = keepNewBy same (xs.eraseDupsBy same) x :=
  eraseDupsBy_loop_concat same xs [] x

end By

variable {α : Type} [DecidableEq α]

/-- A list goes on with a new element only. -/
def keepNew (kept : List α) (x : α) : List α := if x ∈ kept then kept else kept ++ [x]

theorem keepNew_of_mem {kept : List α} {x : α} (h : x ∈ kept) : keepNew kept x = kept := if_pos h

theorem keepNew_of_notMem {kept : List α} {x : α} (h : x ∉ kept) :
    keepNew kept x = kept ++ [x] := if_neg h

/-- An element is among those kept once it is offered, whether or not it was new. -/
theorem mem_keepNew {kept : List α} {x y : α} : y ∈ keepNew kept x ↔ y ∈ kept ∨ y = x := by
  unfold keepNew
  split
  · rename_i h
    exact ⟨Or.inl, fun hy => hy.elim id fun e => e ▸ h⟩
  · rw [List.mem_append, List.mem_singleton]

theorem prefix_keepNew (kept : List α) (x : α) : kept <+: keepNew kept x := by
  unfold keepNew
  split
  · exact List.prefix_refl _
  · exact List.prefix_append _ _

/-- The case of `eraseDupsBy_concat` in which elements count as the same only if they are equal. -/
theorem eraseDups_concat (xs : List α) (x : α) :
    (xs ++ [x]).eraseDups = keepNew xs.eraseDups x := by
  have hany : xs.eraseDups.any (x == ·) = true ↔ x ∈ xs.eraseDups := by simp
  rw [List.eraseDups, eraseDupsBy_concat, ← List.eraseDups, keepNewBy, keepNew]
  exact if_congr hany rfl rfl

/-- To offer elements one by one is to append them all and to erase what comes again. -/
theorem foldl_keepNew (xs ys : List α) : ys.foldl keepNew xs.eraseDups = (xs ++ ys).eraseDups := by
  -- the last element is offered last, so the induction takes it off first
  induction ys using List.reverseRecOn with
  | nil => rw [List.append_nil, List.foldl_nil]
  | append_singleton ys y ih =>
    rw [List.foldl_append, List.foldl_cons, List.foldl_nil, ih, ← List.append_assoc,
      eraseDups_concat]

/-- What is kept is kept once. -/
theorem nodup_keepNew {kept : List α} (h : kept.Nodup) (x : α) : (keepNew kept x).Nodup := by
  unfold keepNew
  split
  · exact h
  · rename_i hx
    exact List.nodup_append.2 ⟨h, List.pairwise_singleton _ x, fun a ha b hb e =>
      hx (List.mem_singleton.1 hb ▸ e ▸ ha)⟩

theorem nodup_eraseDups (xs : List α) : xs.eraseDups.Nodup := by
  induction xs using List.reverseRecOn with
  | nil => exact List.nodup_nil
  | append_singleton xs x ih =>
    rw [eraseDups_concat]
    exact nodup_keepNew ih x

end PointerAnalysis
