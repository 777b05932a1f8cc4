import Mathlib.Logic.Function.Basic
import PointerAnalysis.Proofs.GrowingLists
import PointerAnalysis.Proofs.Table

/-!
# Interning with an index

A table is searched for a value that is to be interned.  An interner spares the search: it keeps an
index of its rows, and writes the row and the index one after the other when a value is new.  Both
number the values in the order in which they are met first, so they can not be told apart.

## Main definitions

- `Interner`: rows with an index.
- `Interner.InStep`: the index and the rows are inverse to each other.
- `Table.Numbers`: a table numbers the keys that were interned.

## Main statements

- `Interner.InStep.intern`: rows and index stay inverse.
- `Interner.InStep.intern_eq`: an interner answers as its table does.
- `Table.numbers_of_toList`: a table of the first occurrences numbers the keys.
- `Table.Numbers.intern`: to intern a key is to number it after the others.
-/

namespace PointerAnalysis

variable {k : Kind} {α : Type}

/-! ## The index -/

/-- Rows, and the index that finds them. -/
structure Interner (k : Kind) (α : Type) where
  rows : Table k α := {}
  index : α → Option (Handle k) := fun _ => none

namespace Interner

/-- The index and the rows are inverse to each other. -/
def InStep (i : Interner k α) : Prop := ∀ a h, i.index a = some h ↔ i.rows.get? h = some a

/-- An interner begins with no rows and an index that finds nothing. -/
theorem inStep_empty : ({} : Interner k α).InStep := fun a h => by
  rw [Table.get?_empty]
  exact iff_of_false (fun e => nomatch e) fun e => nomatch e

variable [DecidableEq α]

/-- The handle in the index; for a value that is not there, the next handle, under which the row and
then the index are written. -/
def intern (i : Interner k α) (a : α) : Handle k × Interner k α :=
  match i.index a with
  | some h => (h, i)
  | none => (i.rows.next, ⟨i.rows.push a, Function.update i.index a (some i.rows.next)⟩)

/-- The interner after some keys have been interned one by one. -/
def ofKeys (keys : List α) : Interner k α := keys.foldl (fun i a => (i.intern a).2) {}

variable {i : Interner k α}

/-- A value that the index finds is not written again. -/
theorem intern_of_index {a : α} {h : Handle k} (e : i.index a = some h) : i.intern a = (h, i) := by
  rw [intern, e]

/-- A value that the index does not find gets the next handle. -/
theorem intern_of_new {a : α} (e : i.index a = none) : i.intern a =
    (i.rows.next, ⟨i.rows.push a, Function.update i.index a (some i.rows.next)⟩) := by
  rw [intern, e]

omit [DecidableEq α] in
/-- A value that the index does not find has no row. -/
theorem InStep.ne_of_index (hi : i.InStep) {a : α} (e : i.index a = none) (h : Handle k) :
    i.rows.get? h ≠ some a := fun hh => by
  rw [(hi a h).2 hh] at e
  cases e

omit [DecidableEq α] in
/-- No two rows are equal, because the index has one handle for a value. -/
theorem InStep.distinct (hi : i.InStep) : i.rows.Distinct := fun h h' a hh hh' =>
  Option.some.inj (((hi a h).2 hh).symm.trans ((hi a h').2 hh'))

/-- The index finds what a search through the rows finds. -/
theorem InStep.index_eq_find? (hi : i.InStep) (a : α) :
    i.index a = i.rows.find? fun b => b = a :=
  Option.ext fun h => (hi a h).trans hi.distinct.find?_eq_some_iff.symm

/-- The row and the index are written together. -/
theorem InStep.intern (hi : i.InStep) (a : α) : (i.intern a).2.InStep := by
  cases e : i.index a with
  | some h =>
    rw [intern_of_index e]
    exact hi
  | none =>
    rw [intern_of_new e]
    intro b h
    show Function.update i.index a _ b = some h ↔ (i.rows.push a).get? h = some b
    rw [Table.get?_push]
    by_cases hb : b = a
    · -- the new value has just the new handle
      subst hb
      rw [Function.update_self]
      split
      · rename_i hh
        exact iff_of_true (congrArg some hh.symm) rfl
      · rename_i hh
        exact iff_of_false (fun e' => hh (Option.some.inj e').symm) (hi.ne_of_index e h)
    · -- the other values have the handles that they had, none of which is the new one
      rw [Function.update_of_ne hb, hi b h]
      split
      · rename_i hh
        subst hh
        rw [Table.get?_next]
        exact iff_of_false (fun e' => nomatch e') fun e' => hb (Option.some.inj e').symm
      · rfl

/-- An interner gives the answer of its table, and goes on with the rows of it. -/
theorem InStep.intern_eq (hi : i.InStep) (a : α) :
    ((i.intern a).1, (i.intern a).2.rows) = i.rows.intern a := by
  rw [Table.intern, ← hi.index_eq_find? a]
  cases e : i.index a with
  | some h => rw [intern_of_index e]
  | none => rw [intern_of_new e]

theorem InStep.rows_intern (hi : i.InStep) (a : α) :
    (i.intern a).2.rows = (i.rows.intern a).2 :=
  congrArg Prod.snd (hi.intern_eq a)

theorem ofKeys_concat (keys : List α) (a : α) :
    (ofKeys (keys ++ [a]) : Interner k α) = ((ofKeys keys).intern a).2 := by
  rw [ofKeys, List.foldl_append]
  rfl

/-- Rows and index stay inverse, whatever keys are interned. -/
theorem inStep_ofKeys (keys : List α) : (ofKeys keys : Interner k α).InStep := by
  induction keys using List.reverseRecOn with
  | nil => exact inStep_empty
  | append_singleton keys a ih =>
    rw [ofKeys_concat]
    exact ih.intern a

end Interner

/-! ## Numbering -/

namespace Table

variable [DecidableEq α] {t : Table k α} {a : α}

/-- The rows go on with a new value only. -/
theorem toList_intern (t : Table k α) (a : α) : (t.intern a).2.toList = keepNew t.toList a := by
  rcases t.intern_cases a with ⟨h, hh, e⟩ | ⟨hnew, e⟩
  · rw [e, keepNew_of_mem (mem_toList.2 ⟨h, hh⟩)]
  · have ha : a ∉ t.toList := fun hmem => by
      obtain ⟨h, hh⟩ := mem_toList.1 hmem
      exact hnew h hh
    rw [e, keepNew_of_notMem ha, toList_push]

/-- A table numbers the keys that were interned, in the order of their first occurrences. -/
structure Numbers (t : Table k α) (keys : List α) : Prop where
  rows : t.toList = keys.eraseDups
  /-- Handles and keys are inverse to each other. -/
  find?_iff : ∀ a h, t.find? (fun b => b = a) = some h ↔ t.get? h = some a
  /-- The keys that are found are those that were interned. -/
  known_iff : ∀ a, (∃ h, t.find? (fun b => b = a) = some h) ↔ a ∈ keys
  /-- Different rows are different keys. -/
  handle_iff : ∀ h h', t.Has h → (t.get? h = t.get? h' ↔ h = h')
  /-- An index that is written beside the rows would be the search. -/
  indexed : (Interner.ofKeys keys : Interner k α).rows = t ∧
    ∀ a, (Interner.ofKeys keys : Interner k α).index a = t.find? fun b => b = a

/-- The rows are the keys in the order of their first occurrences. -/
theorem toList_ofKeys (keys : List α) :
    (Interner.ofKeys keys : Interner k α).rows.toList = keys.eraseDups := by
  induction keys using List.reverseRecOn with
  | nil => rfl
  | append_singleton keys a ih =>
    rw [Interner.ofKeys_concat, (Interner.inStep_ofKeys keys).rows_intern, toList_intern, ih,
      eraseDups_concat]

/-- A table of the first occurrences numbers the keys. -/
theorem numbers_of_toList {keys : List α} (h : t.toList = keys.eraseDups) : t.Numbers keys := by
  have hd : t.Distinct := distinct_of_nodup (h ▸ nodup_eraseDups keys)
  have hrows : (Interner.ofKeys keys : Interner k α).rows = t :=
    toList_injective ((toList_ofKeys keys).trans h.symm)
  refine ⟨h, fun a h => hd.find?_eq_some_iff, fun a => ?_, fun i j hi => ?_, hrows, fun a => ?_⟩
  · -- the keys that are found
    simp only [hd.find?_eq_some_iff]
    rw [← mem_toList, h, List.mem_eraseDups]
  · -- handles of one row
    obtain ⟨a, ha⟩ := exists_get? hi
    refine ⟨fun e => hd i j a ha (e ▸ ha), fun e => e ▸ rfl⟩
  · rw [(Interner.inStep_ofKeys keys).index_eq_find?, hrows]

/-- A table that numbers keys has each of them once. -/
theorem Numbers.distinct {keys : List α} (h : t.Numbers keys) : t.Distinct :=
  fun i j _ hi hj => (h.handle_iff i j (has_of_get? hi)).1 (hi.trans hj.symm)

theorem numbers_nil : ({} : Table k α).Numbers [] := numbers_of_toList rfl

/-- To intern a key is to number it after the others. -/
theorem Numbers.intern {keys : List α} (h : t.Numbers keys) (a : α) :
    (t.intern a).2.Numbers (keys ++ [a]) := by
  refine numbers_of_toList ?_
  rw [toList_intern, h.rows, eraseDups_concat]

/-- The key that was interned first has the handle zero. -/
theorem Numbers.get?_first {keys : List α} (h : t.Numbers (a :: keys)) : t.get? ⟨0⟩ = some a := by
  rw [get?_eq_toList, h.rows, List.eraseDups_cons]
  rfl

end Table

end PointerAnalysis
