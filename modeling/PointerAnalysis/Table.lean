import PointerAnalysis.Handle

/-!
# Tables

A table is the list of all entities of one kind, addressed by handles.  Tables only grow, so a
handle that names a row keeps naming it.  `intern` adds a row unless an equal one is there, and so
gives every distinct value exactly one handle.

## Main statements

- `get?_push`: a new row is read back under the next handle and no other row changes.
- `get?_find?`: a search answers with the handle of a row that satisfies the test.
-/

namespace PointerAnalysis

/-- Entities of kind `k` in the order of their creation. -/
structure Table (k : Kind) (α : Type) where
  rows : Array α := #[]
deriving DecidableEq, Repr

namespace Table

variable {k : Kind} {α : Type}

/-! ## Reading -/

/-- The number of rows. -/
def size (t : Table k α) : Nat := t.rows.size

/-- The row a handle names, if it names one. -/
def get? (t : Table k α) (h : Handle k) : Option α := t.rows[h.index]?

/-- Whether a handle names a row. -/
def Has (t : Table k α) (h : Handle k) : Prop := h.index < t.size

instance (t : Table k α) (h : Handle k) : Decidable (t.Has h) :=
  inferInstanceAs (Decidable (h.index < t.size))

/-- The rows in the order of their handles. -/
def toList (t : Table k α) : List α := t.rows.toList

/-- All handles that name a row, ascending. -/
def handles (t : Table k α) : List (Handle k) := (List.range t.size).map Handle.mk

/-- The rows with their handles, ascending. -/
def entries (t : Table k α) : List (Handle k × α) :=
  t.toList.zipIdx.map fun (a, i) => (⟨i⟩, a)

/-- The position of the first row among the last `n` that satisfies `p`. -/
def findAmongLast (rows : Array α) (p : α → Bool) : Nat → Option Nat
  | 0 => none
  | n + 1 =>
    match rows[rows.size - (n + 1)]? with
    | some a => if p a then some (rows.size - (n + 1)) else findAmongLast rows p n
    | none => findAmongLast rows p n

/-- The handle of the first row that satisfies `p`. -/
def find? (t : Table k α) (p : α → Bool) : Option (Handle k) :=
  (findAmongLast t.rows p t.size).map Handle.mk

/-! ## Growing -/

/-- The handle the next row gets. -/
def next (t : Table k α) : Handle k := ⟨t.size⟩

/-- Adds a row under the handle `next`. -/
def push (t : Table k α) (a : α) : Table k α := ⟨t.rows.push a⟩

/-- Changes the row a handle names; a handle that names none changes nothing. -/
def modify (t : Table k α) (h : Handle k) (f : α → α) : Table k α := ⟨t.rows.modify h.index f⟩

/-- The handle of the row `a`, which is added if no row equals it. -/
def intern [DecidableEq α] (t : Table k α) (a : α) : Handle k × Table k α :=
  match t.find? (fun b => b = a) with
  | some h => (h, t)
  | none => (t.next, t.push a)

/-! ## Laws -/

@[simp] theorem size_push (t : Table k α) (a : α) : (t.push a).size = t.size + 1 := by
  simp [size, push]

@[simp] theorem size_modify (t : Table k α) (h : Handle k) (f : α → α) :
    (t.modify h f).size = t.size := by
  simp [size, modify]

@[simp] theorem toList_push (t : Table k α) (a : α) : (t.push a).toList = t.toList ++ [a] := by
  simp [toList, push]

/-- A new row is read back under the next handle, and no other row changes. -/
theorem get?_push (t : Table k α) (a : α) (h : Handle k) :
    (t.push a).get? h = if h = t.next then some a else t.get? h := by
  by_cases e : h = t.next
  · subst e; simp [get?, push, next, size]
  · have : h.index ≠ t.rows.size := fun c => e (Handle.ext c)
    simp [get?, push, e, Array.getElem?_push, this]

/-- Rows are read under exactly the handles below the size. -/
theorem get?_eq_none_iff {t : Table k α} {h : Handle k} : t.get? h = none ↔ ¬ t.Has h := by
  simp [get?, Has, size]

/-- A handle under which a row is read names one. -/
theorem has_of_get? {t : Table k α} {h : Handle k} {a : α} (e : t.get? h = some a) : t.Has h := by
  have := Array.getElem?_eq_some_iff.1 e
  exact this.1

private theorem findAmongLast_eq_some {rows : Array α} {p : α → Bool} {n i : Nat}
    (e : findAmongLast rows p n = some i) : ∃ a, rows[i]? = some a ∧ p a = true := by
  -- the search goes on to the next row until one passes the test
  induction n with
  | zero => simp [findAmongLast] at e
  | succ n ih =>
    unfold findAmongLast at e
    split at e
    · rename_i a ha
      split at e
      · rename_i hp
        cases e
        exact ⟨a, ha, hp⟩
      · exact ih e
    · exact ih e

/-- A search answers with a row that satisfies the test. -/
theorem get?_find? {t : Table k α} {p : α → Bool} {h : Handle k} (e : t.find? p = some h) :
    ∃ a, t.get? h = some a ∧ p a = true := by
  obtain ⟨i, hi, rfl⟩ := Option.map_eq_some_iff.1 e
  exact findAmongLast_eq_some hi

end Table

end PointerAnalysis
