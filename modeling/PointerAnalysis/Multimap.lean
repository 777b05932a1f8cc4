/-!
# Multimaps

A multimap lists, under each key, the values added for it, in the order they were added.  Indexes
over growing lists (the edges out of a node, the pointers of a variable) are multimaps.

## Main statement

- `get_add`: adding a value appends it to the list of its key and touches no other list.
-/

namespace PointerAnalysis

/-- Lists of values under keys; the keys stand in the order of their first value. -/
structure Multimap (κ ν : Type) where
  groups : List (κ × List ν) := []
deriving DecidableEq, Repr

namespace Multimap

variable {κ ν : Type} [DecidableEq κ]

/-- The values under a key in a list of groups. -/
def valuesIn (k : κ) : List (κ × List ν) → List ν
  | [] => []
  | (key, values) :: rest => if key = k then values else valuesIn k rest

/-- A list of groups with `v` appended to the group of `k`. -/
def addTo (k : κ) (v : ν) : List (κ × List ν) → List (κ × List ν)
  | [] => [(k, [v])]
  | (key, values) :: rest =>
    if key = k then (key, values ++ [v]) :: rest else (key, values) :: addTo k v rest

/-- The values added for a key, oldest first. -/
def get (m : Multimap κ ν) (k : κ) : List ν := valuesIn k m.groups

/-- Adds a value under a key. -/
def add (m : Multimap κ ν) (k : κ) (v : ν) : Multimap κ ν := ⟨addTo k v m.groups⟩

@[simp] theorem get_empty (k : κ) : ({} : Multimap κ ν).get k = [] := rfl

private theorem valuesIn_addTo (k k' : κ) (v : ν) (gs : List (κ × List ν)) :
    valuesIn k' (addTo k v gs) = if k' = k then valuesIn k gs ++ [v] else valuesIn k' gs := by
  -- either the first group is that of the key, or the value is added further on
  induction gs with
  | nil => by_cases h : k' = k <;> simp [addTo, valuesIn, h, Ne.symm]
  | cons g gs ih =>
    obtain ⟨key, values⟩ := g
    by_cases hk : key = k
    · subst hk
      by_cases h : k' = key
      · simp [addTo, valuesIn, h]
      · simp [addTo, valuesIn, h, Ne.symm h]
    · by_cases h : k' = k
      · subst h
        simp only [↓reduceIte] at ih
        simp [addTo, valuesIn, hk, ih]
      · simp only [h, if_false] at ih
        by_cases h' : key = k' <;> simp [addTo, valuesIn, hk, h, h', ih]

/-- A value is added at the end of the list of its key, and no other list changes. -/
theorem get_add (m : Multimap κ ν) (k k' : κ) (v : ν) :
    (m.add k v).get k' = if k' = k then m.get k ++ [v] else m.get k' :=
  valuesIn_addTo k k' v m.groups

end Multimap

end PointerAnalysis
