import PointerAnalysis.Universe

/-!
# Work lists

The work list of an analysis holds sets of objects on their way to a pointer.  Either the oldest or
the newest entry is taken first.

## Main statements

- `toList_push`: a new entry becomes the newest.
- `toList_pop?`: taking an entry removes it from the end that the order of the list names.
-/

namespace PointerAnalysis

/-- Which entry of a work list is taken first. -/
inductive Order where
  /-- The oldest. -/
  | fifo
  /-- The newest. -/
  | lifo
deriving DecidableEq, Repr

/-- Objects on their way to a pointer. -/
structure Delivery where
  target : PointerId
  objs : PointsTo
deriving DecidableEq, Repr

/-- Deliveries that wait.  The older ones stand in `front`, oldest first, the newer ones in `back`,
newest first. -/
structure WorkList where
  order : Order
  front : List Delivery := []
  back : List Delivery := []
deriving DecidableEq, Repr

namespace WorkList

/-- The deliveries, oldest first. -/
def toList (w : WorkList) : List Delivery := w.front ++ w.back.reverse

/-- The number of deliveries. -/
def size (w : WorkList) : Nat := w.front.length + w.back.length

/-- Whether nothing waits. -/
def isEmpty (w : WorkList) : Bool := w.front.isEmpty && w.back.isEmpty

/-- Adds a delivery. -/
def push (w : WorkList) (d : Delivery) : WorkList := { w with back := d :: w.back }

/-- The oldest delivery, and the rest. -/
def popOldest? (w : WorkList) : Option (Delivery × WorkList) :=
  match w.front with
  | d :: front => some (d, { w with front })
  | [] =>
    match w.back.reverse with
    | d :: front => some (d, { w with front, back := [] })
    | [] => none

/-- The newest delivery, and the rest. -/
def popNewest? (w : WorkList) : Option (Delivery × WorkList) :=
  match w.back with
  | d :: back => some (d, { w with back })
  | [] =>
    match w.front.reverse with
    | d :: back => some (d, { w with front := [], back })
    | [] => none

/-- The delivery that is to be taken first, and the rest. -/
def pop? (w : WorkList) : Option (Delivery × WorkList) :=
  match w.order with
  | .fifo => w.popOldest?
  | .lifo => w.popNewest?

/-! ## Laws -/

/-- A new entry is the newest. -/
@[simp] theorem toList_push (w : WorkList) (d : Delivery) :
    (w.push d).toList = w.toList ++ [d] := by
  simp [toList, push]

/-- The oldest entry is taken from the front of the list. -/
theorem popOldest?_eq_some {w w' : WorkList} {d : Delivery} (h : w.popOldest? = some (d, w')) :
    w.toList = d :: w'.toList ∧ w'.order = w.order := by
  unfold popOldest? at h
  split at h
  · rename_i e; cases h; simp [toList, e]
  · -- nothing is left in `front`, so all of `back` is turned over
    rename_i e
    split at h
    · rename_i e'; cases h; simp [toList, e, e']
    · cases h

/-- The newest entry is taken from the back of the list. -/
theorem popNewest?_eq_some {w w' : WorkList} {d : Delivery} (h : w.popNewest? = some (d, w')) :
    w.toList = w'.toList ++ [d] ∧ w'.order = w.order := by
  unfold popNewest? at h
  split at h
  · rename_i e; cases h; simp [toList, e]
  · rename_i e
    split at h
    · rename_i e'
      cases h
      have := congrArg List.reverse e'
      simp only [List.reverse_reverse, List.reverse_cons] at this
      simp [toList, e, this]
    · cases h

/-- Taking an entry removes it from one end of the list. -/
theorem toList_pop? {w w' : WorkList} {d : Delivery} (h : w.pop? = some (d, w')) :
    w.toList = match w.order with
      | .fifo => d :: w'.toList
      | .lifo => w'.toList ++ [d] := by
  unfold pop? at h
  split at h
  · exact (popOldest?_eq_some h).1
  · exact (popNewest?_eq_some h).1

end WorkList

end PointerAnalysis
