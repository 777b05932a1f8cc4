/-!
# Ascending sets

A finite set over an ordered type, held as the strictly ascending list of its elements.  Sets of
references are small and grow by union, and every answer lists them in ascending order, so the
sorted list serves both.

`absorb` is the operation an analysis runs on: it adds one set to another and tells which elements
were new, in a single pass over both lists.
-/

namespace PointerAnalysis

/-- A finite set as an ascending list. -/
structure AscendingSet (α : Type) where
  elems : List α := []
deriving DecidableEq, Repr

namespace AscendingSet

variable {α : Type}

/-! ## Views -/

/-- The set without elements. -/
def empty : AscendingSet α := {}

instance : EmptyCollection (AscendingSet α) := ⟨empty⟩

/-- The set with one element. -/
def singleton (x : α) : AscendingSet α := ⟨[x]⟩

/-- The elements, ascending. -/
def toList (s : AscendingSet α) : List α := s.elems

/-- The number of elements. -/
def size (s : AscendingSet α) : Nat := s.elems.length

/-- Whether the set has no element. -/
def isEmpty (s : AscendingSet α) : Bool := s.elems.isEmpty

variable [LT α] [DecidableLT α]

/-! ## Elements -/

/-- Whether `x` stands in an ascending list; the search ends at the first greater element. -/
def standsIn (x : α) : List α → Bool
  | [] => false
  | y :: ys => if y < x then standsIn x ys else !decide (x < y)

/-- Membership. -/
def contains (s : AscendingSet α) (x : α) : Bool := standsIn x s.elems

/-- An ascending list with `x` put in its place, unless it is there. -/
def placeIn (x : α) : List α → List α
  | [] => [x]
  | y :: ys => if y < x then y :: placeIn x ys else if x < y then x :: y :: ys else y :: ys

/-- The set with `x` in it, and whether `x` is new there. -/
def insert (s : AscendingSet α) (x : α) : Bool × AscendingSet α :=
  (!s.contains x, ⟨placeIn x s.elems⟩)

/-- The set of the elements of any list. -/
def ofList (xs : List α) : AscendingSet α := xs.foldl (fun s x => (s.insert x).2) empty

/-! ## Sets against sets -/

/-- One step of `mergeNew`: the first list is `x :: xs`, and `merged` merges `xs` with a list. -/
def mergeHead (x : α) (xs : List α) (merged : List α → List α × List α) :
    List α → List α × List α
  | [] => (x :: xs, [])
  | y :: ys =>
    if x < y then
      let r := merged (y :: ys)
      (x :: r.1, r.2)
    else if y < x then
      let r := mergeHead x xs merged ys
      (y :: r.1, y :: r.2)
    else
      let r := merged ys
      (x :: r.1, r.2)

/-- The merge of two ascending lists, and the elements that only the second has. -/
def mergeNew : List α → List α → List α × List α
  | [] => fun ys => (ys, ys)
  | x :: xs => mergeHead x xs (mergeNew xs)

/-- The union of `s` and `t`, and the elements of `t` that `s` lacked.  A set that gets nothing new
is left as it is. -/
def absorb (s t : AscendingSet α) : AscendingSet α × AscendingSet α :=
  if t.isEmpty then (s, empty)
  else if s.isEmpty then (t, t)
  else
    let r := mergeNew s.elems t.elems
    (if r.2.isEmpty then s else ⟨r.1⟩, ⟨r.2⟩)

/-- The union of two sets. -/
def union (s t : AscendingSet α) : AscendingSet α := (s.absorb t).1

/-- Whether the elements of an ascending list stand in another one.  What lies below an element is
passed by for good, and so is the element once it is met. -/
def allStandIn : List α → List α → Bool
  | [], _ => true
  | x :: xs, ys =>
    match ys.dropWhile (· < x) with
    | [] => false
    | y :: ys => if x < y then false else allStandIn xs ys

/-- Inclusion.  A larger set is not looked through. -/
def isSubset (s t : AscendingSet α) : Bool :=
  if t.size < s.size then false else allStandIn s.elems t.elems

/-- One step of `meet`: the first list begins with `x`, and `rest` compares what is behind `x`. -/
def meetHead (x : α) (rest : List α → Bool) : List α → Bool
  | [] => false
  | y :: ys => if x < y then rest (y :: ys) else if y < x then meetHead x rest ys else true

/-- Whether two ascending lists share an element. -/
def meet : List α → List α → Bool
  | [] => fun _ => false
  | x :: xs => meetHead x (meet xs)

/-- Whether two sets share an element. -/
def intersects (s t : AscendingSet α) : Bool := meet s.elems t.elems

end AscendingSet

end PointerAnalysis
