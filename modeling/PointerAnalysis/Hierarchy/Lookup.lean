import PointerAnalysis.Hierarchy.Walk

/-!
# Method and field lookup

A member is looked up first along the chain of superclasses, then in the interfaces above that
chain, nearest first.  For methods a declaration with code wins over an abstract one, wherever they
stand.
-/

namespace PointerAnalysis

namespace Program

/-! ## Methods -/

/-- The method with code, or implemented outside, that a class declares for a subsignature. -/
def concreteMethod? (p : Program) (c : ClassId) (s : Subsignature) : Option MethodId :=
  (p.declaredMethod? c s).filter p.isConcrete

/-- The method that runs when `s` is called on an instance of `c`.

The first concrete declaration in the order of the search is taken.  If there is none, the answer
is the first abstract one. -/
def dispatch (p : Program) (c : ClassId) (s : Subsignature) : Outcome (Option MethodId) := do
  let chain ← p.superclassChain c
  let interfaces ← p.interfacesAbove chain
  let order := chain ++ interfaces
  return (order.findSome? (p.concreteMethod? · s)).or (order.findSome? (p.declaredMethod? · s))

/-- Dispatch on the type of an object.  Arrays have the methods of the root class. -/
def dispatchOnType (p : Program) (type : RefType) (s : Subsignature) :
    Outcome (Option MethodId) :=
  match type with
  | .cls c => p.dispatch c s
  | .array _ =>
    match p.root with
    | some root => p.dispatch root s
    | none => pure none

/-- The method a reference names. -/
def resolveMethod (p : Program) (r : MethodRef) : Outcome (Option MethodId) :=
  p.dispatch r.cls r.subsignature

/-! ## Fields -/

/-- The field a reference names: the first declaration on the chain of superclasses, or else in the
interfaces above it. -/
def resolveField (p : Program) (r : FieldRef) : Outcome FieldId := do
  let chain ← p.superclassChain r.cls
  let order ← walk p.interfaceLinks p.classes.size chain []
  match order.findSome? (p.declaredField? · r.name) with
  | some f => return f
  | none => .error (.error (.unresolvedField (← p.classAt r.cls).name r.name))

end Program

/-! ## Lookup of many classes -/

/-- What is known about one subsignature: for a class, the concrete method its chain of
superclasses declares, if any. -/
abbrev ChainMemo := List (ClassId × Option MethodId)

namespace ChainMemo

/-- Notes the answer for a class, in place of what was known of it. -/
def note (memo : ChainMemo) (c : ClassId) (found : Option MethodId) : ChainMemo :=
  (c, found) :: memo.filter fun known => known.1 ≠ c

/-- Climbs from a class to its superclass, and on from there, up to a class that is known or declares
the method.  The answers are the classes passed, without a known one, and the method found.

A class that is passed for the second time is not recognized.  On a cycle of superclasses the climb
goes round until there is no `room` to pass another class, and then nothing is found. -/
def climb (p : Program) (s : Subsignature) (memo : ChainMemo) :
    (room : Nat) → ClassId → Outcome (List ClassId × Option MethodId)
  | 0, c => pure ([], (memo.lookup c).join)
  | room + 1, c =>
    match memo.lookup c with
    | some known => pure ([], known)
    | none => do
      let decl ← p.classAt c
      match p.concreteMethod? c s, decl.superclass with
      | some m, _ => pure ([c], some m)
      | none, none => pure ([c], none)
      | none, some d =>
        let (passed, found) ← climb p s memo room d
        return (c :: passed, found)

/-- The concrete method that the chain of superclasses of `c` declares, and the memo with the
answer for each class passed.  Only a chain with a cycle passes more classes than there are. -/
def find (p : Program) (s : Subsignature) (memo : ChainMemo) (c : ClassId) :
    Outcome (Option MethodId × ChainMemo) := do
  let (passed, found) ← climb p s memo (p.classes.size + 1) c
  return (found, passed.foldl (fun memo c => memo.note c found) memo)

end ChainMemo

end PointerAnalysis
