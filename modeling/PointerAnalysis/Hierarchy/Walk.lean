import PointerAnalysis.Program.Basic

/-!
# Walks through the class hierarchy

A walk visits classes breadth-first along links and visits each class once.  The supertypes of a
class, its subtypes and its chain of superclasses are all visited by walks, which differ in the
links they follow.  Since no class is visited twice, a walk ends also in a hierarchy with cycles.
-/

namespace PointerAnalysis

namespace Program

/-! ## Links -/

/-- The superclass of a class, as a list of at most one. -/
def superclassLinks (p : Program) (c : ClassId) : Outcome (List ClassId) := do
  return (← p.classAt c).superclass.toList

/-- The interfaces a class implements or an interface extends. -/
def interfaceLinks (p : Program) (c : ClassId) : Outcome (List ClassId) := do
  return (← p.classAt c).interfaces

/-- The direct supertypes of a class: its superclass, then its interfaces. -/
def supertypeLinks (p : Program) (c : ClassId) : Outcome (List ClassId) := do
  let decl ← p.classAt c
  return decl.superclass.toList ++ decl.interfaces

/-- The classes that extend `c` directly, ascending. -/
def directSubclasses (p : Program) (c : ClassId) : Outcome (List ClassId) := do
  let _ ← p.classAt c
  return p.classes.entries.filterMap fun (d, decl) =>
    if decl.superclass = some c then some d else none

/-- The entries for `c` in the interface lists of the classes that satisfy a test: ascending, and a
class occurs as often as it lists `c`. -/
def listingInterface (p : Program) (c : ClassId) (test : ClassDecl → Bool) :
    Outcome (List ClassId) := do
  let _ ← p.classAt c
  return p.classes.entries.flatMap fun (d, decl) =>
    if test decl then List.replicate (decl.interfaces.count c) d else []

/-- The interfaces that extend `c` directly. -/
def directSubinterfaces (p : Program) (c : ClassId) : Outcome (List ClassId) :=
  p.listingInterface c fun decl => decl.isInterface

/-- The classes that implement `c` directly. -/
def directImplementors (p : Program) (c : ClassId) : Outcome (List ClassId) :=
  p.listingInterface c fun decl => !decl.isInterface

/-- The direct subtypes of a class: subclasses, then subinterfaces, then implementing classes. -/
def subtypeLinks (p : Program) (c : ClassId) : Outcome (List ClassId) := do
  return (← p.directSubclasses c) ++ (← p.directSubinterfaces c) ++ (← p.directImplementors c)

/-! ## Walks -/

/-- The classes a breadth-first walk visits, in order.

The walk goes on from `queue` and passes over the classes `seen` before.  It visits at most `room`
classes; there is room for all if `room` is at least the number of classes not yet seen. -/
def walk (links : ClassId → Outcome (List ClassId)) :
    (room : Nat) → (queue seen : List ClassId) → Outcome (List ClassId)
  | 0, _, _ => pure []
  | room + 1, queue, seen =>
    match queue.dropWhile fun c => decide (c ∈ seen) with
    | [] => pure []
    | c :: rest => do
      let found ← links c
      let later ← walk links room (rest ++ found) (c :: seen)
      return c :: later

/-- The chain of superclasses of a class, beginning with the class itself. -/
def superclassChain (p : Program) (c : ClassId) : Outcome (List ClassId) :=
  walk p.superclassLinks p.classes.size [c] []

/-- The interfaces above a chain of classes: first those that the classes of the chain list. -/
def interfacesAbove (p : Program) (chain : List ClassId) : Outcome (List ClassId) := do
  let listed ← chain.mapM p.interfaceLinks
  walk p.interfaceLinks p.classes.size listed.flatten chain

/-- All subtypes of a class, beginning with the class itself. -/
def subtypes (p : Program) (c : ClassId) : Outcome (List ClassId) :=
  walk p.subtypeLinks p.classes.size [c] []

/-- Whether `sub` is `sup` or extends or implements it, directly or not. -/
def isSubtype (p : Program) (sub sup : ClassId) : Outcome Bool :=
  if sub = sup then pure true else do
    return sup ∈ (← walk p.supertypeLinks p.classes.size [sub] [])

end Program

end PointerAnalysis
