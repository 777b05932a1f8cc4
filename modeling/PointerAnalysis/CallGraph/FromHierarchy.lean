import PointerAnalysis.CallGraph.Basic
import PointerAnalysis.Hierarchy.Lookup

/-!
# Call graphs from the class hierarchy

A coarse call graph that looks at declared types only: a call with dynamic dispatch may reach the
method of every subtype of the declared class.  No objects are followed.
-/

namespace PointerAnalysis

namespace Program

/-! ## Targets of one call -/

/-- The concrete method called on each of a list of classes, where there is one.

The memo is handed from class to class, so that a chain of superclasses shared by many of them is
walked once.  Interfaces are searched only for classes whose chain declares nothing. -/
def targetsIn (p : Program) (s : Subsignature) (memo : ChainMemo) :
    List ClassId → Outcome (List MethodId)
  | [] => pure []
  | c :: rest => do
    let (found, memo) ← memo.find p s c
    let target ← match found with
      | some m => pure (some m)
      | none => p.dispatch c s
    let later ← targetsIn p s memo rest
    return (target.filter p.isConcrete).toList ++ later

/-- A list without the later ones of equal elements. -/
def firstOccurrences {α : Type} [DecidableEq α] (xs : List α) : List α :=
  xs.foldl (fun kept x => if x ∈ kept then kept else kept ++ [x]) []

/-- The methods a call may reach, judged by the class it names. -/
def hierarchyTargets (p : Program) (call : Invoke) : Outcome (List MethodId) := do
  match call.kind with
  | .static | .special =>
    return ((← p.resolveMethod call.methodRef).filter p.isConcrete).toList
  | .virtual | .interface =>
    let subtypes ← p.subtypes call.methodRef.cls
    return firstOccurrences (← p.targetsIn call.methodRef.subsignature [] subtypes)
  | .dynamic => return []

/-! ## The graph -/

/-- Adds the calls from one statement, and makes their targets reachable. -/
def addCallsOf (p : Program) (g : CallGraph StmtId MethodId) (s : StmtId) :
    Outcome (CallGraph StmtId MethodId) := do
  match (← p.stmtAt s).call? with
  | none => return g
  | some call =>
    let targets ← p.hierarchyTargets call
    return targets.foldl (fun g m => ((g.addEdge ⟨call.kind, s, m⟩).2.reach m).2) g

/-- Visits the reachable methods from the `i`-th on, at most `room` of them, and adds the calls of
each. -/
def exploreCalls (p : Program) :
    (room i : Nat) → CallGraph StmtId MethodId → Outcome (CallGraph StmtId MethodId)
  | 0, _, g => pure g
  | room + 1, i, g =>
    match g.reachable[i]? with
    | none => pure g
    | some m => do
      let decl ← p.methodAt m
      let g ← (decl.body.elim [] Body.stmts).foldlM p.addCallsOf g
      exploreCalls p room (i + 1) g

/-- The call graph that the class hierarchy allows, from the entry method on.

Every method is visited once, so the number of methods is room enough. -/
def hierarchyCallGraph (p : Program) : Outcome (CallGraph StmtId MethodId) :=
  p.exploreCalls p.methods.size 0 (({} : CallGraph StmtId MethodId).addEntry p.entry)

end Program

end PointerAnalysis
