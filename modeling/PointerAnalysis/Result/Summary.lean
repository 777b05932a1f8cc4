import PointerAnalysis.Result.Basic

/-!
# Summaries

A summary shows the result of an analysis by readable names: the reachable methods, the calls
between them, and what each variable may refer to.
-/

namespace PointerAnalysis

/-- A call by names. -/
structure CallSummary where
  caller : String
  callSite : String
  kind : CallKind
  callee : String
deriving DecidableEq, Repr

/-- Lists of texts under names, in the ascending order of the names. -/
abbrev NamedLists := List (String × List String)

/-- The lists with one added; a list that stands under the name is replaced. -/
def NamedLists.put (name : String) (texts : List String) : NamedLists → NamedLists
  | [] => [(name, texts)]
  | (key, old) :: rest =>
    if key < name then (key, old) :: put name texts rest
    else if name < key then (name, texts) :: (key, old) :: rest
    else (name, texts) :: rest

/-- A result by names. -/
structure Summary where
  stats : Stats
  reachableMethods : List String
  callEdges : List CallSummary
  /-- The objects that each variable may refer to.  Variables that refer to nothing are left
  out. -/
  pointsTo : NamedLists

namespace Result

/-- An edge of the call graph without contexts, by names. -/
def callSummary (p : Program) (e : CallEdge StmtId MethodId) : Outcome CallSummary := do
  return {
    caller := ← p.methodSignature (← p.ownerOf e.site)
    callSite := e.site.text
    kind := e.kind
    callee := ← p.methodSignature e.callee }

/-- Adds what a variable may refer to, unless its name is taken. -/
def addPointsTo (r : Result) (p : Program) (lists : NamedLists) (v : VarId) :
    Outcome NamedLists := do
  let name ← p.varName v
  if (lists.lookup name).isSome then
    return lists
  else
    let labels ← (← r.pointsTo v).toList.mapM (r.objLabel p)
    if labels.isEmpty then
      return lists
    else
      return NamedLists.put name labels lists

/-- The summary of a result. -/
def summary (r : Result) (p : Program) : Outcome Summary := do
  let g ← r.plainCallGraph
  let reachableMethods ← g.reachable.mapM p.methodSignature
  let callEdges ← g.edges.mapM (callSummary p)
  let vars := r.output.world.pointers.toList.filterMap fun key => key.var?.map Prod.snd
  let pointsTo ← vars.foldlM (r.addPointsTo p) []
  return { stats := r.stats, reachableMethods, callEdges, pointsTo }

end Result

end PointerAnalysis
