import PointerAnalysis.Program.JsonForm
import PointerAnalysis.Result.Summary

/-!
# JSON forms of what an analysis finds
-/

namespace PointerAnalysis

open Json

/-! ## Contexts, objects and pointers -/

instance : JsonForm ContextElem where
  toJson
    | .site s => tagged "CallSite" (toJson s)
    | .object o => tagged "Object" (toJson o)
    | .cls c => tagged "Type" (toJson c)
  read? room j := do
    let c ← case? room j
    match c.name with
    | "CallSite" => return .site (← c.content?)
    | "Object" => return .object (← c.content?)
    | "Type" => return .cls (← c.content?)
    | _ => none

/-- The JSON form of an entity under a context. -/
def Qualified.toJson {k : Kind} (name : String) (q : Qualified (Handle k)) : Json :=
  obj [("context", PointerAnalysis.toJson q.context), (name, PointerAnalysis.toJson q.entity)]

/-- Reads an entity under a context. -/
def Qualified.read? {k : Kind} (name : String) (room : Nat) (j : Json) :
    Option (Qualified (Handle k)) := do
  let fields ← Fields.ofJson? ["context", name] room j
  return { context := ← fields.required? "context", entity := ← fields.required? name }

instance : JsonForm (Qualified ObjId) where
  toJson := Qualified.toJson "obj"
  read? := Qualified.read? "obj"

instance : JsonForm (Qualified StmtId) where
  toJson := Qualified.toJson "call_site"
  read? := Qualified.read? "call_site"

instance : JsonForm (Qualified MethodId) where
  toJson := Qualified.toJson "method"
  read? := Qualified.read? "method"

instance : JsonForm Pointer where
  toJson
    | .var context v => tagged "Var" (obj [("context", toJson context), ("var", toJson v)])
    | .staticField f => tagged "StaticField" (obj [("field", toJson f)])
    | .instanceField base f =>
      tagged "InstanceField" (obj [("base", toJson base), ("field", toJson f)])
    | .arrayElems base => tagged "ArrayIndex" (obj [("base", toJson base)])
  read? room j := do
    let c ← case? room j
    match c.name with
    | "Var" =>
      let fields ← c.fields? ["context", "var"]
      return .var (← fields.required? "context") (← fields.required? "var")
    | "StaticField" =>
      let fields ← c.fields? ["field"]
      return .staticField (← fields.required? "field")
    | "InstanceField" =>
      let fields ← c.fields? ["base", "field"]
      return .instanceField (← fields.required? "base") (← fields.required? "field")
    | "ArrayIndex" =>
      let fields ← c.fields? ["base"]
      return .arrayElems (← fields.required? "base")
    | _ => none

instance : JsonForm Obj where
  toJson o :=
    obj [("id", toJson o.id), ("site", toJson o.site), ("ty", toJson o.type),
      ("container", toJson o.container), ("container_class", toJson o.containerClass)]
  read? room j := do
    let fields ← Fields.ofJson? ["id", "site", "ty", "container", "container_class"] room j
    return { id := ← fields.required? "id"
             site := ← fields.required? "site"
             type := ← fields.required? "ty"
             container := ← fields.required? "container"
             containerClass := ← fields.required? "container_class" }

/-- Sets are written as the list of their elements, and read as the list that is given. -/
instance {k : Kind} : JsonForm (AscendingSet (Handle k)) where
  toJson s := obj [("ids", toJson s.elems)]
  read? room j := do
    let fields ← Fields.ofJson? ["ids"] room j
    return ⟨← fields.required? "ids"⟩

/-- A points-to set as a document of its own. -/
structure PointsToDocument where
  objs : PointsTo
deriving DecidableEq, Repr

instance : JsonForm PointsToDocument where
  toJson d := obj [("bits", toJson d.objs)]
  read? room j := do
    let fields ← Fields.ofJson? ["bits"] room j
    return ⟨← fields.required? "bits"⟩

/-! ## Summaries -/

instance : JsonForm Stats where
  toJson s :=
    obj [("sensitivity", toJson s.sensitivity), ("reachable_methods", toJson s.reachableMethods),
      ("cs_methods", toJson s.qualifiedMethods), ("pointers", toJson s.pointers),
      ("objects", toJson s.objects), ("cs_objects", toJson s.qualifiedObjects),
      ("contexts", toJson s.contexts), ("pfg_edges", toJson s.flowEdges),
      ("call_edges", toJson s.callEdges), ("worklist_entries", toJson s.processed),
      ("duration_ms", toJson s.durationMs), ("completed", toJson s.completed)]
  read? room j := do
    let fields ← Fields.ofJson?
      ["sensitivity", "reachable_methods", "cs_methods", "pointers", "objects", "cs_objects",
        "contexts", "pfg_edges", "call_edges", "worklist_entries", "duration_ms", "completed"]
      room j
    return { sensitivity := ← fields.required? "sensitivity"
             reachableMethods := ← fields.required? "reachable_methods"
             qualifiedMethods := ← fields.required? "cs_methods"
             pointers := ← fields.required? "pointers"
             objects := ← fields.required? "objects"
             qualifiedObjects := ← fields.required? "cs_objects"
             contexts := ← fields.required? "contexts"
             flowEdges := ← fields.required? "pfg_edges"
             callEdges := ← fields.required? "call_edges"
             processed := ← fields.required? "worklist_entries"
             durationMs := ← fields.required? "duration_ms"
             completed := ← fields.required? "completed" }

instance : JsonForm CallSummary where
  toJson e :=
    obj [("caller", toJson e.caller), ("call_site", toJson e.callSite), ("kind", toJson e.kind),
      ("callee", toJson e.callee)]
  read? room j := do
    let fields ← Fields.ofJson? ["caller", "call_site", "kind", "callee"] room j
    return { caller := ← fields.required? "caller"
             callSite := ← fields.required? "call_site"
             kind := ← fields.required? "kind"
             callee := ← fields.required? "callee" }

/-- The JSON form of lists under names. -/
def NamedLists.toJson (lists : NamedLists) : Json :=
  obj (lists.map fun (name, texts) => (name, PointerAnalysis.toJson texts))

/-- Reads lists under names.  Of several lists under one name the last is taken. -/
def NamedLists.read? (room : Nat) : Json → Option NamedLists
  | .obj members => enter? room fun room =>
    members.foldlM
      (fun lists (name, j) => do return put name (← JsonForm.read? room j) lists) []
  | _ => none

instance : JsonForm Summary where
  toJson s :=
    obj [("stats", toJson s.stats), ("reachable_methods", toJson s.reachableMethods),
      ("call_edges", toJson s.callEdges), ("points_to", NamedLists.toJson s.pointsTo)]
  read? room j := do
    let fields ← Fields.ofJson? ["stats", "reachable_methods", "call_edges", "points_to"] room j
    return { stats := ← fields.required? "stats"
             reachableMethods := ← fields.required? "reachable_methods"
             callEdges := ← fields.required? "call_edges"
             pointsTo := ← NamedLists.read? fields.room (← fields.given.lookup "points_to") }

/-- The summary of a result as indented JSON text. -/
def Result.toJsonText (r : Result) (p : Program) : Outcome String := do
  return Json.pretty (toJson (← r.summary p))

end PointerAnalysis
