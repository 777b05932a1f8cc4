import PointerAnalysis.Json.Form
import PointerAnalysis.Program.Statement

/-!
# JSON forms of types, references and statements
-/

namespace PointerAnalysis

open Json

/-! ## Types and references -/

/-- The JSON form of a type. -/
def RefType.toJson : RefType → Json
  | .cls c => tagged "Class" (PointerAnalysis.toJson c)
  | .array elem => tagged "Array" elem.toJson

/-- Reads a type; every array level opens a container. -/
def RefType.read? : (room : Nat) → Json → Option RefType
  | room + 1, .obj [(name, j)] =>
    if name = "Class" then .cls <$> JsonForm.read? room j
    else if name = "Array" then .array <$> RefType.read? room j
    else none
  | _, _ => none

instance : JsonForm RefType where
  toJson := RefType.toJson
  read? := RefType.read?

instance : JsonForm Subsignature where
  toJson s := str s.text
  read? room j := Subsignature.mk <$> JsonForm.read? room j

instance : JsonForm MethodRef where
  toJson r := obj [("class", toJson r.cls), ("subsignature", toJson r.subsignature)]
  read? room j := do
    let fields ← Fields.ofJson? ["class", "subsignature"] room j
    return { cls := ← fields.required? "class"
             subsignature := ← fields.required? "subsignature" }

instance : JsonForm FieldRef where
  toJson r := obj [("class", toJson r.cls), ("name", toJson r.name)]
  read? room j := do
    let fields ← Fields.ofJson? ["class", "name"] room j
    return { cls := ← fields.required? "class", name := ← fields.required? "name" }

/-! ## Calls -/

/-- All kinds of calls. -/
def CallKind.all : List CallKind := [static, special, virtual, interface, dynamic]

/-- The name of a call kind in JSON. -/
def CallKind.jsonName : CallKind → String
  | static => "Static"
  | special => "Special"
  | virtual => "Virtual"
  | interface => "Interface"
  | dynamic => "Dynamic"

instance : JsonForm CallKind where
  toJson kind := str kind.jsonName
  read? := oneOf? CallKind.all CallKind.jsonName

instance : JsonForm Invoke where
  toJson call :=
    obj [("kind", toJson call.kind), ("method_ref", toJson call.methodRef),
      ("receiver", toJson call.receiver), ("args", toJson call.args),
      ("result", toJson call.result)]
  read? room j := do
    let fields ← Fields.ofJson? ["kind", "method_ref", "receiver", "args", "result"] room j
    return { kind := ← fields.required? "kind"
             methodRef := ← fields.required? "method_ref"
             receiver := ← fields.optional? "receiver"
             args := ← fields.required? "args"
             result := ← fields.optional? "result" }

/-! ## Statements -/

/-- The JSON form of a statement. -/
def Stmt.toJson : Stmt → Json
  | alloc lhs type =>
    tagged "New" (obj [("lhs", PointerAnalysis.toJson lhs), ("ty", PointerAnalysis.toJson type)])
  | copy lhs rhs =>
    tagged "Copy" (obj [("lhs", PointerAnalysis.toJson lhs), ("rhs", PointerAnalysis.toJson rhs)])
  | load lhs base field =>
    tagged "LoadField"
      (obj [("lhs", PointerAnalysis.toJson lhs), ("base", PointerAnalysis.toJson base),
        ("field", PointerAnalysis.toJson field)])
  | store base field rhs =>
    tagged "StoreField"
      (obj [("base", PointerAnalysis.toJson base), ("field", PointerAnalysis.toJson field),
        ("rhs", PointerAnalysis.toJson rhs)])
  | loadArray lhs base =>
    tagged "LoadArray"
      (obj [("lhs", PointerAnalysis.toJson lhs), ("base", PointerAnalysis.toJson base)])
  | storeArray base rhs =>
    tagged "StoreArray"
      (obj [("base", PointerAnalysis.toJson base), ("rhs", PointerAnalysis.toJson rhs)])
  | invoke call => tagged "Invoke" (PointerAnalysis.toJson call)
  | ret value => tagged "Return" (obj [("value", PointerAnalysis.toJson value)])
  | nop => str "Nop"

/-- Reads a statement. -/
def Stmt.read? (room : Nat) (j : Json) : Option Stmt := do
  let c ← case? room j
  match c.name with
  | "New" =>
    let fields ← c.fields? ["lhs", "ty"]
    return alloc (← fields.required? "lhs") (← fields.required? "ty")
  | "Copy" =>
    let fields ← c.fields? ["lhs", "rhs"]
    return copy (← fields.required? "lhs") (← fields.required? "rhs")
  | "LoadField" =>
    let fields ← c.fields? ["lhs", "base", "field"]
    return load (← fields.required? "lhs") (← fields.optional? "base") (← fields.required? "field")
  | "StoreField" =>
    let fields ← c.fields? ["base", "field", "rhs"]
    return store (← fields.optional? "base") (← fields.required? "field")
      (← fields.required? "rhs")
  | "LoadArray" =>
    let fields ← c.fields? ["lhs", "base"]
    return loadArray (← fields.required? "lhs") (← fields.required? "base")
  | "StoreArray" =>
    let fields ← c.fields? ["base", "rhs"]
    return storeArray (← fields.required? "base") (← fields.required? "rhs")
  | "Invoke" => return invoke (← c.content?)
  | "Return" =>
    let fields ← c.fields? ["value"]
    return ret (← fields.optional? "value")
  | "Nop" => if c.isPlain then return nop else none
  | _ => none

instance : JsonForm Stmt where
  toJson := Stmt.toJson
  read? := Stmt.read?

end PointerAnalysis
