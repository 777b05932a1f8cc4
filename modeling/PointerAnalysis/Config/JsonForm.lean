import PointerAnalysis.Config.Basic
import PointerAnalysis.Json.Form

/-!
# JSON forms of configurations
-/

namespace PointerAnalysis

open Json

/-! ## Names -/

/-- The name of an order in documents. -/
def Order.text : Order → String
  | fifo => "fifo"
  | lifo => "lifo"

/-- The name of a kind of sensitivity in documents. -/
def Sensitivity.kindText : Sensitivity → String
  | insensitive => "insensitive"
  | callSite _ => "call_site"
  | object _ => "object"
  | type _ => "type"

/-- The sensitivity of a kind; `depth` tells the number of elements where one is needed. -/
def Sensitivity.ofKind? (kind : String) (depth : Unit → Option Nat) (noDepth : Bool) :
    Option Sensitivity :=
  match kind with
  | "insensitive" => if noDepth then some insensitive else none
  | "call_site" => callSite <$> depth ()
  | "object" => object <$> depth ()
  | "type" => type <$> depth ()
  | _ => none

/-! ## Forms -/

instance : JsonForm Preset where
  toJson preset := str preset.text
  read? := oneOf? Preset.all Preset.text

instance : JsonForm Order where
  toJson order := str order.text
  read? := oneOf? [.fifo, .lifo] Order.text

/-- A sensitivity is a record whose first field, `kind`, tells which other fields there are. -/
instance : JsonForm Sensitivity where
  toJson σ :=
    match σ with
    | .insensitive => obj [("kind", str σ.kindText)]
    | .callSite k | .object k | .type k => obj [("kind", str σ.kindText), ("k", nat k)]
  read? room j :=
    if !j.isSound room then none
    else match j with
      | .obj members => do
        let kind ← JsonForm.read? 0 (← (← onlyMember? members "kind"))
        let depth := fun () => do
          JsonForm.read? 0 (← (← onlyMember? members "k"))
        Sensitivity.ofKind? kind depth true
      | .arr (kind :: rest) => do
        let depth := fun () =>
          match rest with
          | [k] => JsonForm.read? 0 k
          | _ => none
        Sensitivity.ofKind? (← JsonForm.read? 0 kind) depth rest.isEmpty
      | _ => none

/-- Every setting may be left out and then is that of the default configuration. -/
instance : JsonForm Config where
  toJson c :=
    obj [("sensitivity", toJson c.sensitivity), ("worklist_order", toJson c.order),
      ("max_worklist_entries", toJson c.budget)]
  read? room j := do
    let fields ← Fields.ofJson? ["sensitivity", "worklist_order", "max_worklist_entries"] room j
    let d : Config := default
    return { sensitivity := ← fields.withDefault? "sensitivity" d.sensitivity
             order := ← fields.withDefault? "worklist_order" d.order
             budget := ← fields.withDefault? "max_worklist_entries" d.budget }

end PointerAnalysis
