import PointerAnalysis.Config.JsonForm
import PointerAnalysis.Yaml.Meaning

/-!
# Configuration documents

A configuration is written and read as a YAML document, a mapping with one entry for each setting.
When it is read, settings may be left out, and entries that are no settings are passed over.
-/

namespace PointerAnalysis

open Yaml

/-! ## Settings -/

/-- The order of a name. -/
def Order.ofNode? (n : Node) : Option Order := do
  let name ← n.text?
  [fifo, lifo].find? fun order => order.text = name

/-- Reads a budget: an integer without a sign, or a plain null. -/
def budgetOfNode? (n : Node) : Option (Option Nat) := do
  match ← n.meaning? with
  | .null => return none
  | .nat n => return some n
  | _ => none

namespace Sensitivity

/-- How many collections may be nested in a sensitivity. -/
def maxNesting : Nat := 127

/-- Whether the key of an entry is that of the depth, which is also known by the number zero.  Only
texts and numbers without a sign are keys. -/
def isDepthKey? (key : Node) : Option Bool := do
  match ← key.meaning? with
  | .text s => return s = "k"
  | .nat n => return n = 0
  | _ => none

/-- Reads a depth, an integer that is not negative. -/
def depthOfNode? (n : Node) : Option Nat := do
  match ← n.meaning? with
  | .nat n => return n
  | .neg 0 => return 0
  | _ => none

/-- The depth among the entries beside the kind. -/
def depthOfEntries? (entries : List (Node × Node)) : Option Nat := do
  let marked ← entries.mapM fun (key, value) => do return (← isDepthKey? key, value)
  match marked.filter Prod.fst with
  | [(_, value)] => depthOfNode? value
  | _ => none

/-- A sensitivity is a mapping with its kind and its depth, or a sequence of these two. -/
def ofNode? (n : Node) : Option Sensitivity :=
  match n with
  | .map entries => do
    let (kinds, others) := entries.partition fun (key, _) => key.meaning? = some (.text "kind")
    if !(Node.map others).isSound maxNesting then none
    match kinds with
    | [(_, kind)] => ofKind? (← kind.text?) (fun _ => depthOfEntries? others) true
    | _ => none
  | .seq (kind :: others) => do
    if !(Node.seq others).isSound maxNesting then none
    let depth := fun () =>
      match others with
      | [k] => depthOfNode? k
      | _ => none
    ofKind? (← kind.text?) depth others.isEmpty
  | _ => none

end Sensitivity

/-! ## Configurations -/

namespace Config

/-- The setting of a name, or the default if it is left out. -/
def setting? {α : Type} (members : List (String × Node)) (name : String) (ofNode? : Node → Option α)
    (value : α) : Option α := do
  match ← onlyMember? members name with
  | some n => ofNode? n
  | none => return value

/-- The configuration that a document shows. -/
def ofNode? (n : Node) : Option Config :=
  match n with
  | .map entries => do
    let members ← entries.mapM fun (key, value) => do return (← key.text?, value)
    let d : Config := default
    return { sensitivity := ← setting? members "sensitivity" Sensitivity.ofNode? d.sensitivity
             order := ← setting? members "worklist_order" Order.ofNode? d.order
             budget := ← setting? members "max_worklist_entries" budgetOfNode? d.budget }
  | .scalar true "" => some default
  | _ => none

/-- The configuration that a text shows, which must not be refused.  A text without a document shows
the default configuration. -/
def ofYaml (text : String) : Except ConfigError Config :=
  match Node.ofText? text with
  | none => .error .malformed
  | some n =>
    match ofNode? (n.getD .empty) with
    | none => .error .malformed
    | some c => checked c

/-- The configuration in a file of the given bytes; there are none if it can not be read. -/
def ofFile (bytes : Option ByteArray) : Except ConfigError Config :=
  match bytes.bind String.fromUTF8? with
  | none => .error .unreadable
  | some text => ofYaml text

/-- The document of a configuration. -/
def toYaml (c : Config) : String :=
  let depth := match c.sensitivity with
    | .insensitive => ""
    | .callSite k | .object k | .type k => s!"  k: {k}\n"
  let budget := c.budget.elim "null" toString
  s!"sensitivity:\n  kind: {c.sensitivity.kindText}\n" ++ depth
    ++ s!"worklist_order: {c.order.text}\nmax_worklist_entries: {budget}\n"

end Config

end PointerAnalysis
