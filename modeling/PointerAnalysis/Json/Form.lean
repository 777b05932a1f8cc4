import PointerAnalysis.Handle
import PointerAnalysis.Json.Printer
import PointerAnalysis.Json.Reader
import PointerAnalysis.Members

/-!
# JSON forms

A type with a JSON form can be written as a JSON value and read back.

- A record is an object with its fields in order.  It is read from an object with each field at most
  once, other members being passed over, or from an array of the fields in order.
- A case without content is its name; it is also read from an object whose only member has that name
  and is null.  A case with content is an object with one member.
- An optional value is null when it is absent.

Reading opens at most as many nested containers as there is room for.
-/

namespace PointerAnalysis

/-- Types that are written as JSON and read back. -/
class JsonForm (α : Type) where
  toJson : α → Json
  /-- Reads a value, opening at most `room` nested containers. -/
  read? : (room : Nat) → Json → Option α

export JsonForm (toJson)

namespace Json

/-- How many containers may be nested in a text that is read as a value of a type. -/
def maxNesting : Nat := 127

/-- Reads a text as a value of a type. -/
def readAs? (α : Type) [JsonForm α] (text : String) : Option α := do
  JsonForm.read? maxNesting (← parse text)

/-- Opens a container, which takes room. -/
def enter? {β : Type} (room : Nat) (inside : Nat → Option β) : Option β :=
  match room with
  | 0 => none
  | room + 1 => inside room

/-! ## Records -/

/-- The fields of a record as they were read. -/
structure Fields where
  /-- The values of the fields that were given. -/
  given : List (String × Json)
  /-- Whether the fields were given by their position. -/
  byPosition : Bool
  /-- The room left for the values. -/
  room : Nat

namespace Fields

/-- The fields of a record with the given names. -/
def ofJson? (names : List String) (room : Nat) : Json → Option Fields
  | obj members => enter? room fun room => do
    let given ← names.mapM fun name => do
      return (← onlyMember? members name).map (name, ·)
    return { given := given.filterMap id, byPosition := false, room }
  | arr elems => enter? room fun room =>
    if elems.length ≤ names.length then
      some { given := names.zip elems, byPosition := true, room }
    else none
  | _ => none

variable {α : Type} [JsonForm α]

/-- A field that has to be given. -/
def required? (fields : Fields) (name : String) : Option α := do
  JsonForm.read? fields.room (← fields.given.lookup name)

/-- A field with a value of its own if it is not given. -/
def withDefault? (fields : Fields) (name : String) (value : α) : Option α :=
  match fields.given.lookup name with
  | some j => JsonForm.read? fields.room j
  | none => some value

/-- A field that may be null, or absent among named fields. -/
def optional? [JsonForm (Option α)] (fields : Fields) (name : String) : Option (Option α) :=
  match fields.given.lookup name with
  | some j => JsonForm.read? fields.room j
  | none => if fields.byPosition then none else some none

end Fields

/-! ## Cases -/

/-- A case of a type as it was read: its name, and its content with the room left for it. -/
structure Case where
  name : String
  content : Option (Json × Nat)

/-- The case that a value stands for. -/
def case? (room : Nat) : Json → Option Case
  | str name => some ⟨name, none⟩
  | obj [(name, j)] => enter? room fun room => some ⟨name, some (j, room)⟩
  | _ => none

/-- The content of a case that has one. -/
def Case.content? {α : Type} [JsonForm α] (c : Case) : Option α := do
  let (j, room) ← c.content
  JsonForm.read? room j

/-- The fields of a case whose content is a record. -/
def Case.fields? (c : Case) (names : List String) : Option Fields := do
  let (j, room) ← c.content
  Fields.ofJson? names room j

/-- Checks that a case has no content. -/
def Case.isPlain (c : Case) : Bool :=
  match c.content with
  | none | some (null, _) => true
  | _ => false

/-- A case with content. -/
def tagged (name : String) (content : Json) : Json := obj [(name, content)]

/-- Reads one of several cases without content by their names. -/
def oneOf? {α : Type} (cases : List α) (name : α → String) (room : Nat) (j : Json) :
    Option α := do
  let c ← case? room j
  if c.isPlain then cases.find? fun a => name a = c.name else none

end Json

/-! ## Forms of basic types -/

open Json

instance : JsonForm Nat where
  toJson := nat
  read?
    | _, nat n => some n
    | _, _ => none

instance : JsonForm Bool where
  toJson := .bool
  read?
    | _, .bool b => some b
    | _, _ => none

instance : JsonForm String where
  toJson := str
  read?
    | _, str s => some s
    | _, _ => none

instance : JsonForm Float where
  toJson := real
  read?
    | _, nat n => some n.toUInt64.toFloat
    | _, neg n => some (-n.toUInt64.toFloat)
    | _, real x => some x
    | _, _ => none

instance {k : Kind} : JsonForm (Handle k) where
  toJson h := nat h.index
  read?
    | _, nat n => if n < UInt32.size then some ⟨n⟩ else none
    | _, _ => none

instance {α : Type} [JsonForm α] : JsonForm (Option α) where
  toJson
    | some a => toJson a
    | none => null
  read?
    | _, null => some none
    | room, j => some <$> JsonForm.read? room j

instance {α : Type} [JsonForm α] : JsonForm (List α) where
  toJson xs := arr (xs.map toJson)
  read?
    | room, arr elems => enter? room fun room => elems.mapM (JsonForm.read? room)
    | _, _ => none

end PointerAnalysis
