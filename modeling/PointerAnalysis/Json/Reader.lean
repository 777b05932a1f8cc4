import PointerAnalysis.Json.Token

/-!
# Reading JSON

The value of a text is built from its tokens, one at a time, on a stack of the containers that are
open.  Containers may be nested to any depth.
-/

namespace PointerAnalysis.Json

/-- A container that is open, with its parts so far, the last one first. -/
inductive Frame where
  | arr (elems : List Json)
  /-- The key of a member is `none` if it denotes nothing; `key` is that of the member whose value
  is being read. -/
  | obj (members : List (Option String × Json)) (key : Option String)

/-- What may come next. -/
inductive Expect where
  /-- A value. -/
  | value
  /-- A value, or the end of an array that has just been opened. -/
  | firstElem
  /-- A key. -/
  | key
  /-- A key, or the end of an object that has just been opened. -/
  | firstKey
  /-- The colon behind a key. -/
  | colon
  /-- A comma, or the end of the innermost container. -/
  | more
  /-- Nothing: the value of the text is known. -/
  | nothing (result : Json)

/-- The containers that are open, innermost first, and what may come next. -/
structure ReadState where
  stack : List Frame := []
  expect : Expect := .value

namespace ReadState

/-- Takes a complete value. -/
def give (stack : List Frame) (j : Json) : ReadState :=
  match stack with
  | [] => { stack := [], expect := .nothing j }
  | .arr elems :: rest => { stack := .arr (j :: elems) :: rest, expect := .more }
  | .obj members key :: rest => { stack := .obj ((key, j) :: members) key :: rest, expect := .more }

/-- The value of an object.  An object with a key that denotes nothing denotes nothing. -/
def closeObj (members : List (Option String × Json)) : Json :=
  match members.reverse.mapM fun (key, j) => key.map (·, j) with
  | some members => .obj members
  | none => .meaningless

/-- Takes a token. -/
def step (s : ReadState) (t : Token) : Option ReadState :=
  match s.expect, t, s.stack with
  | .value, .scalar j, stack | .firstElem, .scalar j, stack => some (give stack j)
  | .value, .str text, stack | .firstElem, .str text, stack =>
    some (give stack (text.elim .meaningless .str))
  | .value, .openArr, stack | .firstElem, .openArr, stack =>
    some { stack := .arr [] :: stack, expect := .firstElem }
  | .value, .openObj, stack | .firstElem, .openObj, stack =>
    some { stack := .obj [] none :: stack, expect := .firstKey }
  | .firstElem, .closeArr, .arr elems :: rest | .more, .closeArr, .arr elems :: rest =>
    some (give rest (.arr elems.reverse))
  | .firstKey, .closeObj, .obj members _ :: rest | .more, .closeObj, .obj members _ :: rest =>
    some (give rest (closeObj members))
  | .key, .str key, .obj members _ :: rest | .firstKey, .str key, .obj members _ :: rest =>
    some { stack := .obj members key :: rest, expect := .colon }
  | .colon, .colon, stack => some { stack, expect := .value }
  | .more, .comma, .arr elems :: rest => some { stack := .arr elems :: rest, expect := .value }
  | .more, .comma, .obj members key :: rest =>
    some { stack := .obj members key :: rest, expect := .key }
  | _, _, _ => none

end ReadState

/-- The value of a text, if it is a single one. -/
def parse (text : String) : Option Json := do
  let cs := text.toList
  let s ← (← tokens cs.length cs).foldlM ReadState.step {}
  match s.expect with
  | .nothing j => some j
  | _ => none

end PointerAnalysis.Json
