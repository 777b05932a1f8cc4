/-!
# JSON values

Numbers are kept apart by what they can stand for: natural numbers and negative integers of 64 bits,
and all others, which are floating-point numbers.  The members of an object are kept in order, with
repetitions.
-/

namespace PointerAnalysis

/-- A JSON value. -/
inductive Json where
  | null
  | bool (b : Bool)
  /-- A natural number below `2 ^ 64`. -/
  | nat (n : Nat)
  /-- The negative integer `-n`, at least `-2 ^ 63`. -/
  | neg (n : Nat)
  /-- Any other number. -/
  | real (x : Float)
  | str (s : String)
  | arr (elems : List Json)
  | obj (members : List (String × Json))
  /-- A part of a text that is well formed but denotes nothing: a string with half of a surrogate
  pair, an object with such a key, or a number beyond the range of floating point. -/
  | meaningless

namespace Json

/-- A list of natural numbers. -/
def nats (ns : List Nat) : Json := arr (ns.map nat)

mutual

/-- Whether every part of a value has a meaning, and no more than `room` containers are nested. -/
def isSound (room : Nat) : Json → Bool
  | meaningless => false
  | arr elems => room ≠ 0 && areSound (room - 1) elems
  | obj members => room ≠ 0 && membersAreSound (room - 1) members
  | null | bool _ | nat _ | neg _ | real _ | str _ => true

/-- `isSound` for all elements of an array. -/
def areSound (room : Nat) : List Json → Bool
  | [] => true
  | j :: rest => isSound room j && areSound room rest

/-- `isSound` for all members of an object. -/
def membersAreSound (room : Nat) : List (String × Json) → Bool
  | [] => true
  | (_, j) :: rest => isSound room j && membersAreSound room rest

end

end Json

end PointerAnalysis
