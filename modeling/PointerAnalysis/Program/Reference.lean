import PointerAnalysis.Handle
import PointerAnalysis.Text.Blank

/-!
# Types and symbolic references

What a statement names in the class hierarchy: the type it allocates, and the methods and fields
it refers to by a declared class and a name.  References are resolved against the hierarchy when
they are used.
-/

namespace PointerAnalysis

/-! ## Reference types -/

/-- The type of an allocated object. -/
inductive RefType where
  /-- An instance of a class. -/
  | cls (c : ClassId)
  /-- An array of elements of a type. -/
  | array (elem : RefType)
deriving DecidableEq, Repr

namespace RefType

/-- The class of a class type; arrays have none. -/
def class? : RefType → Option ClassId
  | cls c => some c
  | array _ => none

/-- The class below all array levels. -/
def base : RefType → ClassId
  | cls c => c
  | array elem => elem.base

/-- The class `c` under `dims` array levels. -/
def ofDims (c : ClassId) : Nat → RefType
  | 0 => cls c
  | dims + 1 => array (ofDims c dims)

/-- A type is shown as its base class with one pair of brackets per array level. -/
def text : RefType → String
  | cls c => c.text
  | array elem => elem.text ++ "[]"

@[simp] theorem base_ofDims (c : ClassId) (dims : Nat) : (ofDims c dims).base = c := by
  induction dims with
  | zero => rfl
  | succ n ih => exact ih

end RefType

/-! ## Members -/

/-- A method name with its descriptor, such as `void m(A,int)`.

Methods override one another by subsignature alone. -/
structure Subsignature where
  text : String
deriving DecidableEq, Repr

/-- The bare name of a method: the last word before the first opening parenthesis.

A head without words is the name as it stands. -/
def Subsignature.methodName (s : Subsignature) : String :=
  let head := s.text.toList.takeWhile (· ≠ '(')
  match Text.lastWord head with
  | [] => String.ofList head
  | word => String.ofList word

/-- A method as a call names it: a subsignature looked up from a class. -/
structure MethodRef where
  cls : ClassId
  subsignature : Subsignature
deriving DecidableEq, Repr

/-- A field as an access names it: a name looked up from a class. -/
structure FieldRef where
  cls : ClassId
  name : String
deriving DecidableEq, Repr

end PointerAnalysis
