/-!
# Handles

Every entity of a program and of an analysis run lives in a table and is named by its position
there.  A handle is that position together with the kind of entity it names, so a class can not be
mistaken for a method although both are numbers.

Handles of one kind are ordered by their position, which is the order of creation.

Positions are unbounded numbers here, but handles are exchanged as 32-bit words (`Handle.ofWord`).
Everywhere else it is assumed that there are fewer than 2^32 entities of each kind, so that every
handle is its own word.
-/

namespace PointerAnalysis

/-! ## Kinds of entity -/

/-- The kinds of entity a handle can name.

The first five belong to a program; the rest are created while a program is analyzed. -/
inductive Kind where
  | cls
  | method
  | field
  | var
  | stmt
  | obj
  | context
  | qualifiedObj
  | qualifiedSite
  | qualifiedMethod
  | pointer
deriving DecidableEq, Repr

/-- The letters in front of the number when a handle of this kind is shown. -/
def Kind.letters : Kind → String
  | .cls => "c"
  | .method => "m"
  | .field => "f"
  | .var => "v"
  | .stmt => "s"
  | .obj => "o"
  | .context => "ctx"
  | .qualifiedObj => "cso"
  | .qualifiedSite => "csc"
  | .qualifiedMethod => "csm"
  | .pointer => "p"

/-! ## Handles -/

/-- The position of an entity of kind `k` in its table. -/
structure Handle (k : Kind) where
  index : Nat
deriving DecidableEq, Repr

namespace Handle

variable {k : Kind}

/-- The handle whose number is the low 32 bits of `n`. -/
def ofWord (n : Nat) : Handle k := ⟨n % UInt32.size⟩

/-- A handle is shown as the letters of its kind and its number. -/
def text (h : Handle k) : String := k.letters ++ toString h.index

instance : ToString (Handle k) := ⟨text⟩

instance : LT (Handle k) := ⟨fun a b => a.index < b.index⟩

instance : DecidableLT (Handle k) := fun a b => inferInstanceAs (Decidable (a.index < b.index))

theorem lt_def {a b : Handle k} : a < b ↔ a.index < b.index := Iff.rfl

theorem ext {a b : Handle k} (h : a.index = b.index) : a = b := by
  cases a; cases b; cases h; rfl

end Handle

/-- A class or an interface. -/
abbrev ClassId := Handle .cls

/-- A method, with or without a body. -/
abbrev MethodId := Handle .method

/-- A static or an instance field. -/
abbrev FieldId := Handle .field

/-- A local variable, a parameter or `this`. -/
abbrev VarId := Handle .var

/-- A statement, which is also the identity of the allocation or call it performs. -/
abbrev StmtId := Handle .stmt

/-- An abstract object: all objects that one statement allocates. -/
abbrev ObjId := Handle .obj

/-- An interned context. -/
abbrev ContextId := Handle .context

/-- An abstract object under a heap context. -/
abbrev QObjId := Handle .qualifiedObj

/-- A call statement under the context of its method. -/
abbrev QSiteId := Handle .qualifiedSite

/-- A method under a context. -/
abbrev QMethodId := Handle .qualifiedMethod

/-- A location that can hold references. -/
abbrev PointerId := Handle .pointer

/-- The handle of the empty context. -/
def ContextId.empty : ContextId := ⟨0⟩

/-- Whether a context handle is that of the empty context. -/
def ContextId.isEmpty (c : ContextId) : Bool := c = ContextId.empty

end PointerAnalysis
