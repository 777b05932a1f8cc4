import PointerAnalysis.Program.Reference

/-!
# Statements

The statements that move references, and which variables each of them defines and uses.
-/

namespace PointerAnalysis

/-! ## Calls -/

/-- The ways to call a method. -/
inductive CallKind where
  /-- A static method, without a receiver. -/
  | static
  /-- A constructor, a private method or a method of a superclass: the target is fixed. -/
  | special
  /-- The target depends on the class of the receiver. -/
  | virtual
  /-- The target depends on the class of the receiver, which is declared as an interface. -/
  | interface
  /-- The target is computed by the running program; such calls are never resolved. -/
  | dynamic
deriving DecidableEq, Repr

namespace CallKind

/-- The word for a call kind in messages and graphs. -/
def text : CallKind → String
  | static => "STATIC"
  | special => "SPECIAL"
  | virtual => "VIRTUAL"
  | interface => "INTERFACE"
  | dynamic => "DYNAMIC"

instance : ToString CallKind := ⟨text⟩

/-- Whether calls of this kind have a receiver. -/
def hasReceiver : CallKind → Bool
  | special | virtual | interface => true
  | static | dynamic => false

end CallKind

/-- A call: what is called, on which receiver, with which arguments, and where the returned
reference goes. -/
structure Invoke where
  kind : CallKind
  methodRef : MethodRef
  receiver : Option VarId := none
  args : List VarId := []
  result : Option VarId := none
deriving DecidableEq, Repr

/-! ## Statements -/

/-- A statement.  Indices of arrays and values that are not references are left out. -/
inductive Stmt where
  /-- `lhs = new type` -/
  | alloc (lhs : VarId) (type : RefType)
  /-- `lhs = rhs` -/
  | copy (lhs rhs : VarId)
  /-- `lhs = base.field`, or the static field if there is no base. -/
  | load (lhs : VarId) (base : Option VarId) (field : FieldRef)
  /-- `base.field = rhs`, or the static field if there is no base. -/
  | store (base : Option VarId) (field : FieldRef) (rhs : VarId)
  /-- `lhs = base[i]` -/
  | loadArray (lhs base : VarId)
  /-- `base[i] = rhs` -/
  | storeArray (base rhs : VarId)
  | invoke (call : Invoke)
  /-- `return value` -/
  | ret (value : Option VarId)
  /-- Anything that moves no reference. -/
  | nop
deriving DecidableEq, Repr

namespace Stmt

/-- The variable a statement defines. -/
def defined : Stmt → Option VarId
  | alloc lhs _ | copy lhs _ | load lhs _ _ | loadArray lhs _ => some lhs
  | invoke call => call.result
  | store _ _ _ | storeArray _ _ | ret _ | nop => none

/-- The variables a statement reads, in the order they are written. -/
def uses : Stmt → List VarId
  | alloc _ _ | nop => []
  | copy _ rhs => [rhs]
  | load _ base _ => base.toList
  | store base _ rhs => base.toList ++ [rhs]
  | loadArray _ base => [base]
  | storeArray base rhs => [base, rhs]
  | invoke call => call.receiver.toList ++ call.args
  | ret value => value.toList

/-- All variables of a statement: those it reads, then the one it defines. -/
def vars (s : Stmt) : List VarId := s.uses ++ s.defined.toList

/-- The call of a call statement. -/
def call? : Stmt → Option Invoke
  | invoke call => some call
  | _ => none

end Stmt

end PointerAnalysis
