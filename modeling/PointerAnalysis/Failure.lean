import PointerAnalysis.Config.Error
import PointerAnalysis.Program.Statement

/-!
# Failures

A computation of this library ends without an answer in one of two ways: it reports an error, or it
follows a handle that names no row of its table.  The second is never caused by the data of a
program that was built successfully, only by a caller who passes a handle that was never given out.
-/

namespace PointerAnalysis

/-! ## Defects of programs -/

/-- The places of a program that can name a class that does not exist. -/
inductive ClassUse where
  | root
  /-- The superclass or an interface of a class. -/
  | supertype (ofClass : String)
  | allocation
  | field (name : String)
  | call (site : StmtId)
deriving DecidableEq, Repr

/-- The words for a use of a class in messages. -/
def ClassUse.text : ClassUse → String
  | root => "root class"
  | supertype ofClass => ofClass
  | allocation => "allocation"
  | field name => s!"field ref {name}"
  | call site => s!"call site {site}"

/-- The ways in which a program can be inconsistent. -/
inductive Defect where
  | implementsBy (c : ClassId)
  | abstractUnknown (c : ClassId)
  | duplicateField (cls name : String)
  | fieldOfUnknown (name : String) (c : ClassId)
  | duplicateMethod (cls subsignature : String)
  | methodOfUnknown (subsignature : String) (c : ClassId)
  | paramWithoutBody (m : MethodId)
  | statementWithoutBody (s : StmtId) (m : MethodId)
  | noEntry
  | entryWithoutBody (m : MethodId)
  | unknownEntry (m : MethodId)
  | unknownClass (use : ClassUse) (c : ClassId)
  | extendsInterface (cls interface : String)
  | implementsClass (cls other : String)
  | foreignVariable (v : VarId) (name : String) (owner user : MethodId)
  | unknownVariable (v : VarId)
  | receiver (s : StmtId) (kind : CallKind) (present : Bool)
  | duplicateClass (name : String)
  | notAllocation (s : StmtId)
  | staticCallOfInstance (s : StmtId) (signature : String)
  | instanceCallOfStatic (kind : CallKind) (s : StmtId) (signature : String)
  | staticAccessOfInstance (field : String)
  | instanceAccessOfStatic (field : String)
deriving DecidableEq, Repr

/-- The message of a defect. -/
def Defect.message : Defect → String
  | implementsBy c => s!"implement: unknown class {c}"
  | abstractUnknown c => s!"set_abstract: unknown class {c}"
  | duplicateField cls name => s!"duplicate field {cls}.{name}"
  | fieldOfUnknown name c => s!"field {name}: unknown class {c}"
  | duplicateMethod cls subsignature => s!"duplicate method <{cls}: {subsignature}>"
  | methodOfUnknown subsignature c => s!"method {subsignature}: unknown class {c}"
  | paramWithoutBody m => s!"add_param: {m} has no body"
  | statementWithoutBody s m => s!"statement {s} added to bodiless {m}"
  | noEntry => "no entry method"
  | entryWithoutBody m => s!"entry {m} has no body"
  | unknownEntry m => s!"unknown entry method {m}"
  | unknownClass use c => s!"{use.text}: unknown class {c}"
  | extendsInterface cls interface => s!"{cls} extends interface {interface}"
  | implementsClass cls other => s!"{cls} implements non-interface {other}"
  | foreignVariable v name owner user => s!"variable {v} ({name}) of {owner} used in {user}"
  | unknownVariable v => s!"unknown variable {v}"
  | receiver s kind present =>
    let demand := if present then "must not have" else "requires"
    s!"call site {s}: {kind} call {demand} a receiver"
  | duplicateClass name => s!"duplicate class {name}"
  | notAllocation s => s!"{s} is not an allocation site"
  | staticCallOfInstance s signature =>
    s!"static call at {s} resolves to instance method {signature}"
  | instanceCallOfStatic kind s signature =>
    s!"{kind} call at {s} resolves to static method {signature}"
  | staticAccessOfInstance field => s!"static access to instance field {field}"
  | instanceAccessOfStatic field => s!"instance access to static field {field}"

/-! ## Errors of an analysis -/

/-- The errors an analysis reports. -/
inductive AnalysisError where
  /-- The program is inconsistent. -/
  | malformed (defect : Defect)
  /-- A field reference that no class of the hierarchy above it declares. -/
  | unresolvedField (cls field : String)
  /-- A call whose arguments do not match the parameters of its target. -/
  | arityMismatch (callee : String) (args params : Nat)
  | config (error : ConfigError)
  /-- A result or a document of another form than asked for. -/
  | serialization
deriving DecidableEq, Repr

namespace AnalysisError

/-- The message of an error. -/
def message : AnalysisError → String
  | malformed defect => s!"Malformed IR: {defect.message}"
  | unresolvedField cls field => s!"Unresolved field reference {cls}.{field}"
  | arityMismatch callee args params =>
    s!"Arity mismatch calling {callee}: {args} argument(s) for {params} parameter(s)"
  | config error => s!"Configuration error: {error.message}"
  | serialization => "Serialization error"

/-- Whether the analyzed program is to blame. -/
def isProgramDefect : AnalysisError → Bool
  | malformed _ | unresolvedField _ _ | arityMismatch _ _ _ => true
  | config _ | serialization => false

end AnalysisError

/-! ## Outcomes -/

/-- The ways in which a computation ends without an answer. -/
inductive Halt where
  /-- A handle was followed that names no row. -/
  | dangling
  | error (e : AnalysisError)
deriving DecidableEq, Repr

/-- The outcome of a computation: an answer, or the reason why there is none. -/
abbrev Outcome (α : Type) := Except Halt α

namespace Outcome

/-- The row behind a handle; without one the computation stops. -/
def ofRow {α : Type} : Option α → Outcome α
  | some a => .ok a
  | none => .error .dangling

/-- A computation that stops because the program is inconsistent. -/
def defect {α : Type} (d : Defect) : Outcome α := .error (.error (.malformed d))

@[simp] theorem ofRow_eq_ok {α : Type} {o : Option α} {a : α} :
    ofRow o = .ok a ↔ o = some a := by
  cases o <;> simp [ofRow]

end Outcome

end PointerAnalysis
