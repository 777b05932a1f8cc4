import PointerAnalysis.Table
import PointerAnalysis.Failure

/-!
# Programs

A program is a set of tables: classes, methods, fields, variables and statements.  Rows refer to
each other by handles.  Reading the row of a handle is an `Outcome`, which stops at handles that
were never given out.

`Program.Draft` says how programs are made.
-/

namespace PointerAnalysis

/-! ## Declarations -/

/-- A class or an interface. -/
structure ClassDecl where
  name : String
  superclass : Option ClassId := none
  /-- The interfaces a class implements, or an interface extends. -/
  interfaces : List ClassId := []
  isInterface : Bool := false
  isAbstract : Bool := false
deriving DecidableEq, Repr

/-- The code of a method. -/
structure Body where
  /-- The receiver, in an instance method. -/
  self : Option VarId := none
  params : List VarId := []
  /-- The variables some statement returns, in the order of their first return. -/
  returned : List VarId := []
  stmts : List StmtId := []
deriving DecidableEq, Repr

/-- A method.  Abstract methods and methods implemented outside the program have no body. -/
structure MethodDecl where
  subsignature : Subsignature
  owner : ClassId
  isStatic : Bool := false
  isAbstract : Bool := false
  body : Option Body := none
deriving DecidableEq, Repr

/-- A field. -/
structure FieldDecl where
  name : String
  owner : ClassId
  isStatic : Bool
deriving DecidableEq, Repr

/-- A variable of a method. -/
structure VarDecl where
  name : String
  method : MethodId
deriving DecidableEq, Repr

/-- A statement in the method it belongs to. -/
structure Site where
  stmt : Stmt
  method : MethodId
deriving DecidableEq, Repr

/-- The statements that follow the reference in a variable, each list ascending. -/
structure Dereferences where
  /-- `v.f = x` -/
  fieldStores : List StmtId := []
  /-- `x = v.f` -/
  fieldLoads : List StmtId := []
  /-- `v[i] = x` -/
  arrayStores : List StmtId := []
  /-- `x = v[i]` -/
  arrayLoads : List StmtId := []
  /-- `v.m(...)` -/
  calls : List StmtId := []
deriving DecidableEq, Repr

/-- Whether no statement follows the reference in a variable. -/
def Dereferences.isEmpty (d : Dereferences) : Bool :=
  d.fieldStores.isEmpty && d.fieldLoads.isEmpty && d.arrayStores.isEmpty && d.arrayLoads.isEmpty
    && d.calls.isEmpty

/-- A whole program. -/
structure Program where
  classes : Table .cls ClassDecl
  methods : Table .method MethodDecl
  fields : Table .field FieldDecl
  vars : Table .var VarDecl
  stmts : Table .stmt Site
  /-- For each variable the statements that dereference it. -/
  dereferences : Table .var Dereferences
  /-- The method a run begins with. -/
  entry : MethodId
  /-- The class that arrays take their methods from. -/
  root : Option ClassId
deriving DecidableEq, Repr

namespace Program

/-! ## Rows -/

/-- The declaration of a class. -/
def classAt (p : Program) (c : ClassId) : Outcome ClassDecl := .ofRow (p.classes.get? c)

/-- The declaration of a method. -/
def methodAt (p : Program) (m : MethodId) : Outcome MethodDecl := .ofRow (p.methods.get? m)

/-- The declaration of a field. -/
def fieldAt (p : Program) (f : FieldId) : Outcome FieldDecl := .ofRow (p.fields.get? f)

/-- The declaration of a variable. -/
def varAt (p : Program) (v : VarId) : Outcome VarDecl := .ofRow (p.vars.get? v)

/-- A statement together with its method. -/
def siteAt (p : Program) (s : StmtId) : Outcome Site := .ofRow (p.stmts.get? s)

/-- The statement a handle names. -/
def stmtAt (p : Program) (s : StmtId) : Outcome Stmt := Site.stmt <$> p.siteAt s

/-- The method a statement belongs to. -/
def ownerOf (p : Program) (s : StmtId) : Outcome MethodId := Site.method <$> p.siteAt s

/-- The statements that dereference a variable. -/
def dereferencesOf (p : Program) (v : VarId) : Outcome Dereferences :=
  .ofRow (p.dereferences.get? v)

/-! ## Members and names -/

/-- The method a class declares for a subsignature. -/
def declaredMethod? (p : Program) (c : ClassId) (s : Subsignature) : Option MethodId :=
  p.methods.find? fun m => m.owner = c && m.subsignature = s

/-- The field a class declares under a name. -/
def declaredField? (p : Program) (c : ClassId) (name : String) : Option FieldId :=
  p.fields.find? fun f => f.owner = c && f.name = name

/-- The method that a class, which has to exist, declares for a subsignature. -/
def declaredMethodAt (p : Program) (c : ClassId) (s : Subsignature) : Outcome (Option MethodId) := do
  let _ ← p.classAt c
  return p.declaredMethod? c s

/-- The field that a class, which has to exist, declares under a name. -/
def declaredFieldAt (p : Program) (c : ClassId) (name : String) : Outcome (Option FieldId) := do
  let _ ← p.classAt c
  return p.declaredField? c name

/-- The methods a class declares, ascending. -/
def declaredMethods (p : Program) (c : ClassId) : List MethodId :=
  p.methods.entries.filterMap fun (m, decl) => if decl.owner = c then some m else none

/-- Whether a method exists and is not abstract. -/
def isConcrete (p : Program) (m : MethodId) : Bool := (p.methods.get? m).any fun d => !d.isAbstract

/-- The class of a name. -/
def classNamed? (p : Program) (name : String) : Option ClassId :=
  p.classes.find? fun c => c.name = name

/-- The method that the class of a name declares for a subsignature. -/
def methodNamed? (p : Program) (className subsignature : String) : Option MethodId := do
  p.declaredMethod? (← p.classNamed? className) ⟨subsignature⟩

/-- The first variable of a method with a name. -/
def varNamed? (p : Program) (m : MethodId) (name : String) : Option VarId :=
  p.vars.find? fun v => v.method = m && v.name = name

/-! ## Rendering -/

/-- A method is shown as `<Class: subsignature>`. -/
def methodSignature (p : Program) (m : MethodId) : Outcome String := do
  let decl ← p.methodAt m
  let owner ← p.classAt decl.owner
  return s!"<{owner.name}: {decl.subsignature.text}>"

/-- A field is shown as `Class.field`. -/
def fieldName (p : Program) (f : FieldId) : Outcome String := do
  let decl ← p.fieldAt f
  let owner ← p.classAt decl.owner
  return s!"{owner.name}.{decl.name}"

/-- A variable is shown as `<Class: subsignature>/name`. -/
def varName (p : Program) (v : VarId) : Outcome String := do
  let decl ← p.varAt v
  let method ← p.methodSignature decl.method
  return s!"{method}/{decl.name}"

/-- A type is shown as the name of its base class with one pair of brackets per array level. -/
def typeName (p : Program) : RefType → Outcome String
  | .cls c => ClassDecl.name <$> p.classAt c
  | .array elem => do return s!"{← p.typeName elem}[]"

end Program

end PointerAnalysis
