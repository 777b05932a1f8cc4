import PointerAnalysis.Program.Basic

/-!
# Drafts of programs

A draft collects declarations and statements.  Every declaration gets its handle at once, and
handles may be used before the entity they name is declared, so nothing but the most local
mistakes can be seen while a draft grows.  `build` checks the whole and answers with a program
whose handles all name rows, or with the first defect.

## Order of the checks

Mistakes made while the draft grew come first, then the entry and the root class, the supertypes
of each class, the bodies of each method, and last the names of the classes.
-/

namespace PointerAnalysis

/-- How a method is declared. -/
inductive MethodKind where
  /-- Without a receiver, with a body. -/
  | static
  /-- With a receiver and a body. -/
  | member
  /-- With a receiver, without a body. -/
  | abstract
  /-- With a receiver, implemented outside the program. -/
  | native
deriving DecidableEq, Repr

/-- A program under construction. -/
structure Draft where
  classes : Table .cls ClassDecl := {}
  methods : Table .method MethodDecl := {}
  fields : Table .field FieldDecl := {}
  vars : Table .var VarDecl := {}
  stmts : Table .stmt Site := {}
  entry : Option MethodId := none
  root : Option ClassId := none
  /-- The mistakes so far, oldest first. -/
  defects : List Defect := []
deriving DecidableEq, Repr

namespace Draft

/-! ## Declarations -/

/-- Notes a mistake. -/
def note (d : Draft) (defect : Defect) : Draft := { d with defects := d.defects ++ [defect] }

/-- Declares a class. -/
def declareClass (d : Draft) (name : String) (superclass : Option ClassId) : ClassId × Draft :=
  (d.classes.next, { d with classes := d.classes.push { name, superclass } })

/-- Declares an interface that extends others. -/
def declareInterface (d : Draft) (name : String) (supers : List ClassId) : ClassId × Draft :=
  let decl := { name, interfaces := supers, isInterface := true, isAbstract := true }
  (d.classes.next, { d with classes := d.classes.push decl })

/-- Changes the declaration of a class, which has to exist by now. -/
def changeClass (d : Draft) (c : ClassId) (defect : Defect) (f : ClassDecl → ClassDecl) : Draft :=
  if d.classes.Has c then { d with classes := d.classes.modify c f } else d.note defect

/-- Lets a class implement an interface. -/
def implement (d : Draft) (c interface : ClassId) : Draft :=
  d.changeClass c (.implementsBy c) fun decl =>
    { decl with interfaces := decl.interfaces ++ [interface] }

/-- Makes a class abstract. -/
def markAbstract (d : Draft) (c : ClassId) : Draft :=
  d.changeClass c (.abstractUnknown c) fun decl => { decl with isAbstract := true }

/-- Declares a field of a class, which has to exist by now and must not have a field of that
name. -/
def declareField (d : Draft) (c : ClassId) (name : String) (isStatic : Bool) : FieldId × Draft :=
  let checked := match d.classes.get? c with
    | none => d.note (.fieldOfUnknown name c)
    | some decl =>
      match d.fields.find? fun f => f.owner = c && f.name = name with
      | some _ => d.note (.duplicateField decl.name name)
      | none => d
  (d.fields.next, { checked with fields := d.fields.push { name, owner := c, isStatic } })

/-- Declares a variable of a method. -/
def declareVar (d : Draft) (m : MethodId) (name : String) : VarId × Draft :=
  (d.vars.next, { d with vars := d.vars.push { name, method := m } })

/-- Declares a method of a class, which has to exist by now and must not have a method of that
subsignature.  An instance method gets the variable `this`. -/
def declareMethod (d : Draft) (c : ClassId) (s : Subsignature) (kind : MethodKind) :
    MethodId × Draft :=
  let checked := match d.classes.get? c with
    | none => d.note (.methodOfUnknown s.text c)
    | some decl =>
      match d.methods.find? fun m => m.owner = c && m.subsignature = s with
      | some _ => d.note (.duplicateMethod decl.name s.text)
      | none => d
  let id := d.methods.next
  let decl : MethodDecl :=
    { subsignature := s, owner := c, isStatic := kind = .static, isAbstract := kind = .abstract }
  match kind with
  | .static => (id, { checked with methods := d.methods.push { decl with body := some {} } })
  | .abstract | .native => (id, { checked with methods := d.methods.push decl })
  | .member =>
    let (self, checked) := checked.declareVar id "this"
    (id, { checked with methods := d.methods.push { decl with body := some { self } } })

/-! ## Bodies -/

/-- The body of a method. -/
def body? (d : Draft) (m : MethodId) : Option Body := (d.methods.get? m).bind MethodDecl.body

/-- The variable `this` of a method. -/
def self? (d : Draft) (m : MethodId) : Option VarId := (d.body? m).bind Body.self

/-- Changes the body of a method, which has to have one by now. -/
def changeBody (d : Draft) (m : MethodId) (defect : Defect) (f : Body → Body) : Draft :=
  match d.body? m with
  | some _ =>
    { d with methods := d.methods.modify m fun decl => { decl with body := decl.body.map f } }
  | none => d.note defect

/-- Appends a parameter to a method. -/
def declareParam (d : Draft) (m : MethodId) (name : String) : VarId × Draft :=
  let (v, d) := d.declareVar m name
  (v, d.changeBody m (.paramWithoutBody m) fun b => { b with params := b.params ++ [v] })

/-- Appends a statement to a method. -/
def append (d : Draft) (m : MethodId) (stmt : Stmt) : StmtId × Draft :=
  let s := d.stmts.next
  let d := { d with stmts := d.stmts.push { stmt, method := m } }
  (s, d.changeBody m (.statementWithoutBody s m) fun b => { b with stmts := b.stmts ++ [s] })

/-- Chooses the entry method. -/
def setEntry (d : Draft) (m : MethodId) : Draft := { d with entry := some m }

/-- Chooses the root class. -/
def setRoot (d : Draft) (c : ClassId) : Draft := { d with root := some c }

/-! ## Steps -/

/-- One step in the construction of a program. -/
inductive Step where
  | declareClass (name : String) (superclass : Option ClassId)
  | declareInterface (name : String) (supers : List ClassId)
  | implement (c interface : ClassId)
  | markAbstract (c : ClassId)
  | declareField (c : ClassId) (name : String) (isStatic : Bool)
  | declareMethod (c : ClassId) (s : Subsignature) (kind : MethodKind)
  | declareParam (m : MethodId) (name : String)
  | declareVar (m : MethodId) (name : String)
  | setEntry (m : MethodId)
  | setRoot (c : ClassId)
  | append (m : MethodId) (stmt : Stmt)
deriving DecidableEq, Repr

/-- Takes a step; the number is that of the entity the step declares, if it declares one. -/
def step (d : Draft) : Step → Option Nat × Draft
  | .declareClass name superclass => numbered (d.declareClass name superclass)
  | .declareInterface name supers => numbered (d.declareInterface name supers)
  | .implement c interface => (none, d.implement c interface)
  | .markAbstract c => (none, d.markAbstract c)
  | .declareField c name isStatic => numbered (d.declareField c name isStatic)
  | .declareMethod c s kind => numbered (d.declareMethod c s kind)
  | .declareParam m name => numbered (d.declareParam m name)
  | .declareVar m name => numbered (d.declareVar m name)
  | .setEntry m => (none, d.setEntry m)
  | .setRoot c => (none, d.setRoot c)
  | .append m stmt => numbered (d.append m stmt)
where
  /-- The number of a new entity. -/
  numbered {k : Kind} (r : Handle k × Draft) : Option Nat × Draft := (some r.1.index, r.2)

/-- The draft after a list of steps. -/
def ofSteps (steps : List Step) : Draft := steps.foldl (fun d s => (d.step s).2) {}

/-! ## Checks -/

/-- A class that is used has to exist. -/
def checkClass (d : Draft) (use : ClassUse) (c : ClassId) : Outcome Unit :=
  if d.classes.Has c then pure () else .defect (.unknownClass use c)

/-- The entry has to be a method with a body. -/
def checkEntry (d : Draft) : Outcome MethodId :=
  match d.entry with
  | none => .defect .noEntry
  | some m =>
    match d.methods.get? m with
    | none => .defect (.unknownEntry m)
    | some decl => if decl.body.isSome then pure m else .defect (.entryWithoutBody m)

/-- A class extends a class, and implements interfaces. -/
def checkSupertypes (d : Draft) (decl : ClassDecl) : Outcome Unit := do
  if let some c := decl.superclass then
    d.checkClass (.supertype decl.name) c
    let sup ← .ofRow (d.classes.get? c)
    if sup.isInterface then
      .defect (.extendsInterface decl.name sup.name)
  decl.interfaces.forM fun c => do
    d.checkClass (.supertype decl.name) c
    let sup ← .ofRow (d.classes.get? c)
    if !sup.isInterface then
      .defect (.implementsClass decl.name sup.name)

/-- A variable has to belong to the method that uses it. -/
def checkVar (d : Draft) (m : MethodId) (v : VarId) : Outcome Unit :=
  match d.vars.get? v with
  | none => .defect (.unknownVariable v)
  | some decl =>
    if decl.method = m then pure () else .defect (.foreignVariable v decl.name decl.method m)

/-- The classes a statement names have to exist, and a call has a receiver exactly if its kind
asks for one. -/
def checkStmt (d : Draft) (s : StmtId) : Stmt → Outcome Unit
  | .alloc _ type => d.checkClass .allocation type.base
  | .load _ _ field | .store _ field _ => d.checkClass (.field field.name) field.cls
  | .invoke call => do
    d.checkClass (.call s) call.methodRef.cls
    if call.kind.hasReceiver ≠ call.receiver.isSome then
      .defect (.receiver s call.kind call.receiver.isSome)
  | .copy _ _ | .loadArray _ _ | .storeArray _ _ | .ret _ | .nop => pure ()

/-- The variables and statements of a body have to fit the method. -/
def checkBody (d : Draft) (m : MethodId) (b : Body) : Outcome Unit := do
  (b.self.toList ++ b.params).forM (d.checkVar m)
  b.stmts.forM fun s => do
    let site ← .ofRow (d.stmts.get? s)
    site.stmt.vars.forM (d.checkVar m)
    d.checkStmt s site.stmt

/-- Class names have to differ; `seen` are the names so far. -/
def checkNames (seen : List String) : List String → Outcome Unit
  | [] => pure ()
  | name :: rest =>
    if name ∈ seen then .defect (.duplicateClass name) else checkNames (name :: seen) rest

/-! ## The program -/

/-- The variables that the statements of a body return, each once. -/
def returnedBy (d : Draft) (b : Body) : List VarId :=
  b.stmts.foldl
    (fun vars s =>
      match (d.stmts.get? s).map Site.stmt with
      | some (.ret (some v)) => if v ∈ vars then vars else vars ++ [v]
      | _ => vars)
    []

/-- The variable a statement dereferences, and the list of its kind with the statement added. -/
def dereferenceBy (s : StmtId) : Stmt → Option (VarId × (Dereferences → Dereferences))
  | .store (some v) _ _ => some (v, fun u => { u with fieldStores := u.fieldStores ++ [s] })
  | .load _ (some v) _ => some (v, fun u => { u with fieldLoads := u.fieldLoads ++ [s] })
  | .storeArray v _ => some (v, fun u => { u with arrayStores := u.arrayStores ++ [s] })
  | .loadArray _ v => some (v, fun u => { u with arrayLoads := u.arrayLoads ++ [s] })
  | .invoke call => call.receiver.map (·, fun u => { u with calls := u.calls ++ [s] })
  | .store none _ _ | .load _ none _ | .alloc _ _ | .copy _ _ | .ret _ | .nop => none

/-- For each variable the statements that dereference it. -/
def dereferences (d : Draft) : Table .var Dereferences :=
  d.stmts.entries.foldl
    (fun uses (s, site) =>
      match dereferenceBy s site.stmt with
      | some (v, f) => uses.modify v f
      | none => uses)
    ⟨Array.replicate d.vars.size {}⟩

/-- The methods with their returned variables filled in. -/
def finishedMethods (d : Draft) : Table .method MethodDecl :=
  ⟨d.methods.rows.map fun decl =>
    { decl with body := decl.body.map fun b => { b with returned := d.returnedBy b } }⟩

/-- The program of a draft without defects, or the first defect. -/
def build (d : Draft) : Outcome Program := do
  if let defect :: _ := d.defects then
    .defect defect
  let entry ← d.checkEntry
  if let some root := d.root then
    d.checkClass .root root
  d.classes.toList.forM d.checkSupertypes
  d.methods.entries.forM fun (m, decl) =>
    match decl.body with
    | some b => d.checkBody m b
    | none => pure ()
  checkNames [] (d.classes.toList.map ClassDecl.name)
  return {
    classes := d.classes
    methods := d.finishedMethods
    fields := d.fields
    vars := d.vars
    stmts := d.stmts
    dereferences := d.dereferences
    entry
    root := d.root }

end Draft

end PointerAnalysis
