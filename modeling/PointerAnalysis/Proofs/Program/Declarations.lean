import PointerAnalysis.Proofs.Outcome
import PointerAnalysis.Solver.Rules

/-!
# Declarations

What a program declares, apart from the statements.  References are resolved and calls are
dispatched by declarations alone, so programs that differ in their statements agree on them.

## Main definitions

- `Program.declarations`: a program without its statements.

## Main statements

- `targetOf_congr`, `resolveFieldAs_congr`, `methodSignature_congr`: programs with the same
  declarations resolve alike.
- `methodAt_of_declarations`: their methods have the same headers.
-/

namespace PointerAnalysis

namespace Table

variable {k : Kind} {α β : Type}

/-- A table with all rows changed. -/
def map (f : α → β) (t : Table k α) : Table k β := ⟨t.rows.map f⟩

@[simp] theorem size_map (f : α → β) (t : Table k α) : (t.map f).size = t.size := by
  simp [map, size]

@[simp] theorem get?_map (f : α → β) (t : Table k α) (h : Handle k) :
    (t.map f).get? h = (t.get? h).map f := by
  simp [map, get?]

private theorem findAmongLast_map (f : α → β) (rows : Array α) (test : β → Bool) (n : Nat) :
    findAmongLast (rows.map f) test n = findAmongLast rows (test ∘ f) n := by
  -- one row more is looked at in each step, counted from the end of the rows
  induction n with
  | zero => rfl
  | succ n ih =>
    simp only [findAmongLast, Array.size_map, Array.getElem?_map, ih]
    cases rows[rows.size - (n + 1)]? <;> simp

/-- To search a changed table is to search the table for what passes the test after the change. -/
@[simp] theorem find?_map (f : α → β) (t : Table k α) (test : β → Bool) :
    (t.map f).find? test = t.find? (test ∘ f) := by
  simp [find?, map, size, findAmongLast_map]

end Table

/-- A body without its statements, and so without the variables they return. -/
def Body.header (b : Body) : Body := { b with stmts := [], returned := [] }

/-- A method without its statements. -/
def MethodDecl.header (decl : MethodDecl) : MethodDecl :=
  { decl with body := decl.body.map Body.header }

theorem MethodDecl.owner_of_header {decl decl' : MethodDecl} (h : decl'.header = decl.header) :
    decl'.owner = decl.owner :=
  (MethodDecl.mk.inj h).2.1

theorem MethodDecl.isStatic_of_header {decl decl' : MethodDecl} (h : decl'.header = decl.header) :
    decl'.isStatic = decl.isStatic :=
  (MethodDecl.mk.inj h).2.2.1

/-- A method with the same header has a body if the other one has, with the same receiver and the
same parameters. -/
theorem MethodDecl.exists_body_of_header {decl decl' : MethodDecl} (h : decl'.header = decl.header)
    {body : Body} (hb : decl.body = some body) : ∃ body', decl'.body = some body' ∧
      body'.self = body.self ∧ body'.params = body.params := by
  -- both methods have the same body once the statements are left out
  have hbody : decl'.body.map Body.header = some body.header := by
    rw [show decl'.body.map Body.header = decl.body.map Body.header from
      congrArg MethodDecl.body h, hb]
    rfl
  obtain ⟨body', hb', e⟩ := Option.map_eq_some_iff.1 hbody
  exact ⟨body', hb', congrArg (·.self) e, congrArg (·.params) e⟩

/-- The header keeps the `this` of a method, which is all of a body that a call on an object reads
before the callee is connected. -/
theorem MethodDecl.self_of_header {decl decl' : MethodDecl} (h : decl'.header = decl.header) :
    decl'.body.bind Body.self = decl.body.bind Body.self := by
  -- `this` can be read off the header
  have hself : ∀ decl : MethodDecl, decl.body.bind Body.self = decl.header.body.bind Body.self := by
    intro decl
    simp only [header, Option.bind_map]
    rfl
  rw [hself decl', h, ← hself decl]

namespace Program

/-! ## Programs without statements -/

/-- What a program declares: its classes, its fields and its methods without their statements,
which of them is the entry, and the root class. -/
def declarations (p : Program) : Program :=
  { p with methods := p.methods.map MethodDecl.header, vars := {}, stmts := {}, dereferences := {} }

variable {p p' : Program}

@[simp] theorem methodAt_declarations (m : MethodId) :
    p.declarations.methodAt m = MethodDecl.header <$> p.methodAt m := by
  simp only [methodAt, declarations, Table.get?_map]
  cases p.methods.get? m <;> rfl

@[simp] theorem declaredMethod?_declarations (c : ClassId) (s : Subsignature) :
    p.declarations.declaredMethod? c s = p.declaredMethod? c s :=
  Table.find?_map ..

/-- Whether a method is concrete does not depend on its statements: a body without statements is
still a body. -/
@[simp] theorem isConcrete_declarations : p.declarations.isConcrete = p.isConcrete := by
  funext m
  simp only [isConcrete, declarations, Table.get?_map]
  cases p.methods.get? m <;> rfl

/-- Dispatch searches the declared methods along the superclasses and interfaces, none of which has
to do with statements. -/
@[simp] theorem dispatch_declarations (c : ClassId) (s : Subsignature) :
    p.declarations.dispatch c s = p.dispatch c s := by
  simp only [dispatch, concreteMethod?, declaredMethod?_declarations, isConcrete_declarations]
  rfl

@[simp] theorem dispatchOnType_declarations (type : RefType) (s : Subsignature) :
    p.declarations.dispatchOnType type s = p.dispatchOnType type s := by
  simp only [dispatchOnType, dispatch_declarations]
  rfl

/-- The target of a call is found from declarations alone. -/
@[simp] theorem targetOf_declarations (call : Invoke) (receiver : Option RefType) :
    Solver.targetOf p.declarations call receiver = Solver.targetOf p call receiver := by
  simp only [Solver.targetOf, resolveMethod, dispatch_declarations, dispatchOnType_declarations,
    isConcrete_declarations]

@[simp] theorem methodSignature_declarations (m : MethodId) :
    p.declarations.methodSignature m = p.methodSignature m := by
  simp only [methodSignature, methodAt_declarations]
  cases p.methodAt m <;> rfl

/-! ## Programs with the same declarations -/

section Same

variable (h : p'.declarations = p.declarations)
include h

theorem entry_congr : p'.entry = p.entry := congrArg (·.entry) h

/-- Calls have the same targets in programs with the same declarations. -/
theorem targetOf_congr : Solver.targetOf p' = Solver.targetOf p := by
  -- both programs are compared with the one that has no statements
  funext call receiver
  rw [← targetOf_declarations, h, targetOf_declarations]

/-- Methods are shown alike in programs with the same declarations. -/
theorem methodSignature_congr : p'.methodSignature = p.methodSignature := by
  funext m
  rw [← methodSignature_declarations, h, methodSignature_declarations]

/-- Fields are resolved alike, or not resolved for the same reason, in programs with the same
declarations. -/
theorem resolveFieldAs_congr : Solver.resolveFieldAs p' = Solver.resolveFieldAs p :=
  -- resolution looks at classes and fields only, which `declarations` keeps as they are
  show Solver.resolveFieldAs p'.declarations = Solver.resolveFieldAs p.declarations by rw [h]

/-- A method of one program is a method of the other, with the same header but perhaps with other
statements. -/
theorem methodAt_of_declarations {m : MethodId} {decl : MethodDecl}
    (hm : p.methodAt m = .ok decl) :
    ∃ decl', p'.methodAt m = .ok decl' ∧ decl'.header = decl.header := by
  have hheader : MethodDecl.header <$> p'.methodAt m = .ok decl.header := by
    rw [← methodAt_declarations, h, methodAt_declarations, hm]
    rfl
  exact Outcome.map_eq_ok.1 hheader

end Same

end Program

end PointerAnalysis
