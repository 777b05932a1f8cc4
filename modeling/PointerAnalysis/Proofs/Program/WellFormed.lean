import PointerAnalysis.Proofs.Outcome
import PointerAnalysis.Proofs.Rules

/-!
# Well-formed programs

In a well-formed program every handle names a row, and the lists of dereferences are those of the
statements.  The programs that drafts are built into are well-formed; this is all that the theory
of runs asks of a program.

## Main definitions

- `Program.WellFormed`: every handle stored in a program names a row.
- `Program.usesOf`: the statements that follow a variable, read off the table of statements.
-/

namespace PointerAnalysis

/-! ## What statements mention -/

namespace Stmt

/-- The classes a statement names. -/
def classRefs : Stmt → List ClassId
  | alloc _ type => [type.base]
  | load _ _ r | store _ r _ => [r.cls]
  | invoke call => [call.methodRef.cls]
  | copy _ _ | loadArray _ _ | storeArray _ _ | ret _ | nop => []

/-- The variable whose object gets a field stored. -/
def storeBase? : Stmt → Option VarId
  | store base _ _ => base
  | _ => none

/-- The variable whose object has a field loaded. -/
def loadBase? : Stmt → Option VarId
  | load _ base _ => base
  | _ => none

/-- The array that gets an element stored. -/
def storeArrayBase? : Stmt → Option VarId
  | storeArray base _ => some base
  | _ => none

/-- The array that has an element loaded. -/
def loadArrayBase? : Stmt → Option VarId
  | loadArray _ base => some base
  | _ => none

/-- The variable a method is called on. -/
def receiver? : Stmt → Option VarId
  | invoke call => call.receiver
  | _ => none

/-- A statement follows a variable in one of five ways, for which there are five lists. -/
theorem base?_eq_some {stmt : Stmt} {v : VarId} :
    stmt.base? = some v ↔ stmt.storeBase? = some v ∨ stmt.loadBase? = some v ∨
      stmt.storeArrayBase? = some v ∨ stmt.loadArrayBase? = some v ∨
        stmt.receiver? = some v := by
  cases stmt <;> simp [base?, storeBase?, loadBase?, storeArrayBase?, loadArrayBase?, receiver?]

end Stmt

/-- The variables a body names apart from its statements. -/
def Body.vars (body : Body) : List VarId := body.self.toList ++ body.params ++ body.returned

/-- All statements that follow a variable, in the order they are looked at. -/
def Dereferences.all (uses : Dereferences) : List StmtId :=
  uses.fieldStores ++ uses.fieldLoads ++ uses.arrayStores ++ uses.arrayLoads ++ uses.calls

/-! ## Statements that follow a variable -/

/-- The statements in a list that a test assigns to `v`. -/
def statementsOn (entries : List (StmtId × Site)) (test : Stmt → Option VarId) (v : VarId) :
    List StmtId :=
  entries.filterMap fun (s, site) => if test site.stmt = some v then some s else none

/-- The statements in a list that follow `v`, by their sort. -/
def usesAmong (entries : List (StmtId × Site)) (v : VarId) : Dereferences where
  fieldStores := statementsOn entries Stmt.storeBase? v
  fieldLoads := statementsOn entries Stmt.loadBase? v
  arrayStores := statementsOn entries Stmt.storeArrayBase? v
  arrayLoads := statementsOn entries Stmt.loadArrayBase? v
  calls := statementsOn entries Stmt.receiver? v

/-- A list of statements on a variable has those that the test assigns to it. -/
theorem mem_statementsOn {entries : List (StmtId × Site)} {test : Stmt → Option VarId} {v : VarId}
    {s : StmtId} :
    s ∈ statementsOn entries test v ↔ ∃ site, (s, site) ∈ entries ∧ test site.stmt = some v := by
  simp [statementsOn, List.mem_filterMap]

theorem length_statementsOn_le (entries : List (StmtId × Site)) (test : Stmt → Option VarId)
    (v : VarId) : (statementsOn entries test v).length ≤ entries.length :=
  List.length_filterMap_le _ _

/-- The five lists together have all statements that follow a variable. -/
theorem mem_all_usesAmong {entries : List (StmtId × Site)} {v : VarId} {s : StmtId} :
    s ∈ (usesAmong entries v).all ↔ ∃ site, (s, site) ∈ entries ∧ site.stmt.base? = some v := by
  simp only [Dereferences.all, usesAmong, List.mem_append, mem_statementsOn, Stmt.base?_eq_some]
  constructor
  · intro hs
    rcases hs with (((⟨site, h, e⟩ | ⟨site, h, e⟩) | ⟨site, h, e⟩) | ⟨site, h, e⟩) | ⟨site, h, e⟩
    all_goals exact ⟨site, h, by simp [e]⟩
  · intro hs
    -- one case for each of the lists, in the order in which they are appended
    obtain ⟨site, h, e | e | e | e | e⟩ := hs
    · exact Or.inl (Or.inl (Or.inl (Or.inl ⟨site, h, e⟩)))
    · exact Or.inl (Or.inl (Or.inl (Or.inr ⟨site, h, e⟩)))
    · exact Or.inl (Or.inl (Or.inr ⟨site, h, e⟩))
    · exact Or.inl (Or.inr ⟨site, h, e⟩)
    · exact Or.inr ⟨site, h, e⟩

/-! ## Well-formedness -/

namespace Program

/-- The statements of a program that follow `v`, by their sort. -/
def usesOf (p : Program) (v : VarId) : Dereferences := usesAmong p.stmts.entries v

/-- Every handle stored in a program names a row. -/
structure WellFormed (p : Program) : Prop where
  -- the hierarchy
  superclass : p.classes.All fun c => ∀ d, c.superclass = some d → p.classes.Has d
  interfaces : p.classes.All fun c => ∀ d ∈ c.interfaces, p.classes.Has d
  -- members and their bodies
  methodOwner : p.methods.All fun m => p.classes.Has m.owner
  fieldOwner : p.fields.All fun f => p.classes.Has f.owner
  bodyVars : p.methods.All fun m => ∀ body, m.body = some body → ∀ v ∈ body.vars, p.vars.Has v
  bodyStmts : p.methods.All fun m => ∀ body, m.body = some body →
    body.stmts.Nodup ∧ ∀ s ∈ body.stmts, p.stmts.Has s
  -- statements
  stmtMethod : p.stmts.All fun site => p.methods.Has site.method
  stmtVars : p.stmts.All fun site => ∀ v ∈ site.stmt.vars, p.vars.Has v
  stmtClasses : p.stmts.All fun site => ∀ c ∈ site.stmt.classRefs, p.classes.Has c
  -- the lists of dereferences
  dereferences : p.dereferences.size = p.vars.size
  uses : ∀ v uses, p.dereferences.get? v = some uses → uses = p.usesOf v
  entry : p.methods.Has p.entry
  root : ∀ c, p.root = some c → p.classes.Has c

/-! ## Reading rows -/

section Rows

variable {p : Program}

theorem exists_classAt {c : ClassId} (h : p.classes.Has c) : ∃ decl, p.classAt c = .ok decl :=
  (Table.exists_get? h).imp fun _ e => Outcome.ofRow_eq_ok.2 e

theorem exists_methodAt {m : MethodId} (h : p.methods.Has m) : ∃ decl, p.methodAt m = .ok decl :=
  (Table.exists_get? h).imp fun _ e => Outcome.ofRow_eq_ok.2 e

theorem exists_fieldAt {f : FieldId} (h : p.fields.Has f) : ∃ decl, p.fieldAt f = .ok decl :=
  (Table.exists_get? h).imp fun _ e => Outcome.ofRow_eq_ok.2 e

theorem exists_siteAt {s : StmtId} (h : p.stmts.Has s) : ∃ site, p.siteAt s = .ok site :=
  (Table.exists_get? h).imp fun _ e => Outcome.ofRow_eq_ok.2 e

/-- A statement is read from the row for it, which also says to which method it belongs. -/
theorem stmtAt_eq_ok {s : StmtId} {stmt : Stmt} :
    p.stmtAt s = .ok stmt ↔ ∃ site, p.stmts.get? s = some site ∧ site.stmt = stmt := by
  simp [stmtAt, siteAt, Outcome.map_eq_ok]

theorem has_of_stmtAt {s : StmtId} {stmt : Stmt} (h : p.stmtAt s = .ok stmt) : p.stmts.Has s := by
  obtain ⟨site, hs, -⟩ := stmtAt_eq_ok.1 h
  exact Table.has_of_get? hs

theorem has_of_methodAt {m : MethodId} {decl : MethodDecl} (h : p.methodAt m = .ok decl) :
    p.methods.Has m :=
  Table.has_of_get? (Outcome.ofRow_eq_ok.1 h)

/-- A type has a name if its base class exists. -/
theorem exists_typeName {type : RefType} (h : p.classes.Has type.base) :
    ∃ name, p.typeName type = .ok name := by
  -- an array type has the base class of its elements
  induction type with
  | cls c =>
    obtain ⟨decl, hd⟩ := exists_classAt h
    exact ⟨decl.name, Outcome.map_eq_ok.2 ⟨decl, hd, rfl⟩⟩
  | array elem ih =>
    obtain ⟨name, hname⟩ := ih h
    exact ⟨_, Outcome.bind_eq_ok.2 ⟨name, hname, rfl⟩⟩

/-- The statements that follow a variable. -/
theorem mem_usesOf {v : VarId} {s : StmtId} :
    s ∈ (p.usesOf v).all ↔ ∃ stmt, p.stmtAt s = .ok stmt ∧ stmt.base? = some v := by
  simp only [usesOf, mem_all_usesAmong, Table.mem_entries, stmtAt_eq_ok]
  constructor
  · intro hs
    obtain ⟨site, hs, hb⟩ := hs
    exact ⟨site.stmt, ⟨site, hs, rfl⟩, hb⟩
  · intro hs
    obtain ⟨_, ⟨site, hs, rfl⟩, hb⟩ := hs
    exact ⟨site, hs, hb⟩

end Rows

namespace WellFormed

variable {p : Program} (wf : p.WellFormed)
include wf

/-- The variables of a statement exist. -/
theorem stmt_vars {s : StmtId} {stmt : Stmt} (h : p.stmtAt s = .ok stmt) {v : VarId}
    (hv : v ∈ stmt.vars) : p.vars.Has v := by
  obtain ⟨site, hs, rfl⟩ := stmtAt_eq_ok.1 h
  exact wf.stmtVars s site hs v hv

/-- The classes that a statement names exist, so its references can be resolved. -/
theorem stmt_classes {s : StmtId} {stmt : Stmt} (h : p.stmtAt s = .ok stmt) {c : ClassId}
    (hc : c ∈ stmt.classRefs) : p.classes.Has c := by
  obtain ⟨site, hs, rfl⟩ := stmtAt_eq_ok.1 h
  exact wf.stmtClasses s site hs c hc

/-- The variables that a body names exist. -/
theorem body_vars {m : MethodId} {decl : MethodDecl} (h : p.methodAt m = .ok decl) {body : Body}
    (hb : decl.body = some body) {v : VarId} (hv : v ∈ body.vars) : p.vars.Has v :=
  wf.bodyVars m decl (Outcome.ofRow_eq_ok.1 h) body hb v hv

/-- The class that declares a method exists. -/
theorem owner {m : MethodId} {decl : MethodDecl} (h : p.methodAt m = .ok decl) :
    p.classes.Has decl.owner :=
  wf.methodOwner m decl (Outcome.ofRow_eq_ok.1 h)

/-- A method that exists can be shown. -/
theorem exists_methodSignature {m : MethodId} (h : p.methods.Has m) :
    ∃ signature, p.methodSignature m = .ok signature := by
  obtain ⟨decl, hd⟩ := exists_methodAt h
  obtain ⟨c, hc⟩ := exists_classAt (wf.owner hd)
  refine ⟨s!"<{c.name}: {decl.subsignature.text}>", ?_⟩
  unfold methodSignature
  rw [hd]
  show (p.classAt decl.owner >>= _) = _
  rw [hc]
  rfl

/-- A field that exists can be shown. -/
theorem exists_fieldName {f : FieldId} (h : p.fields.Has f) : ∃ name, p.fieldName f = .ok name := by
  obtain ⟨decl, hd⟩ := exists_fieldAt h
  obtain ⟨c, hc⟩ := exists_classAt (wf.fieldOwner f decl (Outcome.ofRow_eq_ok.1 hd))
  refine ⟨s!"{c.name}.{decl.name}", ?_⟩
  unfold fieldName
  rw [hd]
  show (p.classAt decl.owner >>= _) = _
  rw [hc]
  rfl

/-- The lists that were made while the program was built are those of the statements. -/
theorem exists_dereferencesOf {v : VarId} (h : p.vars.Has v) :
    p.dereferencesOf v = .ok (p.usesOf v) := by
  -- there are lists for each variable
  have hv : p.dereferences.Has v := by
    unfold Table.Has
    rw [wf.dereferences]
    exact h
  obtain ⟨uses, hu⟩ := Table.exists_get? hv
  rw [dereferencesOf, hu, wf.uses v uses hu]
  rfl

end WellFormed

end Program

end PointerAnalysis
