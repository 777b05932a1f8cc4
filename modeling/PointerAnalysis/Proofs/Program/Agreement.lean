import PointerAnalysis.Proofs.Program.Bodies
import PointerAnalysis.Proofs.Program.Declarations

/-!
# Programs that agree on some methods

Two programs with the same declarations, variables and owners of statements may differ in the
statements of some methods only.  On the other methods everything that is computed from statements
is then the same: their bodies, the variables they return, and the statements that follow their
variables.  The lists of statements that follow a variable are made from the statements of all
methods, but no method mentions the variables of another one.

## Main definitions

- `Program.AgreesOn`: the statements of some methods are the same.

## Main statements

- `AgreesOn.methodAt_eq`, `AgreesOn.dereferencesOf_eq`, `AgreesOn.objFor_eq`: what is read of these
  methods, of their variables and of their allocations is the same.
-/

namespace PointerAnalysis

namespace Table

variable {k : Kind} {α β : Type} {t t' : Table k α}

/-- The entry at a position is the row there, with its handle. -/
theorem getElem?_entries (i : Nat) : t.entries[i]? = (t.get? ⟨i⟩).map fun a => (⟨i⟩, a) := by
  simp [entries, get?_eq_toList, List.getElem?_zipIdx, Function.comp_def]

/-- What is collected from two tables is the same if each row contributes the same. -/
theorem filterMap_entries_congr {f : Handle k × α → Option β}
    (h : ∀ i, (t'.get? i).map (fun a => f (i, a)) = (t.get? i).map fun a => f (i, a)) :
    t'.entries.filterMap f = t.entries.filterMap f := by
  have hmap : t'.entries.map f = t.entries.map f := List.ext_getElem? fun i => by
    simpa [getElem?_entries, Function.comp_def] using h ⟨i⟩
  simpa [List.filterMap_map] using congrArg (List.filterMap id) hmap

/-- Tables with the same handles have the same size. -/
theorem size_eq_of_has (h : ∀ i, t'.Has i ↔ t.Has i) : t'.size = t.size := by
  have hle := h ⟨t.size⟩
  have hge := h ⟨t'.size⟩
  simp only [Has] at hle hge
  omega

end Table

/-- A method is its header and its body. -/
theorem MethodDecl.eq_of_header {decl decl' : MethodDecl} (h : decl'.header = decl.header)
    (hb : decl'.body = decl.body) : decl' = decl := by
  cases decl
  cases decl'
  simp_all [header]

namespace Program

/-- The programs have the same declarations and variables, their statements belong to the same
methods, and the statements of the methods in `R` are the same. -/
structure AgreesOn (p p' : Program) (R : MethodId → Prop) : Prop where
  declarations : p'.declarations = p.declarations
  vars : p'.vars = p.vars
  owners : ∀ s, p'.ownerOf s = p.ownerOf s
  stmts : ∀ s m, p.ownerOf s = .ok m → R m → p'.stmtAt s = p.stmtAt s

namespace AgreesOn

variable {p p' : Program} {R : MethodId → Prop} (ha : p.AgreesOn p' R)
include ha

/-! ## Statements -/

/-- The tables of statements agree on the owners, row by row. -/
theorem map_method (s : StmtId) :
    (p'.stmts.get? s).map Site.method = (p.stmts.get? s).map Site.method := by
  have howner := ha.owners s
  unfold ownerOf siteAt at howner
  revert howner
  cases p'.stmts.get? s <;> cases p.stmts.get? s <;> simp [Outcome.ofRow, Functor.map, Except.map]

/-- Programs that agree number as many statements. -/
theorem size_stmts : p'.stmts.size = p.stmts.size := by
  refine Table.size_eq_of_has fun s => not_iff_not.1 ?_
  rw [← Table.get?_eq_none_iff, ← Table.get?_eq_none_iff, ← Option.map_eq_none_iff (f := Site.method),
    ha.map_method, Option.map_eq_none_iff]

/-- The statements of a method in `R`. -/
theorem get?_eq {s : StmtId} {m : MethodId} (howner : p.ownerOf s = .ok m) (hm : R m) :
    p'.stmts.get? s = p.stmts.get? s := by
  obtain ⟨site, hsite, rfl⟩ := ownerOf_eq_ok.1 howner
  obtain ⟨site', hsite', hmethod⟩ := ownerOf_eq_ok.1 ((ha.owners s).trans howner)
  have hstmt := ha.stmts s site.method howner hm
  rw [stmtAt_eq_ok.2 ⟨site, hsite, rfl⟩, stmtAt_eq_ok.2 ⟨site', hsite', rfl⟩] at hstmt
  rw [hsite, hsite']
  cases site
  cases site'
  simp_all

/-- A statement of a method in `R` is read the same in both programs. -/
theorem siteAt_eq {s : StmtId} {m : MethodId} (howner : p.ownerOf s = .ok m) (hm : R m) :
    p'.siteAt s = p.siteAt s := by
  rw [siteAt, siteAt, ha.get?_eq howner hm]

/-- Variables belong to the same methods in both programs. -/
theorem owns_iff {m : MethodId} {v : VarId} : p'.Owns m v ↔ p.Owns m v := by
  rw [Owns, Owns, varAt, varAt, ha.vars]

/-! ## Bodies -/

/-- The statements that belong to a method have the same handles. -/
theorem stmtsAmong_eq (m : MethodId) :
    stmtsAmong p'.stmts.entries m = stmtsAmong p.stmts.entries m := by
  refine Table.filterMap_entries_congr fun s => ?_
  have h := congrArg (Option.map fun n => if n = m then some s else none) (ha.map_method s)
  simpa [Function.comp_def] using h

/-- A body of a method in `R` holds the same statements, and they return the same. -/
theorem body_eq (hp : p.Built) (hp' : p'.Built) {m : MethodId} (hm : R m) {decl decl' : MethodDecl}
    (hd : p.methodAt m = .ok decl) (hd' : p'.methodAt m = .ok decl')
    (hheader : decl'.header = decl.header) : decl'.body = decl.body := by
  cases hb : decl.body with
  | none =>
    have hnone := congrArg MethodDecl.body hheader
    simp only [MethodDecl.header, hb, Option.map_none, Option.map_eq_none_iff] at hnone
    exact hnone
  | some body =>
    obtain ⟨body', hb', hself, hparams⟩ := MethodDecl.exists_body_of_header hheader hb
    have hstmts : body'.stmts = body.stmts := by
      rw [hp'.assembled.stmts m decl' body' hd' hb', hp.assembled.stmts m decl body hd hb,
        ha.stmtsAmong_eq]
    have hreturned : body'.returned = body.returned := by
      rw [hp'.assembled.returned m decl' body' hd' hb', hp.assembled.returned m decl body hd hb,
        hstmts]
      exact returnedAmong_congr fun s hs => ha.get?_eq (hp.owned.ownerOf m decl body s hd hb hs) hm
    rw [hb', Option.some.injEq]
    cases body
    cases body'
    simp_all

/-- Methods in `R` are the same. -/
theorem methodAt_eq (hp : p.Built) (hp' : p'.Built) {m : MethodId} (hm : R m) :
    p'.methodAt m = p.methodAt m := by
  cases hd : p.methodAt m with
  | ok decl =>
    obtain ⟨decl', hd', hheader⟩ := methodAt_of_declarations ha.declarations hd
    rw [hd', MethodDecl.eq_of_header hheader (ha.body_eq hp hp' hm hd hd' hheader)]
  | error e =>
    have h : MethodDecl.header <$> p'.methodAt m = MethodDecl.header <$> p.methodAt m := by
      rw [← methodAt_declarations, ha.declarations, methodAt_declarations]
    rw [hd] at h
    cases hd' : p'.methodAt m <;> rw [hd'] at h <;> cases h
    rfl

/-- The object of an allocation in a method in `R`. -/
theorem objFor_eq (hp : p.Built) (hp' : p'.Built) {s : StmtId} {m : MethodId}
    (howner : p.ownerOf s = .ok m) (hm : R m) (heap : Heap) :
    heap.objFor p' s = heap.objFor p s := by
  obtain ⟨site, hsite, rfl⟩ := ownerOf_eq_ok.1 howner
  have hsite : p.siteAt s = .ok site := Outcome.ofRow_eq_ok.2 hsite
  simp only [Heap.objFor, ha.siteAt_eq howner hm, hsite, bind, Except.bind,
    ha.methodAt_eq hp hp' hm]

/-! ## Statements that follow a variable -/

/-- No statement of another method follows a variable of a method in `R`, in either program. -/
theorem statementsOn_eq (ho : p.Owned) (ho' : p'.Owned) {m : MethodId} (hm : R m) {v : VarId}
    (hv : p.Owns m v) {test : Stmt → Option VarId}
    (htest : ∀ stmt, test stmt = some v → stmt.base? = some v) :
    statementsOn p'.stmts.entries test v = statementsOn p.stmts.entries test v := by
  refine Table.filterMap_entries_congr fun s => ?_
  have hmethod := ha.map_method s
  cases hsite : p.stmts.get? s with
  | none =>
    rw [hsite, Option.map_none, Option.map_eq_none_iff] at hmethod
    rw [hmethod]
  | some site =>
    have howner : p.ownerOf s = .ok site.method := ownerOf_eq_ok.2 ⟨site, hsite, rfl⟩
    by_cases hsame : site.method = m
    · rw [ha.get?_eq howner (hsame ▸ hm), hsite]
    · -- the statement mentions other variables, whatever it is
      obtain ⟨site', hsite', howner'⟩ := ownerOf_eq_ok.1 ((ha.owners s).trans howner)
      have hno : ∀ stmt, p.stmtAt s = .ok stmt ∨ p'.stmtAt s = .ok stmt → test stmt ≠ some v := by
        intro stmt hs htrue
        have hmem := Stmt.mem_vars_of_base? (htest stmt htrue)
        rcases hs with hs | hs
        · exact hsame ((ho.stmtVars _ s stmt howner hs v hmem).inj hv)
        · exact hsame ((ha.owns_iff.1
            (ho'.stmtVars _ s stmt ((ha.owners s).trans howner) hs v hmem)).inj hv)
      simp [hsite', hno site.stmt (Or.inl (stmtAt_eq_ok.2 ⟨site, hsite, rfl⟩)),
        hno site'.stmt (Or.inr (stmtAt_eq_ok.2 ⟨site', hsite', rfl⟩))]

/-- The statements that follow a variable of a method in `R` are the same. -/
theorem usesOf_eq (ho : p.Owned) (ho' : p'.Owned) {m : MethodId} (hm : R m) {v : VarId}
    (hv : p.Owns m v) : p'.usesOf v = p.usesOf v := by
  have heq : ∀ {test : Stmt → Option VarId}, (∀ stmt, test stmt = some v → stmt.base? = some v) →
      statementsOn p'.stmts.entries test v = statementsOn p.stmts.entries test v :=
    fun htest => ha.statementsOn_eq ho ho' hm hv htest
  unfold usesOf usesAmong
  congr 1 <;> exact heq fun stmt h => Stmt.base?_eq_some.2 (by simp [h])

/-- The lists that a run looks up for such a variable are the same. -/
theorem dereferencesOf_eq (hp : p.Built) (hp' : p'.Built) {m : MethodId} (hm : R m) {v : VarId}
    (hv : p.Owns m v) : p'.dereferencesOf v = p.dereferencesOf v := by
  have hhas : p.vars.Has v := by
    obtain ⟨decl, hdecl, -⟩ := hv
    exact Table.has_of_get? (Outcome.ofRow_eq_ok.1 hdecl)
  rw [hp.wellFormed.exists_dereferencesOf hhas,
    hp'.wellFormed.exists_dereferencesOf (ha.vars ▸ hhas), ha.usesOf_eq hp.owned hp'.owned hm hv]

end AgreesOn

end Program

end PointerAnalysis
