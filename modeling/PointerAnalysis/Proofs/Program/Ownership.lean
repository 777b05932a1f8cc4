import PointerAnalysis.Proofs.Program.Build

/-!
# Who owns what

In a built program every statement stands in the body of the method it belongs to and in no other
body, and a method mentions its own variables only.  So the context of a variable is always a
context of one method.

## Main definitions

- `Program.Owns`: a variable belongs to a method.
- `Program.Owned`: statements and variables are used by their owners only.

## Main statements

- `Program.Built.owned`: built programs are owned.
- `Program.Owned.executes_iff`: a method executes its own statements.
-/

namespace PointerAnalysis

namespace Program

variable {p : Program}

/-- A variable belongs to a method. -/
def Owns (p : Program) (m : MethodId) (v : VarId) : Prop :=
  ∃ decl, p.varAt v = .ok decl ∧ decl.method = m

theorem Owns.inj {m m' : MethodId} {v : VarId} (h : p.Owns m v) (h' : p.Owns m' v) : m = m' := by
  obtain ⟨decl, hd, rfl⟩ := h
  obtain ⟨decl', hd', rfl⟩ := h'
  obtain rfl := Except.ok.inj (hd.symm.trans hd')
  rfl

/-- Statements and variables are used by the methods that own them, and by no others. -/
structure Owned (p : Program) : Prop where
  /-- A statement belongs to the method in whose body it stands. -/
  ownerOf : ∀ m decl body s, p.methodAt m = .ok decl → decl.body = some body → s ∈ body.stmts →
    p.ownerOf s = .ok m
  /-- A statement stands in the body of the method it belongs to. -/
  standsIn : ∀ m s, p.ownerOf s = .ok m → ∃ decl body, p.methodAt m = .ok decl ∧
    decl.body = some body ∧ s ∈ body.stmts
  bodyVars : ∀ m decl body, p.methodAt m = .ok decl → decl.body = some body →
    ∀ v ∈ body.vars, p.Owns m v
  stmtVars : ∀ m s stmt, p.ownerOf s = .ok m → p.stmtAt s = .ok stmt →
    ∀ v ∈ stmt.vars, p.Owns m v

theorem ownerOf_eq_ok {s : StmtId} {m : MethodId} :
    p.ownerOf s = .ok m ↔ ∃ site, p.stmts.get? s = some site ∧ site.method = m := by
  simp [ownerOf, siteAt, Outcome.map_eq_ok]

namespace Owned

variable (ho : p.Owned)
include ho

/-- A method executes the statements that belong to it. -/
theorem executes_iff {m : MethodId} {s : StmtId} {stmt : Stmt} :
    p.Executes m s stmt ↔ p.ownerOf s = .ok m ∧ p.stmtAt s = .ok stmt := by
  constructor
  · intro h
    obtain ⟨decl, body, hd, hb, hs, hstmt⟩ := h
    exact ⟨ho.ownerOf m decl body s hd hb hs, hstmt⟩
  · intro h
    obtain ⟨howner, hstmt⟩ := h
    obtain ⟨decl, body, hd, hb, hs⟩ := ho.standsIn m s howner
    exact ⟨decl, body, hd, hb, hs, hstmt⟩

/-- A method mentions its own variables. -/
theorem owns_of_executes {m : MethodId} {s : StmtId} {stmt : Stmt} (h : p.Executes m s stmt)
    {v : VarId} (hv : v ∈ stmt.vars) : p.Owns m v :=
  have h := ho.executes_iff.1 h
  ho.stmtVars m s stmt h.1 h.2 v hv

/-- All variables of a statement belong to one method. -/
theorem owns_of_stmt {m : MethodId} {s : StmtId} {stmt : Stmt} (hs : p.stmtAt s = .ok stmt)
    {v w : VarId} (hv : v ∈ stmt.vars) (hw : w ∈ stmt.vars) (h : p.Owns m v) : p.Owns m w := by
  obtain ⟨site, hsite, rfl⟩ := stmtAt_eq_ok.1 hs
  have howner : p.ownerOf s = .ok site.method := ownerOf_eq_ok.2 ⟨site, hsite, rfl⟩
  obtain rfl := h.inj (ho.stmtVars _ s _ howner hs v hv)
  exact ho.stmtVars _ s _ howner hs w hw

end Owned

end Program

/-- The variable a statement follows is one of its variables. -/
theorem Stmt.mem_vars_of_base? {stmt : Stmt} {v : VarId} (h : stmt.base? = some v) :
    v ∈ stmt.vars := by
  cases stmt <;> simp_all [base?, vars, uses]

/-! ## Built programs -/

namespace Draft

variable {d : Draft} {entry : MethodId}

theorem owns_of_checkVar {m : MethodId} {v : VarId} (h : d.checkVar m v = .ok ()) :
    (d.program entry).Owns m v := by
  unfold checkVar at h
  split at h
  · exact absurd h Outcome.defect_ne_ok
  · rename_i decl hv
    split at h
    · exact ⟨decl, Outcome.ofRow_eq_ok.2 hv, ‹_›⟩
    · exact absurd h Outcome.defect_ne_ok

/-- The check of a body finds that all its variables belong to the method. -/
theorem owns_of_checkBody {m : MethodId} {body : Body} (h : d.checkBody m body = .ok ()) :
    (∀ v ∈ body.self.toList ++ body.params, (d.program entry).Owns m v) ∧
      ∀ s ∈ body.stmts, ∀ site, d.stmts.get? s = some site →
        ∀ v ∈ site.stmt.vars, (d.program entry).Owns m v := by
  obtain ⟨hvars, hstmts⟩ := checkBody_eq_ok h
  exact ⟨fun v hv => owns_of_checkVar (hvars v hv), fun s hs site e v hv =>
    owns_of_checkVar ((hstmts s hs site e).1 v hv)⟩

/-- In the program of a consistent draft that passes the checks, statements and variables are used
by their owners only. -/
theorem Checked.owned (h : d.Checked entry) (hd : d.Consistent) : (d.program entry).Owned := by
  have hstmt : ∀ {s site}, d.stmts.get? s = some site →
      ∀ v ∈ site.stmt.vars, (d.program entry).Owns site.method v := by
    intro s site hs
    obtain ⟨old, b, hold, hob, hmem⟩ := hd.stmtBody s site hs
    exact (owns_of_checkBody (h.bodies _ old b hold hob)).2 s hmem site hs
  refine
    { ownerOf := fun m decl body s hm hb hs => ?_
      standsIn := fun m s howner => ?_
      bodyVars := fun m decl body hm hb v hv => ?_
      stmtVars := fun m s stmt howner hs v hv => ?_ }
  · obtain ⟨old, b, hold, hob, rfl⟩ := exists_body_of_get? (Outcome.ofRow_eq_ok.1 hm) hb
    obtain ⟨site, hsite, e⟩ := (hd.bodyStmts m old b hold hob).2 s hs
    exact Program.ownerOf_eq_ok.2 ⟨site, hsite, e⟩
  · obtain ⟨site, hsite, rfl⟩ := Program.ownerOf_eq_ok.1 howner
    obtain ⟨old, b, hold, hob, hmem⟩ := hd.stmtBody s site hsite
    exact ⟨_, _, Outcome.ofRow_eq_ok.2 (get?_finishedMethods.2 ⟨old, hold, rfl⟩),
      congrArg (Option.map _) hob, hmem⟩
  · obtain ⟨old, b, hold, hob, rfl⟩ := exists_body_of_get? (Outcome.ofRow_eq_ok.1 hm) hb
    rcases List.mem_append.1 hv with hv | hv
    · exact (owns_of_checkBody (h.bodies m old b hold hob)).1 v hv
    · -- a returned variable is one of the statement that returns it
      obtain ⟨s, hs, site, hsite, hv⟩ := mem_returnedBy hv
      exact (owns_of_checkBody (h.bodies m old b hold hob)).2 s hs site hsite v hv
  · obtain ⟨site, hsite, rfl⟩ := Program.ownerOf_eq_ok.1 howner
    obtain ⟨site', hsite', rfl⟩ := Program.stmtAt_eq_ok.1 hs
    obtain rfl := Option.some.inj (hsite.symm.trans hsite')
    exact hstmt hsite v hv

end Draft

/-- In built programs statements and variables are used by their owners only. -/
theorem Program.Built.owned {p : Program} (h : p.Built) : p.Owned := by
  obtain ⟨steps, h⟩ := h
  obtain ⟨entry, hchecked, rfl⟩ := Draft.build_eq_ok h
  exact hchecked.owned (Draft.consistent_ofSteps hchecked.defects)

end PointerAnalysis
