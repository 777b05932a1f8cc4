import PointerAnalysis.Proofs.Program.Ownership

/-!
# Closed programs

A program is closed if it is well-formed and every variable belongs to a method that exists.  Built
programs are well-formed, but need not be closed.  A variable may be declared for a method that is
never declared; this is noticed only if a body or a statement mentions the variable.  A variable that
nothing mentions keeps its method, and then it can not be shown by name.

## Main definitions

- `Program.InUse`: a body or a statement mentions a variable.
- `Program.Closed`: every handle in a program, without exception, names a row.

## Main statements

- `resolves_of_build`: what can be read in a built program, and when the program is closed.
- `strayVar_not_closed`: a built program that is not closed.
-/

namespace PointerAnalysis

namespace Program

variable {p : Program}

/-- A variable is in use: it is `this`, a parameter or a returned variable of a method, or a
statement mentions it. -/
def InUse (p : Program) (v : VarId) : Prop :=
  (∃ m decl body, p.methodAt m = .ok decl ∧ decl.body = some body ∧ v ∈ body.vars) ∨
    ∃ s stmt, p.stmtAt s = .ok stmt ∧ v ∈ stmt.vars

/-- Every handle stored in a program names a row, and so does the method of each variable. -/
structure Closed (p : Program) : Prop extends p.WellFormed where
  varOwner : p.vars.All fun v => p.methods.Has v.method

/-! ## Names of variables -/

theorem WellFormed.exists_varName (wf : p.WellFormed) {m : MethodId} {v : VarId} (h : p.Owns m v)
    (hm : p.methods.Has m) : ∃ name, p.varName v = .ok name := by
  obtain ⟨decl, hd, rfl⟩ := h
  obtain ⟨signature, hs⟩ := wf.exists_methodSignature hm
  refine ⟨s!"{signature}/{decl.name}", ?_⟩
  unfold varName
  rw [hd]
  show (p.methodSignature decl.method >>= _) = _
  rw [hs]
  rfl

/-- A variable can be shown by name exactly if its method exists. -/
theorem WellFormed.exists_varName_iff (wf : p.WellFormed) {v : VarId} {decl : VarDecl}
    (hd : p.varAt v = .ok decl) :
    (∃ name, p.varName v = .ok name) ↔ p.methods.Has decl.method := by
  constructor
  · intro h
    obtain ⟨name, h⟩ := h
    obtain ⟨decl', hd', h⟩ := Outcome.bind_eq_ok.1 h
    obtain rfl := Except.ok.inj (hd.symm.trans hd')
    -- the name contains the signature of the method
    obtain ⟨signature, hs, -⟩ := Outcome.bind_eq_ok.1 h
    obtain ⟨method, hmethod, -⟩ := Outcome.bind_eq_ok.1 hs
    exact has_of_methodAt hmethod
  · exact wf.exists_varName ⟨decl, hd, rfl⟩

/-- A variable in use belongs to a method that exists. -/
theorem Built.exists_owner (hp : p.Built) {v : VarId} (h : p.InUse v) :
    ∃ m, p.Owns m v ∧ p.methods.Has m := by
  rcases h with ⟨m, decl, body, hd, hb, hv⟩ | ⟨s, stmt, hs, hv⟩
  · exact ⟨m, hp.owned.bodyVars m decl body hd hb v hv, has_of_methodAt hd⟩
  · obtain ⟨site, hsite, rfl⟩ := stmtAt_eq_ok.1 hs
    exact ⟨site.method, hp.owned.stmtVars _ s _ (ownerOf_eq_ok.2 ⟨site, hsite, rfl⟩) hs v hv,
      hp.wellFormed.stmtMethod s site hsite⟩

end Program

/-! ## Where variables come from -/

namespace Draft

variable {d : Draft}

/-- The variable that a step declares by name. -/
def Step.var? : Step → Option VarDecl
  | .declareVar m name => some { name, method := m }
  | _ => none

theorem Step.var?_eq_some {s : Step} {decl : VarDecl} :
    s.var? = some decl ↔ s = .declareVar decl.method decl.name := by
  obtain ⟨name, m⟩ := decl
  cases s <;> simp [var?, and_comm]

/-- A step that finds no mistake declares a variable by name, or `this` or a parameter of a method
that exists, or no variable.  No method is lost. -/
theorem Change.vars {s : Step} {d' : Draft} (h : d.Change s d') :
    d.methods.size ≤ d'.methods.size ∧
      (s.var? = none ∧ d'.vars = d.vars ∨
        ∃ decl, d'.vars = d.vars.push decl ∧
          (s.var? = some decl ∨ s.var? = none ∧ d'.methods.Has decl.method)) := by
  cases h with
  | classes hs _ =>
    refine ⟨Nat.le_refl _, Or.inl ⟨?_, rfl⟩⟩
    exact Option.eq_none_iff_forall_ne_some.2 fun decl h => hs _ _ (Step.var?_eq_some.1 h)
  | field _ _ => exact ⟨Nat.le_refl _, Or.inl ⟨rfl, rfl⟩⟩
  | method _ _ _ hvars =>
    refine ⟨Nat.le_of_lt (Nat.lt_of_lt_of_eq (Nat.lt_succ_self _) (Table.size_push _ _).symm), ?_⟩
    rcases hvars with rfl | ⟨self, hself, rfl⟩
    · exact Or.inl ⟨rfl, rfl⟩
    · exact Or.inr ⟨self, rfl, Or.inr ⟨rfl, Table.has_push.2 (Or.inr hself)⟩⟩
  | param hm =>
    obtain ⟨b, hb⟩ := hm
    obtain ⟨decl, hd, -⟩ := Option.bind_eq_some_iff.1 hb
    refine ⟨Nat.le_of_eq (Table.size_modify _ _ _).symm, Or.inr ⟨_, rfl, Or.inr ⟨rfl, ?_⟩⟩⟩
    exact Table.has_modify.2 (Table.has_of_get? hd)
  | var => exact ⟨Nat.le_refl _, Or.inr ⟨_, rfl, Or.inl rfl⟩⟩
  | stmt _ => exact ⟨Nat.le_of_eq (Table.size_modify _ _ _).symm, Or.inl ⟨rfl, rfl⟩⟩

/-- In a draft without noted mistakes, a variable belongs to a method that exists or is declared by
name, and every variable that is declared by name is there. -/
theorem vars_ofSteps {steps : List Step} (h : (ofSteps steps).defects = []) :
    (∀ v decl, (ofSteps steps).vars.get? v = some decl →
      (ofSteps steps).methods.Has decl.method ∨ ∃ s ∈ steps, s.var? = some decl) ∧
    ∀ s ∈ steps, ∀ decl, s.var? = some decl → ∃ v, (ofSteps steps).vars.get? v = some decl := by
  induction steps using List.reverseRecOn with
  | nil =>
    refine ⟨fun v decl hv => ?_, fun s hs => by cases hs⟩
    cases (Table.get?_empty v).symm.trans hv
  | append_singleton steps s ih =>
    rw [ofSteps_concat] at h ⊢
    obtain ⟨hbefore, hchange⟩ := change_of_defects h
    obtain ⟨hsources, hdeclared⟩ := ih hbefore
    obtain ⟨hsize, hvars⟩ := hchange.vars
    -- what was true of an old variable is true of it still
    have hold : ∀ {v decl}, (ofSteps steps).vars.get? v = some decl →
        ((ofSteps steps).step s).2.methods.Has decl.method ∨
          ∃ s' ∈ steps ++ [s], s'.var? = some decl := by
      intro v decl hv
      rcases hsources v decl hv with hm | ⟨s', hs', e⟩
      · exact Or.inl (Nat.lt_of_lt_of_le hm hsize)
      · exact Or.inr ⟨s', List.mem_append_left _ hs', e⟩
    rcases hvars with ⟨hnone, e⟩ | ⟨new, e, hnew⟩
    · rw [e]
      refine ⟨fun v decl => hold, fun s' hs' decl hdecl => ?_⟩
      rcases List.mem_append.1 hs' with hs' | hs'
      · exact hdeclared s' hs' decl hdecl
      · rw [List.mem_singleton.1 hs', hnone] at hdecl
        cases hdecl
    · rw [e]
      refine ⟨fun v decl hv => ?_, fun s' hs' decl hdecl => ?_⟩
      · rcases Table.get?_push_cases hv with hv | ⟨-, rfl⟩
        · exact hold hv
        · exact hnew.symm.imp And.right fun hs =>
            ⟨s, List.mem_append_right _ (List.mem_singleton_self _), hs⟩
      · rcases List.mem_append.1 hs' with hs' | hs'
        · exact (hdeclared s' hs' decl hdecl).imp fun v hv => (Table.extends_push _ _).get? hv
        · rw [List.mem_singleton.1 hs'] at hdecl
          rcases hnew with hs | ⟨hnone, -⟩
          · obtain rfl := Option.some.inj (hs.symm.trans hdecl)
            exact ⟨_, (Table.get?_push _ _ _).trans (if_pos rfl)⟩
          · cases hnone.symm.trans hdecl

end Draft

/-! ## Main statements -/

namespace Program

variable {steps : List Draft.Step} {p : Program}

/-- A built program is closed exactly if no step has declared a variable for a method that is not
there in the end. -/
theorem closed_iff (h : (Draft.ofSteps steps).build = .ok p) :
    p.Closed ↔ ∀ m name, .declareVar m name ∈ steps → p.methods.Has m := by
  have wf := Built.wellFormed ⟨steps, h⟩
  obtain ⟨entry, hchecked, rfl⟩ := Draft.build_eq_ok h
  obtain ⟨hsources, hdeclared⟩ := Draft.vars_ofSteps hchecked.defects
  constructor
  · intro hclosed m name hs
    obtain ⟨v, hv⟩ := hdeclared _ hs _ rfl
    exact hclosed.varOwner v _ hv
  · intro hmethods
    refine { wf with varOwner := fun v decl hv => ?_ }
    rcases hsources v decl hv with hm | ⟨s, hs, hdecl⟩
    · exact Nat.lt_of_lt_of_eq hm (Draft.size_finishedMethods _).symm
    · rw [Draft.Step.var?_eq_some.1 hdecl] at hs
      exact hmethods _ _ hs

/-- Every handle in a built program names a row, but for the methods of variables that are declared
for a method that is never declared.  Nothing mentions such a variable, and to show it by name is the
one thing that fails.  Signatures, field names, lists of dereferences and the methods of statements
can always be read. -/
theorem resolves_of_build (h : (Draft.ofSteps steps).build = .ok p) :
    p.WellFormed ∧
      (p.Closed ↔ ∀ m name, .declareVar m name ∈ steps → p.methods.Has m) ∧
      (∀ v, p.InUse v → ∃ m, p.Owns m v ∧ p.methods.Has m) ∧
      (∀ v decl, p.varAt v = .ok decl →
        ((∃ name, p.varName v = .ok name) ↔ p.methods.Has decl.method)) ∧
      (∀ m, p.methods.Has m → ∃ signature, p.methodSignature m = .ok signature) ∧
      (∀ f, p.fields.Has f → ∃ name, p.fieldName f = .ok name) ∧
      (∀ v, p.vars.Has v → ∃ uses, p.dereferencesOf v = .ok uses ∧ ∀ s ∈ uses.all, p.stmts.Has s) ∧
      ∀ s, p.stmts.Has s → ∃ m, p.ownerOf s = .ok m ∧ p.methods.Has m := by
  have hp : p.Built := ⟨steps, h⟩
  have wf := hp.wellFormed
  refine ⟨wf, closed_iff h, fun v => hp.exists_owner, fun v decl => wf.exists_varName_iff,
    fun m => wf.exists_methodSignature, fun f => wf.exists_fieldName, fun v hv => ?_, fun s hs => ?_⟩
  · refine ⟨p.usesOf v, wf.exists_dereferencesOf hv, fun s hs => ?_⟩
    obtain ⟨stmt, hstmt, -⟩ := mem_usesOf.1 hs
    exact has_of_stmtAt hstmt
  · obtain ⟨site, hsite⟩ := Table.exists_get? hs
    exact ⟨site.method, ownerOf_eq_ok.2 ⟨site, hsite, rfl⟩, wf.stmtMethod s site hsite⟩

/-- The box program declares variables for its own methods only, so it is closed. -/
theorem boxProgram_resolves : boxProgram.Closed := by
  have hbuild : (Draft.ofSteps boxSteps).build = .ok boxProgram := by decide +kernel
  refine (resolves_of_build hbuild).2.1.2 fun m name hs => ?_
  simp only [boxSteps, List.mem_cons, Draft.Step.declareVar.injEq, reduceCtorEq, false_or,
    List.not_mem_nil, or_false] at hs
  rcases hs with ⟨rfl, -⟩ | ⟨rfl, -⟩ <;> decide

/-- The steps of a program with one class and one method, and with a variable of a method that is
not there. -/
def strayVarSteps : List Draft.Step :=
  [.declareClass "A" none, .declareMethod ⟨0⟩ ⟨"void main()"⟩ .static, .setEntry ⟨0⟩,
    .declareVar ⟨99⟩ "x"]

/-- A variable of a method that does not exist is accepted, and then it has no name. -/
theorem strayVar_not_closed :
    ∃ p, (Draft.ofSteps strayVarSteps).build = .ok p ∧ ¬ p.Closed ∧ p.vars.Has ⟨0⟩ ∧
      p.varName ⟨0⟩ = .error .dangling := by
  have hvar : ((Draft.ofSteps strayVarSteps).build.map fun p =>
      (p.vars.get? ⟨0⟩, p.methods.size, p.varName ⟨0⟩)) =
      .ok (some { name := "x", method := ⟨99⟩ }, 1, .error .dangling) := by decide +kernel
  cases hbuild : (Draft.ofSteps strayVarSteps).build with
  | error e =>
    rw [hbuild] at hvar
    cases hvar
  | ok p =>
    rw [hbuild] at hvar
    obtain ⟨hv, hrest⟩ := Prod.mk.inj (Except.ok.inj hvar)
    obtain ⟨hsize, hname⟩ := Prod.mk.inj hrest
    refine ⟨p, rfl, fun hclosed => ?_, Table.has_of_get? hv, hname⟩
    have hm : (99 : Nat) < p.methods.size := hclosed.varOwner _ _ hv
    omega

end Program

end PointerAnalysis
