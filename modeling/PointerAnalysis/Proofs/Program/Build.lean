import PointerAnalysis.Program.Draft
import PointerAnalysis.Proofs.Program.WellFormed

/-!
# Built programs are well-formed

Handles may be used in a draft before the entity they name is declared, or without its ever being
declared.  What a draft notes while it grows and what `build` checks at the end leave no such handle
in a program.

## Main definitions

- `Program.Built`: the program is what `build` makes of some draft.
- `Draft.Consistent`: what holds of every draft that has noted no mistake.
- `Draft.Change`: what a step makes of a draft when it finds no mistake.
- `returnedAmong`: the variables that some statements return.

## Main statements

- `change_of_defects`: a step that leaves no mistake does what it should.
- `consistent_ofSteps`: a draft without noted mistakes is consistent, whatever the steps.
- `Program.Built.wellFormed`: built programs are well-formed.
-/

namespace PointerAnalysis

/-- The program is what `build` makes of the draft after some steps. -/
def Program.Built (p : Program) : Prop := ∃ steps, (Draft.ofSteps steps).build = .ok p

/-! ## Returned variables -/

/-- The variables that some statements return, each once, in the order of their first return. -/
def returnedAmong (stmts : Table .stmt Site) (body : List StmtId) : List VarId :=
  Draft.returnedBy { stmts } { stmts := body }

/-- A variable is listed exactly if one of the statements returns it. -/
theorem mem_returnedAmong {stmts : Table .stmt Site} {body : List StmtId} {v : VarId} :
    v ∈ returnedAmong stmts body ↔
      ∃ s ∈ body, (stmts.get? s).map Site.stmt = some (.ret (some v)) := by
  simp only [returnedAmong, Draft.returnedBy]
  -- variables are collected from the first statement to the last
  induction body using List.reverseRecOn with
  | nil => simp
  | append_singleton body s ih =>
    simp only [List.foldl_append, List.foldl_cons, List.foldl_nil, List.mem_append,
      List.mem_singleton, or_and_right, exists_or, exists_eq_left, ← ih]
    split
    · rename_i w hw
      simp only [hw, Option.some.injEq, Stmt.ret.injEq]
      split
      · rename_i hmem
        exact ⟨Or.inl, fun h => h.elim id fun e => e ▸ hmem⟩
      · simp [eq_comm]
    · rename_i hne
      exact ⟨Or.inl, fun h => h.elim id fun e => absurd e (hne v)⟩

namespace Draft

/-! ## Drafts without mistakes -/

/-- What holds of every draft that has noted no mistake. -/
structure Consistent (d : Draft) : Prop where
  methodOwner : d.methods.All fun m => d.classes.Has m.owner
  fieldOwner : d.fields.All fun f => d.classes.Has f.owner
  bodyStmts : ∀ m decl body, d.methods.get? m = some decl → decl.body = some body →
    body.stmts.Nodup ∧ ∀ s ∈ body.stmts, ∃ site, d.stmts.get? s = some site ∧ site.method = m
  stmtBody : ∀ s site, d.stmts.get? s = some site → ∃ decl body,
    d.methods.get? site.method = some decl ∧ decl.body = some body ∧ s ∈ body.stmts

variable {d : Draft}

/-- A draft begins with nothing that could be inconsistent. -/
theorem consistent_empty : ({} : Draft).Consistent where
  methodOwner := Table.all_empty _
  fieldOwner := Table.all_empty _
  bodyStmts _ _ _ h := by rw [Table.get?_empty] at h; cases h
  stmtBody _ _ h := by rw [Table.get?_empty] at h; cases h

/-! ## One step -/

@[simp] theorem defects_note (d : Draft) (defect : Defect) : (d.note defect).defects ≠ [] := by
  simp [note]

/-- If no mistake is noted then the class was there, and it is changed. -/
theorem changeClass_of_defects {c : ClassId} {defect : Defect} {f : ClassDecl → ClassDecl}
    (h : (d.changeClass c defect f).defects = []) :
    d.defects = [] ∧ d.changeClass c defect f = { d with classes := d.classes.modify c f } := by
  unfold changeClass at h ⊢
  split at h <;> rename_i hc
  · exact ⟨h, if_pos hc⟩
  · exact absurd h (defects_note _ _)

/-- If no mistake is noted then the method has a body, and it is changed. -/
theorem changeBody_of_defects {m : MethodId} {defect : Defect} {f : Body → Body}
    (h : (d.changeBody m defect f).defects = []) :
    d.defects = [] ∧ (∃ b, d.body? m = some b) ∧ d.changeBody m defect f =
      { d with methods := d.methods.modify m fun decl => { decl with body := decl.body.map f } } := by
  unfold changeBody at h ⊢
  cases e : d.body? m with
  | some b => rw [e] at h; exact ⟨h, ⟨b, rfl⟩, rfl⟩
  | none => rw [e] at h; exact absurd h (defects_note _ _)

/-- What a step makes of a draft when it finds no mistake. -/
inductive Change (d : Draft) : Step → Draft → Prop where
  /-- Classes are declared or changed and none is lost, or the entry or the root is chosen. -/
  | classes {s : Step} {classes : Table .cls ClassDecl} {entry : Option MethodId}
      {root : Option ClassId} (hs : ∀ m name, s ≠ .declareVar m name)
      (hkeep : ∀ c, d.classes.Has c → classes.Has c) :
      Change d s { d with classes, entry, root }
  /-- A field is declared that its class does not have yet. -/
  | field {c : ClassId} {name : String} {isStatic : Bool} (hc : d.classes.Has c)
      (hnew : ∀ f old, d.fields.get? f = some old → (old.owner, old.name) ≠ (c, name)) :
      Change d (.declareField c name isStatic)
        { d with fields := d.fields.push { name, owner := c, isStatic } }
  /-- A method is declared that its class does not have yet, without statements, and with `this` if
  it asks for one. -/
  | method {c : ClassId} {sub : Subsignature} {kind : MethodKind} {decl : MethodDecl}
      {vars : Table .var VarDecl} (hc : d.classes.Has decl.owner)
      (hnew : ∀ m old, d.methods.get? m = some old →
        (old.owner, old.subsignature) ≠ (decl.owner, decl.subsignature))
      (hbody : ∀ body, decl.body = some body → body.stmts = [])
      (hvars : vars = d.vars ∨
        ∃ self : VarDecl, self.method = d.methods.next ∧ vars = d.vars.push self) :
      Change d (.declareMethod c sub kind) { d with methods := d.methods.push decl, vars }
  /-- A method with a body gets one more parameter. -/
  | param {m : MethodId} {name : String} (hm : ∃ b, d.body? m = some b) :
      Change d (.declareParam m name)
        { d with
          vars := d.vars.push { name, method := m }
          methods := d.methods.modify m fun decl =>
            { decl with
              body := decl.body.map fun b => { b with params := b.params ++ [d.vars.next] } } }
  /-- A variable is declared, of whatever method. -/
  | var {m : MethodId} {name : String} :
      Change d (.declareVar m name) { d with vars := d.vars.push { name, method := m } }
  /-- A method with a body gets one more statement. -/
  | stmt {m : MethodId} {stmt : Stmt} (hm : ∃ b, d.body? m = some b) :
      Change d (.append m stmt)
        { d with
          stmts := d.stmts.push { stmt, method := m }
          methods := d.methods.modify m fun decl =>
            { decl with
              body := decl.body.map fun b => { b with stmts := b.stmts ++ [d.stmts.next] } } }

/-- A field is declared without a mistake only if its class exists and has no field of that name. -/
theorem change_declareField {c : ClassId} {name : String} {isStatic : Bool}
    (h : (d.declareField c name isStatic).2.defects = []) :
    d.defects = [] ∧
      d.Change (.declareField c name isStatic) (d.declareField c name isStatic).2 := by
  unfold declareField at h ⊢
  cases hc : d.classes.get? c with
  | none => simp [hc, note] at h
  | some row =>
    cases hf : d.fields.find? fun f => f.owner = c && f.name = name with
    | some f => simp [hc, hf, note] at h
    | none =>
      simp only [hc, hf] at h ⊢
      refine ⟨h, .field (Table.has_of_get? hc) fun f old hold e => ?_⟩
      have htest := Table.find?_eq_none hf hold
      simp [Prod.mk.inj e] at htest

/-- A method is declared without a mistake only if its class exists and has no method of that
subsignature. -/
theorem change_declareMethod {c : ClassId} {sub : Subsignature} {kind : MethodKind}
    (h : (d.declareMethod c sub kind).2.defects = []) :
    d.defects = [] ∧ d.Change (.declareMethod c sub kind) (d.declareMethod c sub kind).2 := by
  unfold declareMethod at h ⊢
  -- a class that does not exist, or declares the method already, is a mistake that is noted
  cases hc : d.classes.get? c with
  | none => cases kind <;> simp [hc, note, declareVar] at h
  | some row =>
    cases hm : d.methods.find? fun m => m.owner = c && m.subsignature = sub with
    | some m => cases kind <;> simp [hc, hm, note, declareVar] at h
    | none =>
      have hhas := Table.has_of_get? hc
      have hnew : ∀ m old, d.methods.get? m = some old →
          (old.owner, old.subsignature) ≠ (c, sub) := by
        intro m old hold e
        have htest := Table.find?_eq_none hm hold
        simp [Prod.mk.inj e] at htest
      simp only [hc, hm] at h ⊢
      refine ⟨by cases kind <;> exact h, ?_⟩
      cases kind with
      | static =>
        refine .method hhas hnew ?_ (Or.inl rfl)
        intro body hbody
        cases hbody
        rfl
      | member =>
        refine .method hhas hnew ?_ (Or.inr ⟨{ name := "this", method := d.methods.next }, rfl, rfl⟩)
        intro body hbody
        cases hbody
        rfl
      | abstract =>
        refine .method hhas hnew ?_ (Or.inl rfl)
        intro body hbody
        cases hbody
      | native =>
        refine .method hhas hnew ?_ (Or.inl rfl)
        intro body hbody
        cases hbody

/-- A step that leaves no mistake has found none, and does what it should. -/
theorem change_of_defects {s : Step} (h : (d.step s).2.defects = []) :
    d.defects = [] ∧ d.Change s (d.step s).2 := by
  cases s with
  | declareClass name superclass =>
    exact ⟨h, .classes (by simp) fun c hc => Table.has_push.2 (Or.inl hc)⟩
  | declareInterface name supers =>
    exact ⟨h, .classes (by simp) fun c hc => Table.has_push.2 (Or.inl hc)⟩
  -- a class that is changed is not lost
  | implement c interface =>
    obtain ⟨h, e⟩ := changeClass_of_defects h
    refine ⟨h, ?_⟩
    simp only [step, implement, e]
    exact .classes (by simp) fun _ => Table.has_modify.2
  | markAbstract c =>
    obtain ⟨h, e⟩ := changeClass_of_defects h
    refine ⟨h, ?_⟩
    simp only [step, markAbstract, e]
    exact .classes (by simp) fun _ => Table.has_modify.2
  | declareField c name isStatic => exact change_declareField h
  | declareMethod c sub kind => exact change_declareMethod h
  | declareParam m name =>
    simp only [step, step.numbered, declareParam, declareVar] at h ⊢
    obtain ⟨h, hm, e⟩ := changeBody_of_defects h
    rw [e]
    exact ⟨h, .param hm⟩
  | declareVar m name => exact ⟨h, .var⟩
  | setEntry m => exact ⟨h, .classes (by simp) fun c hc => hc⟩
  | setRoot c => exact ⟨h, .classes (by simp) fun c hc => hc⟩
  | append m stmt =>
    simp only [step, step.numbered, append] at h ⊢
    obtain ⟨h, hm, e⟩ := changeBody_of_defects h
    rw [e]
    exact ⟨h, .stmt hm⟩

/-! ## Consistent drafts -/

/-- Classes may change as long as none is lost. -/
theorem Consistent.withClasses (hd : d.Consistent) {classes : Table .cls ClassDecl}
    (h : ∀ c, d.classes.Has c → classes.Has c) (entry : Option MethodId) (root : Option ClassId) :
    ({ d with classes, entry, root } : Draft).Consistent where
  methodOwner m decl hm := h _ (hd.methodOwner m decl hm)
  fieldOwner f decl hf := h _ (hd.fieldOwner f decl hf)
  bodyStmts := hd.bodyStmts
  stmtBody := hd.stmtBody

/-- A field may be declared in a class that exists. -/
theorem Consistent.pushField (hd : d.Consistent) {decl : FieldDecl}
    (h : d.classes.Has decl.owner) :
    ({ d with fields := d.fields.push decl } : Draft).Consistent where
  methodOwner := hd.methodOwner
  fieldOwner := hd.fieldOwner.push h
  bodyStmts := hd.bodyStmts
  stmtBody := hd.stmtBody

/-- A declared method has no statements yet. -/
theorem Consistent.pushMethod (hd : d.Consistent) {decl : MethodDecl}
    (h : d.classes.Has decl.owner) (hb : ∀ body, decl.body = some body → body.stmts = [])
    (vars : Table .var VarDecl) :
    ({ d with methods := d.methods.push decl, vars } : Draft).Consistent where
  methodOwner := hd.methodOwner.push h
  fieldOwner := hd.fieldOwner
  bodyStmts m g body e eb := by
    rcases Table.get?_push_cases e with e | ⟨-, rfl⟩
    · exact hd.bodyStmts m g body e eb
    · simp [hb body eb]
  stmtBody s site e := by
    obtain ⟨g, body, hg, hb, hs⟩ := hd.stmtBody s site e
    exact ⟨g, body, (Table.extends_push _ _).get? hg, hb, hs⟩

/-- A change of a body that leaves its statements alone. -/
theorem Consistent.modifyBody (hd : d.Consistent) (m : MethodId) {f : Body → Body}
    (hf : ∀ b, (f b).stmts = b.stmts) (vars : Table .var VarDecl) :
    ({ d with methods := d.methods.modify m fun decl => { decl with body := decl.body.map f },
              vars } : Draft).Consistent where
  methodOwner := hd.methodOwner.modify m fun _ h => h
  fieldOwner := hd.fieldOwner
  bodyStmts n decl body h hb := by
    simp only [Table.get?_modify] at h
    split at h
    · rename_i e
      obtain ⟨g, hg, rfl⟩ := Option.map_eq_some_iff.1 h
      obtain ⟨b, hgb, rfl⟩ := Option.map_eq_some_iff.1 hb
      rw [hf b, e]
      exact hd.bodyStmts m g b hg hgb
    · exact hd.bodyStmts n decl body h hb
  stmtBody s site h := by
    obtain ⟨g, b, hg, hb, hs⟩ := hd.stmtBody s site h
    -- the body of another method is as it was
    by_cases e : site.method = m
    · refine ⟨{ g with body := g.body.map f }, f b, ?_, by simp [hb], by rw [hf b]; exact hs⟩
      rw [Table.get?_modify, if_pos e, ← e, hg]
      rfl
    · refine ⟨g, b, ?_, hb, hs⟩
      rw [Table.get?_modify, if_neg e]
      exact hg

/-- A statement goes to the table and to the end of a body at once. -/
theorem Consistent.appendStmt (hd : d.Consistent) (m : MethodId) (stmt : Stmt)
    (hm : ∃ b, d.body? m = some b) :
    ({ d with
        stmts := d.stmts.push { stmt, method := m }
        methods := d.methods.modify m fun decl =>
          { decl with body := decl.body.map fun b => { b with stmts := b.stmts ++ [d.stmts.next] } } } :
      Draft).Consistent where
  methodOwner := hd.methodOwner.modify m fun _ h => h
  fieldOwner := hd.fieldOwner
  bodyStmts n decl body h hb := by
    simp only [Table.get?_modify] at h
    split at h
    · rename_i e
      obtain ⟨g, hg, rfl⟩ := Option.map_eq_some_iff.1 h
      obtain ⟨b, hgb, rfl⟩ := Option.map_eq_some_iff.1 hb
      obtain ⟨hn, hs⟩ := hd.bodyStmts m g b hg hgb
      constructor
      · -- the new statement has a handle that no statement had
        rw [List.nodup_append]
        refine ⟨hn, List.nodup_singleton _, ?_⟩
        intro s hs' s' hs'' e
        subst e
        obtain ⟨site, h, -⟩ := hs s hs'
        rw [List.mem_singleton.1 hs'', Table.get?_next] at h
        cases h
      · intro s hs'
        -- old statements belong to the method still, and so does the new one
        rcases List.mem_append.1 hs' with hs' | hs'
        · obtain ⟨site, h, hm⟩ := hs s hs'
          exact ⟨site, (Table.extends_push _ _).get? h, hm.trans e.symm⟩
        · rw [List.mem_singleton.1 hs']
          exact ⟨_, by rw [Table.get?_push, if_pos rfl], e.symm⟩
    · obtain ⟨hn, hs⟩ := hd.bodyStmts n decl body h hb
      refine ⟨hn, fun s hs' => ?_⟩
      obtain ⟨site, h, hm⟩ := hs s hs'
      exact ⟨site, (Table.extends_push _ _).get? h, hm⟩
  stmtBody s site h := by
    obtain ⟨b₀, hb₀⟩ := hm
    obtain ⟨g₀, hg₀, hgb₀⟩ := Option.bind_eq_some_iff.1 hb₀
    -- an old statement stays in its body, the new one is at the end of its own
    rcases Table.get?_push_cases h with h | ⟨rfl, rfl⟩
    · obtain ⟨g, b, hg, hb, hs⟩ := hd.stmtBody s site h
      by_cases e : site.method = m
      · refine ⟨_, _, by rw [Table.get?_modify, if_pos e, ← e, hg]; rfl,
          congrArg (Option.map _) hb, ?_⟩
        exact List.mem_append_left _ hs
      · refine ⟨g, b, ?_, hb, hs⟩
        rw [Table.get?_modify, if_neg e]
        exact hg
    · refine ⟨_, _, by rw [Table.get?_modify, if_pos rfl, hg₀]; rfl,
        congrArg (Option.map _) hgb₀, ?_⟩
      exact List.mem_append_right _ (List.mem_singleton_self _)

/-- A draft stays consistent when a step finds no mistake. -/
theorem Consistent.change (hd : d.Consistent) {s : Step} {d' : Draft} (h : d.Change s d') :
    d'.Consistent := by
  cases h with
  | classes _ hkeep => exact hd.withClasses hkeep _ _
  | field hc _ => exact hd.pushField hc
  | method hc _ hbody _ => exact hd.pushMethod hc hbody _
  | param _ =>
    exact hd.modifyBody _ (f := fun b => { b with params := b.params ++ [d.vars.next] })
      (fun _ => rfl) _
  | var => exact ⟨hd.methodOwner, hd.fieldOwner, hd.bodyStmts, hd.stmtBody⟩
  | stmt hm => exact hd.appendStmt _ _ hm

/-- The last step is taken from what the others have made. -/
theorem ofSteps_concat (steps : List Step) (s : Step) :
    ofSteps (steps ++ [s]) = ((ofSteps steps).step s).2 := by
  simp [ofSteps]

/-- A draft without noted mistakes is consistent, whatever the steps. -/
theorem consistent_ofSteps {steps : List Step} (h : (ofSteps steps).defects = []) :
    (ofSteps steps).Consistent := by
  -- steps are taken from the left, so the last one is split off
  induction steps using List.reverseRecOn with
  | nil => exact consistent_empty
  | append_singleton steps s ih =>
    rw [ofSteps_concat] at h ⊢
    obtain ⟨hdef, hchange⟩ := change_of_defects h
    exact (ih hdef).change hchange

/-! ## Checks -/

/-- What the checks of `build` establish. -/
structure Checked (d : Draft) (entry : MethodId) : Prop where
  defects : d.defects = []
  entry : d.checkEntry = .ok entry
  root : ∀ c, d.root = some c → d.classes.Has c
  supertypes : ∀ decl ∈ d.classes.toList, d.checkSupertypes decl = .ok ()
  bodies : ∀ m decl body, d.methods.get? m = some decl → decl.body = some body →
    d.checkBody m body = .ok ()

/-- A class passes its check exactly if it exists. -/
theorem checkClass_eq_ok {use : ClassUse} {c : ClassId} :
    d.checkClass use c = .ok () ↔ d.classes.Has c := by
  unfold checkClass
  split <;> simp_all [pure, Except.pure, Outcome.defect]

/-- The program that `build` makes of a draft that passes the checks. -/
def program (d : Draft) (entry : MethodId) : Program where
  classes := d.classes
  methods := d.finishedMethods
  fields := d.fields
  vars := d.vars
  stmts := d.stmts
  dereferences := d.dereferences
  entry := entry
  root := d.root

private theorem checked_of_rest {p q : Program} {entry : MethodId} (hdef : d.defects = [])
    (hentry : d.checkEntry = .ok entry) (hroot : ∀ c, d.root = some c → d.classes.Has c)
    (h : (do
      d.classes.toList.forM d.checkSupertypes
      d.methods.entries.forM fun (m, decl) =>
        match decl.body with
        | some b => d.checkBody m b
        | none => pure ()
      checkNames [] (d.classes.toList.map ClassDecl.name)
      return q) = Except.ok p) (hq : q = d.program entry) :
    ∃ entry, d.Checked entry ∧ p = d.program entry := by
  obtain ⟨⟨⟩, hsuper, h⟩ := Outcome.bind_eq_ok.1 h
  obtain ⟨⟨⟩, hbodies, h⟩ := Outcome.bind_eq_ok.1 h
  obtain ⟨⟨⟩, -, h⟩ := Outcome.bind_eq_ok.1 h
  refine ⟨entry, ⟨hdef, hentry, hroot, Outcome.forM_eq_ok.1 hsuper, ?_⟩,
    (Outcome.pure_eq_ok.1 h).symm.trans hq⟩
  intro m decl body hm hb
  have := Outcome.forM_eq_ok.1 hbodies (m, decl) (Table.mem_entries.2 hm)
  simpa [hb] using this

/-- A program is built only from a draft that passes the checks. -/
theorem build_eq_ok {p : Program} (h : d.build = .ok p) :
    ∃ entry, d.Checked entry ∧ p = d.program entry := by
  unfold build at h
  -- the first mistake that was noted ends the building
  cases hdef : d.defects with
  | cons defect rest =>
    rw [hdef] at h
    obtain ⟨_, h, -⟩ := Outcome.bind_eq_ok.1 h
    exact absurd h Outcome.defect_ne_ok
  | nil =>
    rw [hdef] at h
    obtain ⟨entry, hentry, h⟩ := Outcome.bind_eq_ok.1 h
    -- a root that is not set is not checked
    cases hroot : d.root with
    | none =>
      rw [hroot] at h
      refine checked_of_rest hdef hentry (fun c e => ?_) h (by rw [program, hroot])
      rw [hroot] at e
      cases e
    | some root =>
      rw [hroot] at h
      obtain ⟨⟨⟩, hr, h⟩ := Outcome.bind_eq_ok.1 h
      refine checked_of_rest hdef hentry (fun c e => ?_) h (by rw [program, hroot])
      rw [hroot] at e
      cases e
      exact checkClass_eq_ok.1 hr

/-! ## Lists of dereferences -/

/-- A new statement comes last in the list of a variable, or not at all. -/
theorem statementsOn_concat (entries : List (StmtId × Site)) (s : StmtId) (site : Site)
    (test : Stmt → Option VarId) (v : VarId) :
    statementsOn (entries ++ [(s, site)]) test v =
      statementsOn entries test v ++ if test site.stmt = some v then [s] else [] := by
  simp only [statementsOn, List.filterMap_append, List.filterMap_cons, List.filterMap_nil]
  split <;> simp_all

/-- A statement enters the lists of the variable it follows, and no other list. -/
theorem usesAmong_concat (entries : List (StmtId × Site)) (s : StmtId) (site : Site) (v : VarId) :
    usesAmong (entries ++ [(s, site)]) v =
      match dereferenceBy s site.stmt with
      | some (w, f) => if v = w then f (usesAmong entries v) else usesAmong entries v
      | none => usesAmong entries v := by
  obtain ⟨stmt, m⟩ := site
  simp only [usesAmong, statementsOn_concat]
  -- each sort of statement enters one of the five lists, those without a base none
  cases stmt with
  | store base r rhs =>
    cases base <;> simp [dereferenceBy, Stmt.storeBase?, Stmt.loadBase?, Stmt.storeArrayBase?,
      Stmt.loadArrayBase?, Stmt.receiver?]
    split <;> simp_all [eq_comm]
  | load lhs base r =>
    cases base <;> simp [dereferenceBy, Stmt.storeBase?, Stmt.loadBase?, Stmt.storeArrayBase?,
      Stmt.loadArrayBase?, Stmt.receiver?]
    split <;> simp_all [eq_comm]
  | storeArray base rhs =>
    simp [dereferenceBy, Stmt.storeBase?, Stmt.loadBase?, Stmt.storeArrayBase?,
      Stmt.loadArrayBase?, Stmt.receiver?]
    split <;> simp_all [eq_comm]
  | loadArray lhs base =>
    simp [dereferenceBy, Stmt.storeBase?, Stmt.loadBase?, Stmt.storeArrayBase?,
      Stmt.loadArrayBase?, Stmt.receiver?]
    split <;> simp_all [eq_comm]
  | invoke call =>
    cases hr : call.receiver <;> simp [dereferenceBy, Stmt.storeBase?, Stmt.loadBase?,
      Stmt.storeArrayBase?, Stmt.loadArrayBase?, Stmt.receiver?, hr]
    split <;> simp_all [eq_comm]
  | _ =>
    simp [dereferenceBy, Stmt.storeBase?, Stmt.loadBase?, Stmt.storeArrayBase?,
      Stmt.loadArrayBase?, Stmt.receiver?]

/-- The lists that a draft keeps are those of its statements, one for each variable. -/
theorem dereferences_eq (d : Draft) :
    d.dereferences.size = d.vars.size ∧
      ∀ v uses, d.dereferences.get? v = some uses → uses = usesAmong d.stmts.entries v := by
  unfold dereferences
  -- the lists grow with the statements, from the first to the last
  induction d.stmts.entries using List.reverseRecOn with
  | nil =>
    refine ⟨by simp [Table.size], fun v uses h => ?_⟩
    simp only [List.foldl_nil, Table.get?, Array.getElem?_replicate] at h
    split at h
    · exact (Option.some.inj h).symm
    · cases h
  | append_singleton entries entry ih =>
    obtain ⟨s, site⟩ := entry
    obtain ⟨hsize, huses⟩ := ih
    rw [List.foldl_append, List.foldl_cons, List.foldl_nil]
    simp only [usesAmong_concat]
    cases dereferenceBy s site.stmt with
    | none => exact ⟨hsize, huses⟩
    | some wf =>
      obtain ⟨w, f⟩ := wf
      refine ⟨by simpa using hsize, fun v uses h => ?_⟩
      simp only [Table.get?_modify] at h
      split at h
      · rename_i e
        obtain ⟨old, hold, rfl⟩ := Option.map_eq_some_iff.1 h
        simp only [if_pos e]
        rw [huses w old hold, e]
      · rename_i e
        simp only [if_neg e]
        exact huses v uses h

/-! ## Built programs -/

/-- A variable that passes its check exists. -/
theorem checkVar_eq_ok {m : MethodId} {v : VarId} (h : d.checkVar m v = .ok ()) :
    d.vars.Has v := by
  unfold checkVar at h
  split at h
  · exact absurd h Outcome.defect_ne_ok
  · rename_i hv; exact Table.has_of_get? hv

/-- The classes that a checked statement names exist. -/
theorem checkStmt_eq_ok {s : StmtId} {stmt : Stmt} (h : d.checkStmt s stmt = .ok ()) :
    ∀ c ∈ stmt.classRefs, d.classes.Has c := by
  cases stmt with
  | alloc lhs type => simpa [checkStmt, Stmt.classRefs, checkClass_eq_ok] using h
  | load lhs base r => simpa [checkStmt, Stmt.classRefs, checkClass_eq_ok] using h
  | store base r rhs => simpa [checkStmt, Stmt.classRefs, checkClass_eq_ok] using h
  | invoke call =>
    obtain ⟨⟨⟩, h, -⟩ := Outcome.bind_eq_ok.1 h
    simpa [Stmt.classRefs] using checkClass_eq_ok.1 h
  | _ => simp [Stmt.classRefs]

/-- A class whose supertypes pass their check extends a class and implements interfaces, and all of
these exist. -/
theorem checkSupertypes_eq_ok {decl : ClassDecl} (h : d.checkSupertypes decl = .ok ()) :
    (∀ c, decl.superclass = some c →
      ∃ sup, d.classes.get? c = some sup ∧ sup.isInterface = false) ∧
      ∀ c ∈ decl.interfaces, ∃ sup, d.classes.get? c = some sup ∧ sup.isInterface = true := by
  have hinterfaces : (decl.interfaces.forM fun c => do
        d.checkClass (.supertype decl.name) c
        let sup ← .ofRow (d.classes.get? c)
        if !sup.isInterface then
          Outcome.defect (.implementsClass decl.name sup.name)) = .ok () →
      ∀ c ∈ decl.interfaces, ∃ sup, d.classes.get? c = some sup ∧ sup.isInterface = true := by
    intro h c hc
    obtain ⟨⟨⟩, -, h⟩ := Outcome.bind_eq_ok.1 (Outcome.forM_eq_ok.1 h c hc)
    obtain ⟨sup, hsup, h⟩ := Outcome.bind_eq_ok.1 h
    refine ⟨sup, Outcome.ofRow_eq_ok.1 hsup, ?_⟩
    cases hsort : sup.isInterface with
    | true => rfl
    | false =>
      rw [hsort] at h
      exact absurd h Outcome.defect_ne_ok
  unfold checkSupertypes at h
  -- the interfaces are checked last, whether there is a superclass or not
  cases hsuper : decl.superclass with
  | none =>
    rw [hsuper] at h
    exact ⟨fun _ e => (nomatch e), hinterfaces h⟩
  | some c =>
    rw [hsuper] at h
    obtain ⟨⟨⟩, -, h⟩ := Outcome.bind_eq_ok.1 h
    obtain ⟨sup, hsup, h⟩ := Outcome.bind_eq_ok.1 h
    dsimp only at h
    split at h
    · obtain ⟨_, h, -⟩ := Outcome.bind_eq_ok.1 h
      exact absurd h Outcome.defect_ne_ok
    · rename_i hsort
      refine ⟨fun c' e => ?_, hinterfaces h⟩
      obtain rfl := Option.some.inj e
      exact ⟨sup, Outcome.ofRow_eq_ok.1 hsup, Bool.eq_false_iff.2 hsort⟩

/-- The classes of a checked draft have passed the check of their supertypes. -/
theorem Checked.supertypes_of_get? {entry : MethodId} (h : d.Checked entry) {c : ClassId}
    {decl : ClassDecl} (hc : d.classes.get? c = some decl) :
    (∀ c, decl.superclass = some c →
      ∃ sup, d.classes.get? c = some sup ∧ sup.isInterface = false) ∧
      ∀ c ∈ decl.interfaces, ∃ sup, d.classes.get? c = some sup ∧ sup.isInterface = true :=
  checkSupertypes_eq_ok (h.supertypes decl (Table.mem_toList.2 ⟨c, hc⟩))

/-- A body that passes its check has variables and statements that pass theirs. -/
theorem checkBody_eq_ok {m : MethodId} {body : Body} (h : d.checkBody m body = .ok ()) :
    (∀ v ∈ body.self.toList ++ body.params, d.checkVar m v = .ok ()) ∧
      ∀ s ∈ body.stmts, ∀ site, d.stmts.get? s = some site →
        (∀ v ∈ site.stmt.vars, d.checkVar m v = .ok ()) ∧ d.checkStmt s site.stmt = .ok () := by
  obtain ⟨⟨⟩, hvars, h⟩ := Outcome.bind_eq_ok.1 h
  refine ⟨Outcome.forM_eq_ok.1 hvars, fun s hs site e => ?_⟩
  -- the check looks the statement up by its handle
  obtain ⟨site', e', h⟩ := Outcome.bind_eq_ok.1 (Outcome.forM_eq_ok.1 h s hs)
  obtain rfl : site = site' := Option.some.inj (e.symm.trans (Outcome.ofRow_eq_ok.1 e'))
  obtain ⟨⟨⟩, hvars, h⟩ := Outcome.bind_eq_ok.1 h
  exact ⟨Outcome.forM_eq_ok.1 hvars, h⟩

/-- What a checked body names is there. -/
theorem has_of_checkBody {m : MethodId} {body : Body} (h : d.checkBody m body = .ok ()) :
    (∀ v ∈ body.self.toList ++ body.params, d.vars.Has v) ∧
      ∀ s ∈ body.stmts, ∀ site, d.stmts.get? s = some site →
        (∀ v ∈ site.stmt.vars, d.vars.Has v) ∧ ∀ c ∈ site.stmt.classRefs, d.classes.Has c := by
  obtain ⟨hvars, hstmts⟩ := checkBody_eq_ok h
  refine ⟨fun v hv => checkVar_eq_ok (hvars v hv), fun s hs site e => ?_⟩
  obtain ⟨hvars, hstmt⟩ := hstmts s hs site e
  exact ⟨fun v hv => checkVar_eq_ok (hvars v hv), checkStmt_eq_ok hstmt⟩

theorem returnedBy_eq (d : Draft) (body : Body) :
    d.returnedBy body = returnedAmong d.stmts body.stmts := rfl

/-- A returned variable is a variable of the statement that returns it. -/
theorem mem_returnedBy {body : Body} {v : VarId} (h : v ∈ d.returnedBy body) :
    ∃ s ∈ body.stmts, ∃ site, d.stmts.get? s = some site ∧ v ∈ site.stmt.vars := by
  rw [returnedBy_eq, mem_returnedAmong] at h
  obtain ⟨s, hs, h⟩ := h
  obtain ⟨site, hsite, e⟩ := Option.map_eq_some_iff.1 h
  exact ⟨s, hs, site, hsite, by simp [e, Stmt.vars, Stmt.uses]⟩

/-- A finished method is one of the draft, with the returned variables filled in. -/
theorem get?_finishedMethods {m : MethodId} {decl : MethodDecl} :
    d.finishedMethods.get? m = some decl ↔ ∃ old, d.methods.get? m = some old ∧
      decl = { old with body := old.body.map fun b => { b with returned := d.returnedBy b } } := by
  simp only [finishedMethods, Table.get?, Array.getElem?_map, Option.map_eq_some_iff]
  exact exists_congr fun old => and_congr_right fun _ => eq_comm

/-- A body of the program is that of the draft, with the returned variables filled in. -/
theorem exists_body_of_get? {m : MethodId} {decl : MethodDecl} {body : Body}
    (hm : d.finishedMethods.get? m = some decl) (hb : decl.body = some body) :
    ∃ old b, d.methods.get? m = some old ∧ old.body = some b ∧
      body = { b with returned := d.returnedBy b } := by
  obtain ⟨old, hold, rfl⟩ := get?_finishedMethods.1 hm
  obtain ⟨b, hob, hbody⟩ := Option.map_eq_some_iff.1 hb
  exact ⟨old, b, hold, hob, hbody.symm⟩

theorem size_finishedMethods (d : Draft) : d.finishedMethods.size = d.methods.size := by
  simp [finishedMethods, Table.size]

/-- The entry that passes its check is a method. -/
theorem checkEntry_eq_ok {m : MethodId} (h : d.checkEntry = .ok m) : d.methods.Has m := by
  unfold checkEntry at h
  split at h
  · exact absurd h Outcome.defect_ne_ok
  · split at h
    · exact absurd h Outcome.defect_ne_ok
    · rename_i decl hdecl
      split at h
      · obtain rfl := Outcome.pure_eq_ok.1 h
        exact Table.has_of_get? hdecl
      · exact absurd h Outcome.defect_ne_ok

/-- A consistent draft that passes the checks makes a well-formed program. -/
theorem Checked.wellFormed {entry : MethodId} (h : d.Checked entry) (hd : d.Consistent) :
    (d.program entry).WellFormed := by
  -- every statement stands in a body, and so its variables and classes have been checked
  have hstmt : ∀ s site, d.stmts.get? s = some site →
      (∀ v ∈ site.stmt.vars, d.vars.Has v) ∧ ∀ c ∈ site.stmt.classRefs, d.classes.Has c := by
    intro s site hs
    obtain ⟨decl, body, hm, hb, hmem⟩ := hd.stmtBody s site hs
    exact (has_of_checkBody (h.bodies _ decl body hm hb)).2 s hmem site hs
  obtain ⟨hsize, huses⟩ := dereferences_eq d
  exact {
    superclass := by
      intro c decl hc d' hd'
      obtain ⟨sup, hsup, -⟩ := (h.supertypes_of_get? hc).1 d' hd'
      exact Table.has_of_get? hsup
    interfaces := by
      intro c decl hc d' hd'
      obtain ⟨sup, hsup, -⟩ := (h.supertypes_of_get? hc).2 d' hd'
      exact Table.has_of_get? hsup
    methodOwner := by
      intro m decl hm
      obtain ⟨old, hold, rfl⟩ := get?_finishedMethods.1 hm
      exact hd.methodOwner m old hold
    fieldOwner := hd.fieldOwner
    bodyVars := by
      intro m decl hm body hb v hv
      obtain ⟨old, b, hold, hob, rfl⟩ := exists_body_of_get? hm hb
      -- returned variables are checked with the statements that return them
      rcases List.mem_append.1 hv with hv | hv
      · exact (has_of_checkBody (h.bodies m old b hold hob)).1 v hv
      · obtain ⟨s, -, site, hs, hv⟩ := mem_returnedBy hv
        exact (hstmt s site hs).1 v hv
    bodyStmts := by
      intro m decl hm body hb
      obtain ⟨old, b, hold, hob, rfl⟩ := exists_body_of_get? hm hb
      obtain ⟨hnodup, hsites⟩ := hd.bodyStmts m old b hold hob
      exact ⟨hnodup, fun s hs => (hsites s hs).elim fun _ h => Table.has_of_get? h.1⟩
    stmtMethod := by
      intro s site hs
      obtain ⟨decl, _, hm, -⟩ := hd.stmtBody s site hs
      have := Table.has_of_get? hm
      unfold Table.Has at this ⊢
      rwa [show (d.program entry).methods = d.finishedMethods from rfl, size_finishedMethods]
    stmtVars := fun s site hs => (hstmt s site hs).1
    stmtClasses := fun s site hs => (hstmt s site hs).2
    dereferences := hsize
    uses := huses
    entry := by
      have := checkEntry_eq_ok h.entry
      unfold Table.Has at this ⊢
      rwa [show (d.program entry).methods = d.finishedMethods from rfl, size_finishedMethods]
    root := h.root }

end Draft

/-- Built programs are well-formed. -/
theorem Program.Built.wellFormed {p : Program} (h : p.Built) : p.WellFormed := by
  obtain ⟨steps, h⟩ := h
  obtain ⟨entry, hchecked, rfl⟩ := Draft.build_eq_ok h
  exact hchecked.wellFormed (Draft.consistent_ofSteps hchecked.defects)

/-! ## A small program -/

/-- The steps of a program with one class: `main` allocates a box, puts it into itself and takes it
out again. -/
def boxSteps : List Draft.Step :=
  [.declareClass "Box" none,
    .declareField ⟨0⟩ "item" false,
    .declareMethod ⟨0⟩ ⟨"void main()"⟩ .static,
    .declareMethod ⟨0⟩ ⟨"void put(Box)"⟩ .member,
    .declareParam ⟨1⟩ "p",
    .declareVar ⟨0⟩ "x",
    .declareVar ⟨0⟩ "y",
    .setEntry ⟨0⟩,
    .append ⟨0⟩ (.alloc ⟨2⟩ (.cls ⟨0⟩)),
    .append ⟨0⟩ (.invoke
      { kind := .virtual, methodRef := ⟨⟨0⟩, ⟨"void put(Box)"⟩⟩, receiver := some ⟨2⟩, args := [⟨2⟩] }),
    .append ⟨0⟩ (.load ⟨3⟩ (some ⟨2⟩) ⟨⟨0⟩, "item"⟩),
    .append ⟨1⟩ (.store (some ⟨0⟩) ⟨⟨0⟩, "item"⟩ ⟨1⟩)]

/-- The program that these steps build. -/
def boxProgram : Program where
  classes := ⟨#[{ name := "Box" }]⟩
  methods := ⟨#[
    { subsignature := ⟨"void main()"⟩, owner := ⟨0⟩, isStatic := true,
      body := some { stmts := [⟨0⟩, ⟨1⟩, ⟨2⟩] } },
    { subsignature := ⟨"void put(Box)"⟩, owner := ⟨0⟩,
      body := some { self := some ⟨0⟩, params := [⟨1⟩], stmts := [⟨3⟩] } }]⟩
  fields := ⟨#[{ name := "item", owner := ⟨0⟩, isStatic := false }]⟩
  vars := ⟨#[
    { name := "this", method := ⟨1⟩ }, { name := "p", method := ⟨1⟩ },
    { name := "x", method := ⟨0⟩ }, { name := "y", method := ⟨0⟩ }]⟩
  stmts := ⟨#[
    { stmt := .alloc ⟨2⟩ (.cls ⟨0⟩), method := ⟨0⟩ },
    { stmt := .invoke
        { kind := .virtual, methodRef := ⟨⟨0⟩, ⟨"void put(Box)"⟩⟩, receiver := some ⟨2⟩, args := [⟨2⟩] }
      method := ⟨0⟩ },
    { stmt := .load ⟨3⟩ (some ⟨2⟩) ⟨⟨0⟩, "item"⟩, method := ⟨0⟩ },
    { stmt := .store (some ⟨0⟩) ⟨⟨0⟩, "item"⟩ ⟨1⟩, method := ⟨1⟩ }]⟩
  dereferences := ⟨#[{ fieldStores := [⟨3⟩] }, {}, { fieldLoads := [⟨2⟩], calls := [⟨1⟩] }, {}]⟩
  entry := ⟨0⟩
  root := none

theorem boxProgram_built : boxProgram.Built := ⟨boxSteps, by decide +kernel⟩

end PointerAnalysis
