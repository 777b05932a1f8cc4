import PointerAnalysis.Proofs.GrowingLists
import PointerAnalysis.Proofs.Program.Bodies

/-!
# Coherence

The tables of a built program say the same things twice: a statement names its method and stands in
a body, a variable names its method and is mentioned there, the lists of dereferences and of
returned variables repeat what the statements say.  The parts are written by different steps and
passes, in any order.  In a built program they fit together.

## Main definitions

- `Program.Lists`: a list names the statements of a sort, ascending.
- `Program.Coherent`: the tables of a program fit together.

## Main statements

- `Draft.keyed_ofSteps`: a draft without noted mistakes declares no member twice.
- `Program.Built.coherent`: built programs are coherent.
-/

namespace PointerAnalysis

/-! ## Members -/

namespace Draft

variable {d : Draft}

/-- No class declares two methods of one subsignature, or two fields of one name. -/
structure Keyed (d : Draft) : Prop where
  methods : d.methods.KeyedBy fun m => (m.owner, m.subsignature)
  fields : d.fields.KeyedBy fun f => (f.owner, f.name)

/-- A step that finds no mistake declares no member a second time. -/
theorem Keyed.change (hd : d.Keyed) {s : Step} {d' : Draft} (h : d.Change s d') : d'.Keyed := by
  cases h with
  | field _ hnew => exact ⟨hd.methods, hd.fields.push hnew⟩
  | method _ hnew _ _ => exact ⟨hd.methods.push hnew, hd.fields⟩
  -- a change of a body leaves the header of its method alone
  | param _ => exact ⟨hd.methods.modify _ fun _ => rfl, hd.fields⟩
  | stmt _ => exact ⟨hd.methods.modify _ fun _ => rfl, hd.fields⟩
  -- classes and variables have no members
  | classes _ _ => exact ⟨hd.methods, hd.fields⟩
  | var => exact ⟨hd.methods, hd.fields⟩

/-- A draft without noted mistakes declares no member twice. -/
theorem keyed_ofSteps {steps : List Step} (hdef : (ofSteps steps).defects = []) :
    (ofSteps steps).Keyed := by
  induction steps using List.reverseRecOn with
  | nil => exact ⟨Table.keyedBy_empty _, Table.keyedBy_empty _⟩
  | append_singleton steps s ih =>
    rw [ofSteps_concat] at hdef ⊢
    obtain ⟨hbefore, hchange⟩ := change_of_defects hdef
    exact (ih hbefore).change hchange

/-! ## Class names -/

/-- The check of names finds that they differ from each other and from those seen before. -/
theorem checkNames_eq_ok {seen names : List String} (h : checkNames seen names = .ok ()) :
    names.Nodup ∧ ∀ name ∈ names, name ∉ seen := by
  induction names generalizing seen with
  | nil => exact ⟨List.nodup_nil, fun name hname => absurd hname List.not_mem_nil⟩
  | cons name rest ih =>
    unfold checkNames at h
    split at h
    · exact absurd h Outcome.defect_ne_ok
    · rename_i hnew
      obtain ⟨hnodup, hrest⟩ := ih h
      refine ⟨List.nodup_cons.2 ⟨fun hmem => ?_, hnodup⟩, ?_⟩
      · exact hrest name hmem List.mem_cons_self
      · intro n hn
        rcases List.mem_cons.1 hn with rfl | hn
        · exact hnew
        · exact fun hseen => hrest n hn (List.mem_cons_of_mem _ hseen)

/-- The names of the classes are checked before a program is built. -/
theorem checkNames_of_build {p : Program} (h : d.build = .ok p) :
    checkNames [] (d.classes.toList.map ClassDecl.name) = .ok () := by
  unfold build at h
  cases hdef : d.defects with
  | cons defect rest =>
    rw [hdef] at h
    obtain ⟨_, h, -⟩ := Outcome.bind_eq_ok.1 h
    exact absurd h Outcome.defect_ne_ok
  | nil =>
    rw [hdef] at h
    obtain ⟨entry, -, h⟩ := Outcome.bind_eq_ok.1 h
    -- whether a root is checked or not, the names are checked last
    have hrest : ∀ {supers bodies : Outcome Unit} {q : Program},
        (do supers; bodies; checkNames [] (d.classes.toList.map ClassDecl.name); return q)
          = Except.ok p → checkNames [] (d.classes.toList.map ClassDecl.name) = .ok () := by
      intro supers bodies q h
      obtain ⟨-, -, h⟩ := Outcome.bind_eq_ok.1 h
      obtain ⟨-, -, h⟩ := Outcome.bind_eq_ok.1 h
      obtain ⟨⟨⟩, hnames, -⟩ := Outcome.bind_eq_ok.1 h
      exact hnames
    cases hroot : d.root with
    | none =>
      rw [hroot] at h
      exact hrest h
    | some root =>
      rw [hroot] at h
      obtain ⟨_, -, h⟩ := Outcome.bind_eq_ok.1 h
      exact hrest h

end Draft

/-! ## Lists of statements -/

/-- The variable that a statement returns. -/
def Stmt.returned? : Stmt → Option VarId
  | ret value => value
  | _ => none

theorem Stmt.storeBase?_eq_some {stmt : Stmt} {v : VarId} :
    stmt.storeBase? = some v ↔ ∃ field rhs, stmt = .store (some v) field rhs := by
  cases stmt <;> simp [storeBase?]

theorem Stmt.loadBase?_eq_some {stmt : Stmt} {v : VarId} :
    stmt.loadBase? = some v ↔ ∃ lhs field, stmt = .load lhs (some v) field := by
  cases stmt <;> simp [loadBase?]

theorem Stmt.storeArrayBase?_eq_some {stmt : Stmt} {v : VarId} :
    stmt.storeArrayBase? = some v ↔ ∃ rhs, stmt = .storeArray v rhs := by
  cases stmt <;> simp [storeArrayBase?]

theorem Stmt.loadArrayBase?_eq_some {stmt : Stmt} {v : VarId} :
    stmt.loadArrayBase? = some v ↔ ∃ lhs, stmt = .loadArray lhs v := by
  cases stmt <;> simp [loadArrayBase?]

theorem Stmt.receiver?_eq_some {stmt : Stmt} {v : VarId} :
    stmt.receiver? = some v ↔ ∃ call, stmt = .invoke call ∧ call.receiver = some v := by
  cases stmt <;> simp [receiver?]

/-- Returned variables are collected without those that come again. -/
theorem returnedAmong_eq_eraseDups (stmts : Table .stmt Site) (body : List StmtId) :
    returnedAmong stmts body =
      (body.filterMap fun s => (stmts.get? s).bind fun site => site.stmt.returned?).eraseDups := by
  simp only [returnedAmong, Draft.returnedBy]
  -- the fold runs from the front, so the last statement is split off
  induction body using List.reverseRecOn with
  | nil => rfl
  | append_singleton body s ih =>
    rw [List.foldl_append, List.foldl_cons, List.foldl_nil, ih, List.filterMap_append]
    generalize (body.filterMap fun s => (stmts.get? s).bind fun site => site.stmt.returned?) = vs
    cases hs : stmts.get? s with
    | none => simp [hs]
    | some site =>
      obtain ⟨stmt, m⟩ := site
      cases stmt with
      | ret value =>
        cases value with
        | none => simp [hs, Stmt.returned?]
        | some v =>
          simp only [hs, Stmt.returned?, List.filterMap_cons, List.filterMap_nil, Option.bind_some]
          exact (eraseDups_concat vs v).symm
      | _ => simp [hs, Stmt.returned?]

namespace Program

variable {p : Program}

/-- The list names the statements of a sort, each once, ascending. -/
structure Lists (p : Program) (xs : List StmtId) (sort : Stmt → Prop) : Prop where
  ascending : xs.Pairwise (· < ·)
  mem_iff : ∀ s, s ∈ xs ↔ ∃ stmt, p.stmtAt s = .ok stmt ∧ sort stmt

theorem lists_statementsOn (p : Program) (test : Stmt → Option VarId) (v : VarId) :
    p.Lists (statementsOn p.stmts.entries test v) (test · = some v) where
  ascending := p.stmts.ascending_select fun site => test site.stmt = some v
  mem_iff s := by
    simp only [mem_statementsOn, Table.mem_entries, stmtAt_eq_ok]
    constructor
    · rintro ⟨site, hs, htest⟩
      exact ⟨site.stmt, ⟨site, hs, rfl⟩, htest⟩
    · rintro ⟨-, ⟨site, hs, rfl⟩, htest⟩
      exact ⟨site, hs, htest⟩

theorem Lists.congr {xs : List StmtId} {sort sort' : Stmt → Prop} (h : p.Lists xs sort)
    (hiff : ∀ {stmt}, sort stmt ↔ sort' stmt) : p.Lists xs sort' where
  ascending := h.ascending
  mem_iff s := (h.mem_iff s).trans (exists_congr fun _ => and_congr_right fun _ => hiff)

/-! ## Coherence -/

/-- The statements of all bodies, method by method. -/
def bodyStmts (p : Program) : List StmtId :=
  p.methods.entries.flatMap fun (_, decl) => (decl.body.map Body.stmts).getD []

theorem mem_bodyStmts {s : StmtId} :
    s ∈ p.bodyStmts ↔ ∃ m decl body, p.methodAt m = .ok decl ∧ decl.body = some body ∧
      s ∈ body.stmts := by
  simp only [bodyStmts, List.mem_flatMap, Prod.exists, Table.mem_entries]
  constructor
  · rintro ⟨m, decl, hm, hs⟩
    cases hb : decl.body with
    | none => simp [hb] at hs
    | some body => exact ⟨m, decl, body, Outcome.ofRow_eq_ok.2 hm, hb, by simpa [hb] using hs⟩
  · rintro ⟨m, decl, body, hm, hb, hs⟩
    exact ⟨m, decl, Outcome.ofRow_eq_ok.1 hm, by simpa [hb] using hs⟩

/-- The lists of the statements that follow `v` name just these, all of them in one method. -/
structure Follows (p : Program) (v : VarId) (uses : Dereferences) : Prop where
  fieldStores : p.Lists uses.fieldStores fun stmt => ∃ field rhs, stmt = .store (some v) field rhs
  fieldLoads : p.Lists uses.fieldLoads fun stmt => ∃ lhs field, stmt = .load lhs (some v) field
  arrayStores : p.Lists uses.arrayStores fun stmt => ∃ rhs, stmt = .storeArray v rhs
  arrayLoads : p.Lists uses.arrayLoads fun stmt => ∃ lhs, stmt = .loadArray lhs v
  calls : p.Lists uses.calls fun stmt => ∃ call, stmt = .invoke call ∧ call.receiver = some v
  inside : ∃ m, p.Owns m v ∧ ∀ s ∈ uses.all, p.ownerOf s = .ok m

/-- The tables of the program fit together. -/
structure Coherent (p : Program) : Prop where
  /-- Over all bodies every statement occurs exactly once. -/
  occurs : p.bodyStmts.Perm p.stmts.handles
  /-- A statement stands in the body of the method it belongs to. -/
  standsIn : ∀ m decl body s, p.methodAt m = .ok decl → decl.body = some body →
    (s ∈ body.stmts ↔ p.ownerOf s = .ok m)
  ascending : ∀ m decl body, p.methodAt m = .ok decl → decl.body = some body →
    body.stmts.Pairwise (· < ·)
  /-- A method mentions its own variables only. -/
  mentioned : ∀ m s stmt v, p.ownerOf s = .ok m → p.stmtAt s = .ok stmt → v ∈ stmt.vars →
    p.Owns m v
  declared : ∀ m decl body v, p.methodAt m = .ok decl → decl.body = some body →
    v ∈ body.self.toList ++ body.params → p.Owns m v
  follows : ∀ v, p.vars.Has v → ∃ uses, p.dereferencesOf v = .ok uses ∧ p.Follows v uses
  /-- A body names the variables it returns, each where it is returned first. -/
  returned : ∀ m decl body, p.methodAt m = .ok decl → decl.body = some body →
    body.returned =
      (body.stmts.filterMap fun s => (p.stmts.get? s).bind fun site => site.stmt.returned?).eraseDups
  receivers : ∀ s call, p.stmtAt s = .ok (.invoke call) →
    call.kind.hasReceiver = call.receiver.isSome
  classNames : p.classes.KeyedBy ClassDecl.name
  subsignatures : p.methods.KeyedBy fun m => (m.owner, m.subsignature)
  fieldNames : p.fields.KeyedBy fun f => (f.owner, f.name)

/-- A body lists its statements in the order of their handles. -/
theorem Assembled.ascending (ha : p.Assembled) {m : MethodId} {decl : MethodDecl} {body : Body}
    (hm : p.methodAt m = .ok decl) (hb : decl.body = some body) :
    body.stmts.Pairwise (· < ·) := by
  rw [ha.stmts m decl body hm hb]
  exact p.stmts.ascending_select fun site => site.method = m

/-- Different bodies have no statement in common, and every statement stands in some body. -/
theorem Owned.perm_bodyStmts (ho : p.Owned) (wf : p.WellFormed) :
    p.bodyStmts.Perm p.stmts.handles := by
  refine (List.perm_ext_iff_of_nodup ?_ p.stmts.nodup_handles).2 fun s => ?_
  · rw [bodyStmts, List.nodup_flatMap]
    constructor
    · rintro ⟨m, decl⟩ hm
      cases hb : decl.body with
      | none => simp [hb]
      | some body => simpa [hb] using (wf.bodyStmts m decl (Table.mem_entries.1 hm) body hb).1
    · refine List.Pairwise.imp_of_mem ?_ p.methods.pairwise_entries
      rintro ⟨m, decl⟩ ⟨m', decl'⟩ hm hm' hne s hs hs'
      -- a statement in both bodies would belong to both methods
      have howner : ∀ {n : MethodId} {g : MethodDecl}, (n, g) ∈ p.methods.entries →
          s ∈ (g.body.map Body.stmts).getD [] → p.ownerOf s = .ok n := by
        intro n g hn hmem
        cases hb : g.body with
        | none => simp [hb] at hmem
        | some body =>
          exact ho.ownerOf n g body s (Outcome.ofRow_eq_ok.2 (Table.mem_entries.1 hn)) hb
            (by simpa [hb] using hmem)
      exact hne (Except.ok.inj ((howner hm hs).symm.trans (howner hm' hs')))
  · rw [mem_bodyStmts, Table.mem_handles]
    constructor
    · rintro ⟨m, decl, body, hm, hb, hs⟩
      obtain ⟨site, hsite, -⟩ := ownerOf_eq_ok.1 (ho.ownerOf m decl body s hm hb hs)
      exact Table.has_of_get? hsite
    · intro hs
      obtain ⟨site, hsite⟩ := Table.exists_get? hs
      obtain ⟨decl, body, hm, hb, hmem⟩ :=
        ho.standsIn site.method s (ownerOf_eq_ok.2 ⟨site, hsite, rfl⟩)
      exact ⟨site.method, decl, body, hm, hb, hmem⟩

/-- The lists of dereferences are those of the statements. -/
theorem Owned.follows_usesOf (ho : p.Owned) {v : VarId} (hv : p.vars.Has v) :
    p.Follows v (p.usesOf v) where
  fieldStores := (p.lists_statementsOn _ v).congr Stmt.storeBase?_eq_some
  fieldLoads := (p.lists_statementsOn _ v).congr Stmt.loadBase?_eq_some
  arrayStores := (p.lists_statementsOn _ v).congr Stmt.storeArrayBase?_eq_some
  arrayLoads := (p.lists_statementsOn _ v).congr Stmt.loadArrayBase?_eq_some
  calls := (p.lists_statementsOn _ v).congr Stmt.receiver?_eq_some
  inside := by
    obtain ⟨decl, hdecl⟩ := Table.exists_get? hv
    have howns : p.Owns decl.method v := ⟨decl, Outcome.ofRow_eq_ok.2 hdecl, rfl⟩
    refine ⟨decl.method, howns, fun s hs => ?_⟩
    obtain ⟨stmt, hstmt, hbase⟩ := mem_usesOf.1 hs
    obtain ⟨site, hsite, -⟩ := stmtAt_eq_ok.1 hstmt
    have howner : p.ownerOf s = .ok site.method := ownerOf_eq_ok.2 ⟨site, hsite, rfl⟩
    -- the variable is one of the statement, so both belong to one method
    rw [howns.inj (ho.stmtVars _ s stmt howner hstmt v (Stmt.mem_vars_of_base? hbase))]
    exact howner

/-- In a built program no two classes share a name, and no class declares a member twice. -/
theorem Built.keyed (hp : p.Built) :
    p.classes.KeyedBy ClassDecl.name ∧ p.methods.KeyedBy (fun m => (m.owner, m.subsignature)) ∧
      p.fields.KeyedBy fun f => (f.owner, f.name) := by
  obtain ⟨steps, h⟩ := hp
  have hnames := Draft.checkNames_of_build h
  obtain ⟨entry, hchecked, rfl⟩ := Draft.build_eq_ok h
  have hd := Draft.keyed_ofSteps hchecked.defects
  refine ⟨Table.keyedBy_of_nodup (Draft.checkNames_eq_ok hnames).1, ?_, hd.fields⟩
  intro m m' decl decl' hm hm' e
  obtain ⟨old, hold, rfl⟩ := Draft.get?_finishedMethods.1 hm
  obtain ⟨old', hold', rfl⟩ := Draft.get?_finishedMethods.1 hm'
  exact hd.methods m m' old old' hold hold' e

/-- Built programs are coherent. -/
theorem Built.coherent (hp : p.Built) : p.Coherent where
  occurs := hp.owned.perm_bodyStmts hp.wellFormed
  standsIn m decl body s hm hb := by
    constructor
    · exact hp.owned.ownerOf m decl body s hm hb
    · intro howner
      obtain ⟨decl', body', hm', hb', hs⟩ := hp.owned.standsIn m s howner
      obtain rfl := Except.ok.inj (hm.symm.trans hm')
      obtain rfl := Option.some.inj (hb.symm.trans hb')
      exact hs
  ascending _ _ _ hm hb := hp.assembled.ascending hm hb
  mentioned m s stmt v howner hs hv := hp.owned.stmtVars m s stmt howner hs v hv
  declared m decl body v hm hb hv :=
    hp.owned.bodyVars m decl body hm hb v (List.mem_append_left _ hv)
  follows v hv := ⟨p.usesOf v, hp.wellFormed.exists_dereferencesOf hv, hp.owned.follows_usesOf hv⟩
  returned m decl body hm hb := by
    rw [hp.assembled.returned m decl body hm hb, returnedAmong_eq_eraseDups]
  receivers := hp.assembled.receivers
  classNames := hp.keyed.1
  subsignatures := hp.keyed.2.1
  fieldNames := hp.keyed.2.2

/-- The steps of a program in which two methods grow in turn and one of them returns a variable
twice. -/
def turnSteps : List Draft.Step :=
  [.declareClass "Cell" none,
    .declareField ⟨0⟩ "next" false,
    .declareMethod ⟨0⟩ ⟨"void main()"⟩ .static,
    .declareMethod ⟨0⟩ ⟨"Cell last(Cell)"⟩ .member,
    .declareParam ⟨1⟩ "c",
    .declareVar ⟨0⟩ "x",
    .setEntry ⟨0⟩,
    .append ⟨1⟩ (.load ⟨1⟩ (some ⟨0⟩) ⟨⟨0⟩, "next"⟩),
    .append ⟨0⟩ (.alloc ⟨2⟩ (.cls ⟨0⟩)),
    .append ⟨1⟩ (.ret (some ⟨1⟩)),
    .append ⟨0⟩ (.invoke
      { kind := .special, methodRef := ⟨⟨0⟩, ⟨"Cell last(Cell)"⟩⟩, receiver := some ⟨2⟩, args := [⟨2⟩] }),
    .append ⟨1⟩ (.ret (some ⟨0⟩)),
    .append ⟨1⟩ (.ret (some ⟨1⟩))]

/-- Built in turns, a body lists its own statements ascending and what it returns without
repetition. -/
theorem coherent_turns : ∃ p, (Draft.ofSteps turnSteps).build = .ok p ∧ p.Coherent ∧
    ∃ decl body, p.methodAt ⟨1⟩ = .ok decl ∧ decl.body = some body ∧
      body.stmts = [⟨0⟩, ⟨2⟩, ⟨4⟩, ⟨5⟩] ∧ body.returned = [⟨1⟩, ⟨0⟩] := by
  have hfound : ((Draft.ofSteps turnSteps).build.map
      fun p => (p.methodAt ⟨1⟩).toOption.bind MethodDecl.body).toOption =
        some (some { self := some ⟨0⟩, params := [⟨1⟩], returned := [⟨1⟩, ⟨0⟩],
                     stmts := [⟨0⟩, ⟨2⟩, ⟨4⟩, ⟨5⟩] }) := by
    decide +kernel
  obtain ⟨p, h, hbody⟩ := Outcome.exists_of_toOption_map hfound
  cases hm : p.methodAt ⟨1⟩ with
  | ok decl =>
    rw [hm] at hbody
    exact ⟨p, h, Built.coherent ⟨turnSteps, h⟩, decl, _, hm, hbody, rfl, rfl⟩
  | error e =>
    rw [hm] at hbody
    cases hbody

end Program

end PointerAnalysis
