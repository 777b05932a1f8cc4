import PointerAnalysis.Proofs.Program.Ownership

/-!
# Bodies

What the body of a method holds besides its parameters can be read off the table of statements:
its statements are those that belong to the method, in the order of their handles, and its returned
variables are those that these statements return.

## Main definitions

- `stmtsAmong`: the statements of a method.
- `Program.Assembled`: bodies hold what the table of statements says.

## Main statements

- `Program.Built.assembled`: built programs are assembled.
- `Program.Built.mem_returned_iff`: a method returns the variables of its return statements.
-/

namespace PointerAnalysis

/-- The statements among some rows that belong to a method. -/
def stmtsAmong (entries : List (StmtId × Site)) (m : MethodId) : List StmtId :=
  entries.filterMap fun (s, site) => if site.method = m then some s else none

theorem mem_stmtsAmong {entries : List (StmtId × Site)} {m : MethodId} {s : StmtId} :
    s ∈ stmtsAmong entries m ↔ ∃ site, (s, site) ∈ entries ∧ site.method = m := by
  simp [stmtsAmong, List.mem_filterMap]

theorem stmtsAmong_concat (entries : List (StmtId × Site)) (s : StmtId) (site : Site)
    (m : MethodId) : stmtsAmong (entries ++ [(s, site)]) m =
      stmtsAmong entries m ++ if site.method = m then [s] else [] := by
  simp only [stmtsAmong, List.filterMap_append, List.filterMap_cons, List.filterMap_nil]
  split <;> simp_all

/-- The returned variables depend on the statements of the body only. -/
theorem returnedAmong_congr {stmts stmts' : Table .stmt Site} {body : List StmtId}
    (h : ∀ s ∈ body, stmts'.get? s = stmts.get? s) :
    returnedAmong stmts' body = returnedAmong stmts body := by
  simp only [returnedAmong, Draft.returnedBy]
  induction body using List.reverseRecOn with
  | nil => rfl
  | append_singleton body s ih =>
    have hbody := ih fun i hi => h i (List.mem_append_left _ hi)
    simp only [List.foldl_append, List.foldl_cons, List.foldl_nil, hbody,
      h s (List.mem_append_right _ (List.mem_singleton_self _))]

/-! ## Drafts -/

namespace Draft

variable {d : Draft}

/-- Every body lists the statements that belong to its method, in the order of their handles. -/
def Listed (d : Draft) : Prop :=
  ∀ m decl body, d.methods.get? m = some decl → decl.body = some body →
    body.stmts = stmtsAmong d.stmts.entries m

/-- A method that is declared now has no statements yet. -/
theorem Listed.pushMethod (h : d.Listed) (hd : d.Consistent) {decl : MethodDecl}
    (hb : ∀ body, decl.body = some body → body.stmts = []) (vars : Table .var VarDecl) :
    ({ d with methods := d.methods.push decl, vars } : Draft).Listed := by
  intro m g body hg hbody
  rcases Table.get?_push_cases hg with hg | ⟨rfl, rfl⟩
  · exact h m g body hg hbody
  · rw [hb body hbody, eq_comm, List.eq_nil_iff_forall_not_mem]
    intro s hs
    -- statements belong to methods that are there already
    obtain ⟨site, hsite, hm⟩ := mem_stmtsAmong.1 hs
    obtain ⟨old, -, hold, -⟩ := hd.stmtBody s site (Table.mem_entries.1 hsite)
    rw [hm, Table.get?_next] at hold
    cases hold

/-- A change of a body that leaves its statements alone. -/
theorem Listed.modifyBody (h : d.Listed) (m : MethodId) {f : Body → Body}
    (hf : ∀ b, (f b).stmts = b.stmts) (vars : Table .var VarDecl) :
    ({ d with methods := d.methods.modify m fun decl => { decl with body := decl.body.map f },
              vars } : Draft).Listed := by
  intro n decl body hn hbody
  simp only [Table.get?_modify] at hn
  split at hn
  · rename_i e
    obtain ⟨g, hg, rfl⟩ := Option.map_eq_some_iff.1 hn
    obtain ⟨b, hb, rfl⟩ := Option.map_eq_some_iff.1 hbody
    rw [hf b, e]
    exact h m g b hg hb
  · exact h n decl body hn hbody

/-- A new statement comes last in its body, as it does in the table. -/
theorem Listed.appendStmt (h : d.Listed) (m : MethodId) (stmt : Stmt) :
    ({ d with
        stmts := d.stmts.push { stmt, method := m }
        methods := d.methods.modify m fun decl =>
          { decl with body := decl.body.map fun b => { b with stmts := b.stmts ++ [d.stmts.next] } } } :
      Draft).Listed := by
  intro n decl body hn hbody
  simp only [Table.get?_modify, Table.entries_push, stmtsAmong_concat] at hn ⊢
  split at hn
  · rename_i e
    obtain ⟨g, hg, rfl⟩ := Option.map_eq_some_iff.1 hn
    obtain ⟨b, hb, rfl⟩ := Option.map_eq_some_iff.1 hbody
    rw [e, if_pos rfl, h m g b hg hb]
  · rename_i e
    rw [if_neg (Ne.symm e), List.append_nil]
    exact h n decl body hn hbody

/-- No step that finds no mistake puts a statement into the body of another method. -/
theorem Listed.change (h : d.Listed) (hd : d.Consistent) {s : Step} {d' : Draft}
    (hchange : d.Change s d') : d'.Listed := by
  cases hchange with
  | method _ _ hbody _ => exact h.pushMethod hd hbody _
  | param _ =>
    exact h.modifyBody _ (f := fun b => { b with params := b.params ++ [d.vars.next] })
      (fun _ => rfl) _
  | stmt _ => exact h.appendStmt _ _
  -- nothing else touches a body or a statement
  | classes _ _ => exact h
  | field _ _ => exact h
  | var => exact h

/-- In a draft without noted mistakes every body lists its own statements. -/
theorem listed_ofSteps {steps : List Step} (hdef : (ofSteps steps).defects = []) :
    (ofSteps steps).Listed := by
  induction steps using List.reverseRecOn with
  | nil =>
    intro m decl body hm
    cases hm
  | append_singleton steps s ih =>
    rw [ofSteps_concat] at hdef ⊢
    obtain ⟨hbefore, hchange⟩ := change_of_defects hdef
    exact (ih hbefore).change (consistent_ofSteps hbefore) hchange

/-- The check of a body finds that calls have a receiver exactly if their kind asks for one. -/
theorem hasReceiver_of_checkBody {m : MethodId} {body : Body} (h : d.checkBody m body = .ok ())
    {s : StmtId} (hs : s ∈ body.stmts) {site : Site} (hsite : d.stmts.get? s = some site)
    {call : Invoke} (hcall : site.stmt = .invoke call) :
    call.kind.hasReceiver = call.receiver.isSome := by
  obtain ⟨-, hstmt⟩ := (checkBody_eq_ok h).2 s hs site hsite
  rw [hcall] at hstmt
  obtain ⟨⟨⟩, -, h⟩ := Outcome.bind_eq_ok.1 hstmt
  split at h
  · exact absurd h Outcome.defect_ne_ok
  · rename_i hne
    exact not_not.1 hne

end Draft

/-! ## Programs -/

namespace Program

/-- Bodies hold what the table of statements says, and calls have the receivers they need. -/
structure Assembled (p : Program) : Prop where
  stmts : ∀ m decl body, p.methodAt m = .ok decl → decl.body = some body →
    body.stmts = stmtsAmong p.stmts.entries m
  returned : ∀ m decl body, p.methodAt m = .ok decl → decl.body = some body →
    body.returned = returnedAmong p.stmts body.stmts
  receivers : ∀ s call, p.stmtAt s = .ok (.invoke call) →
    call.kind.hasReceiver = call.receiver.isSome

/-- Built programs are assembled. -/
theorem Built.assembled {p : Program} (h : p.Built) : p.Assembled := by
  obtain ⟨steps, h⟩ := h
  obtain ⟨entry, hchecked, rfl⟩ := Draft.build_eq_ok h
  have hd := Draft.consistent_ofSteps hchecked.defects
  have hlisted := Draft.listed_ofSteps hchecked.defects
  generalize Draft.ofSteps steps = d at *
  refine
    { stmts := fun m decl body hm hb => ?_
      returned := fun m decl body hm hb => ?_
      receivers := fun s call hs => ?_ }
  · obtain ⟨old, b, hold, hob, rfl⟩ :=
      Draft.exists_body_of_get? (Outcome.ofRow_eq_ok.1 hm) hb
    exact hlisted m old b hold hob
  · obtain ⟨old, b, hold, hob, rfl⟩ :=
      Draft.exists_body_of_get? (Outcome.ofRow_eq_ok.1 hm) hb
    exact d.returnedBy_eq b
  · obtain ⟨site, hsite, hcall⟩ := stmtAt_eq_ok.1 hs
    obtain ⟨decl, body, hm, hb, hmem⟩ := hd.stmtBody s site hsite
    exact Draft.hasReceiver_of_checkBody (hchecked.bodies _ decl body hm hb) hmem hsite hcall

/-- A method with a body returns the variables of its return statements. -/
theorem Built.mem_returned_iff {p : Program} (h : p.Built) {m : MethodId} {decl : MethodDecl}
    {body : Body} (hm : p.methodAt m = .ok decl) (hb : decl.body = some body) {v : VarId} :
    v ∈ body.returned ↔ ∃ s, p.Executes m s (.ret (some v)) := by
  rw [h.assembled.returned m decl body hm hb, mem_returnedAmong]
  constructor
  · intro hv
    obtain ⟨s, hs, e⟩ := hv
    obtain ⟨site, hsite, hstmt⟩ := Option.map_eq_some_iff.1 e
    exact ⟨s, decl, body, hm, hb, hs, stmtAt_eq_ok.2 ⟨site, hsite, hstmt⟩⟩
  · intro hv
    obtain ⟨s, decl', body', hm', hb', hs, hstmt⟩ := hv
    obtain rfl := Except.ok.inj (hm.symm.trans hm')
    obtain rfl := Option.some.inj (hb.symm.trans hb')
    obtain ⟨site, hsite, hstmt⟩ := stmtAt_eq_ok.1 hstmt
    exact ⟨s, hs, Option.map_eq_some_iff.2 ⟨site, hsite, hstmt⟩⟩

end Program

end PointerAnalysis
