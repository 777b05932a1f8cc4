import PointerAnalysis.Proofs.Solver.Visits

/-!
# Dereferences

When a variable turns out to refer to an object, every access and every call through the variable is
settled for that object, unless it can not be carried out, which is reported.

## Main statements

- `ensures_callOn`: a call on an object binds `this` and is settled.
- `ensures_dereferenceStmt`: one statement is settled for an object.
- `ensures_dereference`: all statements that follow a variable are settled for an object.
-/

namespace PointerAnalysis.Solver

variable {p : Program} {σ : Sensitivity} {s : State}

/-! ## Allocation sites -/

theorem allocates_inj {i : StmtId} {type type' : RefType} (h : p.Allocates i type)
    (h' : p.Allocates i type') : type = type' := by
  obtain ⟨lhs, hs⟩ := h
  obtain ⟨lhs', hs'⟩ := h'
  obtain ⟨-, rfl⟩ := Stmt.alloc.inj (Except.ok.inj (hs.symm.trans hs'))
  rfl

theorem writtenIn_inj {i : StmtId} {c c' : ClassId} (h : p.WrittenIn i c)
    (h' : p.WrittenIn i c') : c = c' := by
  obtain ⟨site, decl, hs, hd, rfl⟩ := h
  obtain ⟨site', decl', hs', hd', rfl⟩ := h'
  obtain rfl := Except.ok.inj (hs.symm.trans hs')
  obtain rfl := Except.ok.inj (hd.symm.trans hd')
  rfl

/-! ## Calls -/

section Dereference

variable (wf : p.WellFormed) (hv : Valid p σ s) {c : ContextId} {t : ContextName} {v : VarId}
  {q : QObjId} {o : ObjName} (ht : s.world.contextName? s.heap c = some t)
  (ho : s.world.objName? s.heap q = some o) (hr : Least p σ (.refers (.var t v) o))
include wf hv ht ho hr

section Statement

variable {key : Qualified ObjId} {i : StmtId} (hkey : s.world.objs.get? q = some key)
include hkey

/-- A call on an object is settled for it. -/
theorem ensures_callOn {call : Invoke} (hs : p.stmtAt i = .ok (.invoke call))
    (hb : call.receiver = some v) :
    Ensures (running p σ) (callOn p σ c q key i call) s fun _ s' =>
      DereferenceSettled p σ s'.Knows t o i (.invoke call) := by
  -- the name of the object is read off the row it stands for
  obtain ⟨key', hkey', hn⟩ := Option.bind_eq_some_iff.1 ho
  obtain rfl := Option.some.inj (hkey.symm.trans hkey')
  obtain ⟨hcontext, obj, hobj, hsite⟩ := Universe.objKeyName?_eq_some.1 hn
  obtain ⟨hallocates, hwritten, -⟩ := hv.rows.heap _ obj hobj
  rw [hsite] at hallocates hwritten
  refine .get_bind (.lift_bind (Outcome.ofRow_eq_ok.2 hobj) ?_)
  obtain ⟨target, htarget, hhas⟩ := wf.exists_targetOf
    (wf.stmt_classes hs (List.mem_singleton_self _)) (some obj.type) (by
      intro v' e
      cases e
      exact has_base_of_allocates wf hallocates)
  -- the target of the call on `o` is the one found here
  have hsame : ∀ {type m}, p.Allocates o.site type →
      targetOf p call (some type) = .ok (some m) → target = some m := by
    intro type m ha hm
    obtain rfl := allocates_inj hallocates ha
    exact Except.ok.inj (htarget.symm.trans hm)
  apply Ensures.lift_bind htarget
  cases target with
  | none =>
    refine .pure hv ⟨fun f hf => ?_, fun e he => ?_⟩
    · cases hf with
      | self ha _ hm => cases hsame ha hm
      | call ha _ hm => cases hsame ha hm
    · cases he with
      | call ha hm => cases hsame ha hm
  | some m =>
    obtain ⟨decl, hdecl⟩ := Program.exists_methodAt (hhas m rfl)
    apply Ensures.lift_bind hdecl
    cases hstatic : decl.isStatic with
    | true =>
      obtain ⟨signature, hsig⟩ := wf.exists_methodSignature (hhas m rfl)
      refine .lift_bind hsig (.throw_bind ⟨_, rfl, ?_⟩)
      exact .dereference hr hs hb (.call hallocates htarget hdecl hstatic hsig)
    | false =>
      -- the context of the callee, by name
      let t' := σ.instanceName t i o obj.containerClass
      have hf : Least p σ (.calls call.kind t i t' m) := least_closed _
        (.dereference hr hs hb (.call hallocates hwritten htarget hdecl hstatic))
      have hreach : Least p σ (.reaches t' m) := least_closed _ (.link hf hs .callee)
      refine .bind (ensures_chooseContext hv
        (Sensitivity.chooses_instanceContext hv.rows.faithful.contexts hv.rows.empty ⟨c, i⟩
          ht hcontext hobj hsite) (least_closed _ (.methodContext hreach))).running
        fun c' s₁ hv₁ hg₁ hc' => ?_
      -- once the object is the `this` of the callee, the call is connected
      have hconnect : ∀ s₂, Valid p σ s₂ → Grows s₁ s₂ →
          (∀ self, decl.body.bind Body.self = some self → s₂.Knows (.refers (.var t' self) o)) →
          Ensures (running p σ) (connect p call ⟨c, i⟩ ⟨c', m⟩) s₂ fun _ s' =>
            DereferenceSettled p σ s'.Knows t o i (.invoke call) := by
        intro s₂ hv₂ hg₂ hthis
        have hg := hg₁.1.trans hg₂
        refine .mono (ensures_connect wf hv₂ ⟨c, i⟩ ⟨c', m⟩
          (Universe.contextName?_mono hg.world hg.heap ht)
          (Universe.contextName?_mono hg₂.world hg₂.heap hc') hs hf)
          fun _ s₃ _ hg₃ hknown => ⟨fun f hy => ?_, fun e he => ?_⟩
        · cases hy with
          | self ha hw hm hd _ hself =>
            obtain rfl := Option.some.inj (hsame ha hm)
            obtain rfl := writtenIn_inj hwritten hw
            obtain rfl := Except.ok.inj (hdecl.symm.trans hd)
            exact hg₃.1.knows (hthis _ hself)
          | call ha hw hm _ _ =>
            obtain rfl := Option.some.inj (hsame ha hm)
            obtain rfl := writtenIn_inj hwritten hw
            exact hknown
        · cases he with
          | call ha hm hd hs' =>
            obtain rfl := Option.some.inj (hsame ha hm)
            obtain rfl := Except.ok.inj (hdecl.symm.trans hd)
            rw [hstatic] at hs'
            cases hs'
      cases hself : decl.body.bind Body.self with
      | none => exact hconnect s₁ hv₁ (.refl s₁) (by rw [hself]; intro v' e; cases e)
      | some self =>
        have hbind : Least p σ (.refers (.var t' self) o) := least_closed _
          (.dereference hr hs hb (.self hallocates hwritten htarget hdecl hstatic hself))
        refine .bind (ensures_internPointer hv₁ ((Grows.refl s₁).keyVar hc' self)
          (least_closed _ (.holder hbind))).running fun target s₂ hv₂ hg₂ htarget' => ?_
        -- the object is delivered to `this` before the call is connected
        have hg₁₂ := hg₁.1.trans hg₂.1
        refine .bind (ensures_deliver_singleton hv₂ htarget'
          (Universe.objName?_mono hg₁₂.world hg₁₂.heap ho) hbind).running
          fun _ s₃ hv₃ hg₃ hknown => ?_
        apply hconnect s₃ hv₃ (hg₂.1.trans hg₃.1)
        rw [hself]
        intro v' e
        cases e
        exact hknown

/-! ## Statements -/

/-- A statement that follows a variable is settled for an object. -/
theorem ensures_dereferenceStmt {stmt : Stmt} (hs : p.stmtAt i = .ok stmt)
    (hb : stmt.base? = some v) :
    Ensures (running p σ) (dereferenceStmt p σ c q key i stmt) s fun _ s' =>
      DereferenceSettled p σ s'.Knows t o i stmt := by
  have hvar : ∀ v, s.world.pointerKeyName? s.heap (.var c v) = some (.var t v) :=
    (Grows.refl s).keyVar ht
  have hfield : ∀ f, s.world.pointerKeyName? s.heap (.instanceField q f) =
      some (.instanceField o f) := fun f =>
    Universe.pointerKeyName?_eq_instanceField.2 ⟨q, rfl, ho⟩
  have helems : s.world.pointerKeyName? s.heap (.arrayElems q) = some (.arrayElems o) :=
    Universe.pointerKeyName?_eq_arrayElems.2 ⟨q, rfl, ho⟩
  cases stmt with
  | store base field rhs =>
    refine ensures_resolveFieldAs wf (wf.stmt_classes hs (List.mem_singleton_self _))
      (fun e he => ⟨e, rfl, .dereference hr hs hb (.store he)⟩) fun g hg => ?_
    have hf : Least p σ (.flows (.var t rhs) (.instanceField o g)) :=
      least_closed _ (.dereference hr hs hb (.store hg))
    refine .mono (ensures_flowBetween hv (hvar rhs) (hfield g) hf).running
      fun _ s₁ _ _ hknown => ⟨fun f hf => ?_, fun e he => ?_⟩
    · cases hf with
      | store hg' => exact Except.ok.inj (hg.symm.trans hg') ▸ hknown
    · cases he with
      | store he => rw [hg] at he; cases he
  | load lhs base field =>
    refine ensures_resolveFieldAs wf (wf.stmt_classes hs (List.mem_singleton_self _))
      (fun e he => ⟨e, rfl, .dereference hr hs hb (.load he)⟩) fun g hg => ?_
    have hf : Least p σ (.flows (.instanceField o g) (.var t lhs)) :=
      least_closed _ (.dereference hr hs hb (.load hg))
    refine .mono (ensures_flowBetween hv (hfield g) (hvar lhs) hf).running
      fun _ s₁ _ _ hknown => ⟨fun f hf => ?_, fun e he => ?_⟩
    · cases hf with
      | load hg' => exact Except.ok.inj (hg.symm.trans hg') ▸ hknown
    · cases he with
      | load he => rw [hg] at he; cases he
  | storeArray base rhs =>
    have hf : Least p σ (.flows (.var t rhs) (.arrayElems o)) :=
      least_closed _ (.dereference hr hs hb .storeArray)
    apply Ensures.mono (ensures_flowBetween hv (hvar rhs) helems hf).running
    intro _ s₁ _ _ hknown
    constructor
    · intro f hf
      cases hf
      exact hknown
    · intro e he
      cases he
  | loadArray lhs base =>
    have hf : Least p σ (.flows (.arrayElems o) (.var t lhs)) :=
      least_closed _ (.dereference hr hs hb .loadArray)
    apply Ensures.mono (ensures_flowBetween hv helems (hvar lhs) hf).running
    intro _ s₁ _ _ hknown
    constructor
    · intro f hf
      cases hf
      exact hknown
    · intro e he
      cases he
  | invoke call => exact ensures_callOn wf hv ht ho hr hkey hs hb
  -- the other statements follow no variable
  | alloc _ _ => cases hb
  | copy _ _ => cases hb
  | ret _ => cases hb
  | nop => cases hb

end Statement

/-- All statements that follow a variable are settled for an object it refers to. -/
theorem ensures_dereference :
    Ensures (running p σ) (dereference p σ c v q) s fun _ s' =>
      ReferentSettled p σ s'.Knows t v o := by
  obtain ⟨key, hkey, -⟩ := Option.bind_eq_some_iff.1 ho
  apply Ensures.lift_bind (wf.exists_dereferencesOf (hr.fits wf).1.2)
  refine .get_bind (.lift_bind (Outcome.ofRow_eq_ok.2 hkey) ?_)
  show Ensures (running p σ) ((p.usesOf v).all.forM _) s _
  -- a statement that has been settled stays so while the others are carried out
  refine .mono (P := fun _ s' => ∀ i ∈ (p.usesOf v).all, ∀ stmt, p.stmtAt i = .ok stmt →
    DereferenceSettled p σ s'.Knows t o i stmt) ?_ fun _ s' _ _ hall => ?_
  · refine .forM hv (fun i _ _ hg h stmt hs => (h stmt hs).mono fun _ => hg.1.knows)
      fun i hi s₁ hv₁ hg₁ => ?_
    obtain ⟨stmt, hs, hb⟩ := Program.mem_usesOf.1 hi
    apply Ensures.lift_bind hs
    refine .mono (ensures_dereferenceStmt wf hv₁
      (Universe.contextName?_mono hg₁.1.world hg₁.1.heap ht)
      (Universe.objName?_mono hg₁.1.world hg₁.1.heap ho) hr (hg₁.1.world.objs.get? hkey) hs hb)
      fun _ s₂ _ _ h stmt' hs' => ?_
    obtain rfl := Except.ok.inj (hs.symm.trans hs')
    exact h
  · exact fun i stmt hs hb => hall i (Program.mem_usesOf.2 ⟨stmt, hs, hb⟩) stmt hs

end Dereference

end PointerAnalysis.Solver
