import PointerAnalysis.Proofs.Bounds

/-!
# Solutions

What an analysis is meant to find, without the means by which it is found: for each context the
methods that can run, the calls between them, and what each location may refer to.  A solution is
closed when it respects the inclusion that each statement demands.

The rules of `Follows` derive flow as facts of their own; here an inclusion of two sets is said
directly.

## Main definitions

- `Solution`: reachable methods, calls and points-to sets.
- `Solution.Closed`: every inclusion holds.
- `Solution.Feasible`: every statement that is reached can be carried out.

## Main statements

- `Solution.Closed.facts`: closed solutions are closed under the rules.
- `closed_ofFacts`, `feasible_ofFacts`: facts closed under the rules make a closed solution, and a
  feasible one if none of them makes a statement fail.
-/

namespace PointerAnalysis

open Solver

/-- Reachable methods, calls and points-to sets. -/
structure Solution where
  reaches : ContextName → MethodId → Prop
  calls : CallKind → ContextName → StmtId → ContextName → MethodId → Prop
  refers : PointerName → ObjName → Prop

namespace Solution

/-- One solution says no more than another. -/
structure Within (S S' : Solution) : Prop where
  reaches : ∀ t m, S.reaches t m → S'.reaches t m
  calls : ∀ kind t s t' m, S.calls kind t s t' m → S'.calls kind t s t' m
  refers : ∀ x o, S.refers x o → S'.refers x o

/-- Whatever `x` refers to, `y` refers to as well. -/
def Includes (S : Solution) (x y : PointerName) : Prop := ∀ o, S.refers x o → S.refers y o

/-- A call on the object `o` runs the method `m`, which is declared by `decl`. -/
structure Dispatches (p : Program) (call : Invoke) (o : ObjName) (c : ClassId) (m : MethodId)
    (decl : MethodDecl) : Prop where
  allocator : p.WrittenIn o.site c
  target : ∃ type, p.Allocates o.site type ∧ targetOf p call (some type) = .ok (some m)
  decl : p.methodAt m = .ok decl

/-- Every inclusion that a statement demands holds. -/
structure Closed (p : Program) (σ : Sensitivity) (S : Solution) : Prop where
  entry : S.reaches [] p.entry
  alloc : ∀ t m s lhs type, S.reaches t m → p.Executes m s (.alloc lhs type) →
    S.refers (.var t lhs) ⟨σ.heapName t, s⟩
  copy : ∀ t m s lhs rhs, S.reaches t m → p.Executes m s (.copy lhs rhs) →
    S.Includes (.var t rhs) (.var t lhs)
  loadStatic : ∀ t m s lhs r f, S.reaches t m → p.Executes m s (.load lhs none r) →
    resolveFieldAs p true r = .ok f → S.Includes (.staticField f) (.var t lhs)
  storeStatic : ∀ t m s r rhs f, S.reaches t m → p.Executes m s (.store none r rhs) →
    resolveFieldAs p true r = .ok f → S.Includes (.var t rhs) (.staticField f)
  callStatic : ∀ t m s call m' decl, S.reaches t m → p.Executes m s (.invoke call) →
    call.kind = .static → targetOf p call none = .ok (some m') → p.methodAt m' = .ok decl →
    decl.isStatic = true → S.calls call.kind t s (σ.staticName t s) m'
  loadField : ∀ t v o s lhs r f, S.refers (.var t v) o →
    p.stmtAt s = .ok (.load lhs (some v) r) → resolveFieldAs p false r = .ok f →
    S.Includes (.instanceField o f) (.var t lhs)
  storeField : ∀ t v o s r rhs f, S.refers (.var t v) o →
    p.stmtAt s = .ok (.store (some v) r rhs) → resolveFieldAs p false r = .ok f →
    S.Includes (.var t rhs) (.instanceField o f)
  loadArray : ∀ t v o s lhs, S.refers (.var t v) o → p.stmtAt s = .ok (.loadArray lhs v) →
    S.Includes (.arrayElems o) (.var t lhs)
  storeArray : ∀ t v o s rhs, S.refers (.var t v) o → p.stmtAt s = .ok (.storeArray v rhs) →
    S.Includes (.var t rhs) (.arrayElems o)
  /-- A call on an object runs the method that its type selects. -/
  callOn : ∀ t v o s call c m decl, S.refers (.var t v) o → p.stmtAt s = .ok (.invoke call) →
    call.receiver = some v → Dispatches p call o c m decl → decl.isStatic = false →
    S.calls call.kind t s (σ.instanceName t s o c) m
  /-- The object becomes the `this` of that method. -/
  self : ∀ t v o s call c m decl this, S.refers (.var t v) o →
    p.stmtAt s = .ok (.invoke call) → call.receiver = some v → Dispatches p call o c m decl →
    decl.isStatic = false → decl.body.bind Body.self = some this →
    S.refers (.var (σ.instanceName t s o c) this) o
  callee : ∀ kind t s t' m call, S.calls kind t s t' m → p.stmtAt s = .ok (.invoke call) →
    S.reaches t' m
  arg : ∀ kind t s t' m call decl body a v, S.calls kind t s t' m →
    p.stmtAt s = .ok (.invoke call) → p.methodAt m = .ok decl → decl.body = some body →
    call.args.length = body.params.length → (a, v) ∈ call.args.zip body.params →
    S.Includes (.var t a) (.var t' v)
  result : ∀ kind t s t' m call decl body r v, S.calls kind t s t' m →
    p.stmtAt s = .ok (.invoke call) → p.methodAt m = .ok decl → decl.body = some body →
    call.args.length = body.params.length → call.result = some r → v ∈ body.returned →
    S.Includes (.var t' v) (.var t r)

/-- Every statement that is reached can be carried out, so the premises by which `Closed` passes
over a statement always hold. -/
structure Feasible (p : Program) (S : Solution) : Prop where
  loadStatic : ∀ t m s lhs r, S.reaches t m → p.Executes m s (.load lhs none r) →
    ∃ f, resolveFieldAs p true r = .ok f
  storeStatic : ∀ t m s r rhs, S.reaches t m → p.Executes m s (.store none r rhs) →
    ∃ f, resolveFieldAs p true r = .ok f
  callStatic : ∀ t m s call, S.reaches t m → p.Executes m s (.invoke call) →
    call.kind = .static → ∃ target, targetOf p call none = .ok target ∧
      ∀ m', target = some m' → ∃ decl, p.methodAt m' = .ok decl ∧ decl.isStatic = true
  loadField : ∀ t v o s lhs r, S.refers (.var t v) o → p.stmtAt s = .ok (.load lhs (some v) r) →
    ∃ f, resolveFieldAs p false r = .ok f
  storeField : ∀ t v o s r rhs, S.refers (.var t v) o →
    p.stmtAt s = .ok (.store (some v) r rhs) → ∃ f, resolveFieldAs p false r = .ok f
  callOn : ∀ t v o s call, S.refers (.var t v) o → p.stmtAt s = .ok (.invoke call) →
    call.receiver = some v → ∃ type c target, p.Allocates o.site type ∧ p.WrittenIn o.site c ∧
      targetOf p call (some type) = .ok target ∧
      ∀ m, target = some m → ∃ decl, p.methodAt m = .ok decl ∧ decl.isStatic = false
  /-- A call edge belongs to a call of its kind, whose arguments fit. -/
  call : ∀ kind t s t' m, S.calls kind t s t' m →
    ∃ call decl, p.stmtAt s = .ok (.invoke call) ∧ call.kind = kind ∧ p.methodAt m = .ok decl ∧
      ∀ body, decl.body = some body → call.args.length = body.params.length

/-! ## Solutions as facts -/

/-- The facts of a solution.  Flow is inclusion, and everything is in use. -/
def facts (S : Solution) : Fact → Prop
  | .context _ | .object _ | .pointer _ => True
  | .reaches t m => S.reaches t m
  | .calls kind t s t' m => S.calls kind t s t' m
  | .flows x y => S.Includes x y
  | .refers x o => S.refers x o

variable {p : Program} {σ : Sensitivity} {S : Solution}

/-- Closed solutions are closed under the rules. -/
theorem Closed.facts (h : S.Closed p σ) : Solver.Closed p σ S.facts := by
  intro f hf
  cases hf with
  | entry => exact h.entry
  | visit hm hs hf =>
    cases hf with
    | alloc => exact h.alloc _ _ _ _ _ hm hs
    | copy => exact h.copy _ _ _ _ _ hm hs
    | load hf => exact h.loadStatic _ _ _ _ _ _ hm hs hf
    | store hf => exact h.storeStatic _ _ _ _ _ _ hm hs hf
    | call hk ht hd hstatic => exact h.callStatic _ _ _ _ _ _ hm hs hk ht hd hstatic
  | dereference hv hs hb hf =>
    cases hf with
    | store hf => cases hb; exact h.storeField _ _ _ _ _ _ _ hv hs hf
    | load hf => cases hb; exact h.loadField _ _ _ _ _ _ _ hv hs hf
    | storeArray => cases hb; exact h.storeArray _ _ _ _ _ hv hs
    | loadArray => cases hb; exact h.loadArray _ _ _ _ _ hv hs
    | self ha hw ht hd hstatic hself =>
      exact h.self _ _ _ _ _ _ _ _ _ hv hs hb ⟨hw, ⟨_, ha, ht⟩, hd⟩ hstatic hself
    | call ha hw ht hd hstatic =>
      exact h.callOn _ _ _ _ _ _ _ _ hv hs hb ⟨hw, ⟨_, ha, ht⟩, hd⟩ hstatic
  | link hc hs hf =>
    cases hf with
    | callee => exact h.callee _ _ _ _ _ _ hc hs
    | arg hd hb hl hv => exact h.arg _ _ _ _ _ _ _ _ _ _ hc hs hd hb hl hv
    | result hd hb hl hr hv => exact h.result _ _ _ _ _ _ _ _ _ _ hc hs hd hb hl hr hv
    | resultPointer => trivial
  | propagate hxy ho => exact hxy _ ho
  -- a solution does not say what is in use
  | source | target | holder | referent | heapContext | methodContext => trivial

/-! ## Facts as solutions -/

/-- What some facts say about methods, calls and locations. -/
def ofFacts (F : Fact → Prop) : Solution where
  reaches t m := F (.reaches t m)
  calls kind t s t' m := F (.calls kind t s t' m)
  refers x o := F (.refers x o)

variable {F : Fact → Prop}

/-- Facts closed under the rules make a closed solution. -/
theorem closed_ofFacts (hF : Solver.Closed p σ F) : (ofFacts F).Closed p σ := by
  -- flow that follows by a rule is an inclusion
  have hincludes : ∀ {x y}, Follows p σ F (.flows x y) → (ofFacts F).Includes x y :=
    fun hxy o ho => hF _ (.propagate (hF _ hxy) ho)
  exact
    { entry := hF _ .entry
      alloc := fun t m s lhs type hm hs => hF _ (.visit hm hs .alloc)
      copy := fun t m s lhs rhs hm hs => hincludes (.visit hm hs .copy)
      loadStatic := fun t m s lhs r f hm hs hf => hincludes (.visit hm hs (.load hf))
      storeStatic := fun t m s r rhs f hm hs hf => hincludes (.visit hm hs (.store hf))
      callStatic := fun t m s call m' decl hm hs hk ht hd hstatic =>
        hF _ (.visit hm hs (.call hk ht hd hstatic))
      loadField := fun t v o s lhs r f hv hs hf =>
        hincludes (.dereference hv hs rfl (.load hf))
      storeField := fun t v o s r rhs f hv hs hf =>
        hincludes (.dereference hv hs rfl (.store hf))
      loadArray := fun t v o s lhs hv hs => hincludes (.dereference hv hs rfl .loadArray)
      storeArray := fun t v o s rhs hv hs => hincludes (.dereference hv hs rfl .storeArray)
      callOn := fun t v o s call c m decl hv hs hb hd hstatic =>
        hd.target.elim fun type ht =>
          hF _ (.dereference hv hs hb (.call ht.1 hd.allocator ht.2 hd.decl hstatic))
      self := fun t v o s call c m decl this hv hs hb hd hstatic hself =>
        hd.target.elim fun type ht =>
          hF _ (.dereference hv hs hb (.self ht.1 hd.allocator ht.2 hd.decl hstatic hself))
      callee := fun kind t s t' m call hc hs => hF _ (.link hc hs .callee)
      arg := fun kind t s t' m call decl body a v hc hs hd hb hl hv =>
        hincludes (.link hc hs (.arg hd hb hl hv))
      result := fun kind t s t' m call decl body r v hc hs hd hb hl hr hv =>
        hincludes (.link hc hs (.result hd hb hl hr hv)) }

/-- Where nothing fails, every statement that is reached can be carried out. -/
theorem feasible_ofFacts (wf : p.WellFormed) (hfits : ∀ f, F f → Fits p σ f)
    (hno : ∀ e, ¬ Fails p F e) : (ofFacts F).Feasible p := by
  -- an access that does not fail names a field
  have hfield : ∀ {s stmt} b {r : FieldRef}, p.stmtAt s = .ok stmt → r.cls ∈ stmt.classRefs →
      (∀ e, resolveFieldAs p b r = .error (.error e) → Fails p F e) →
      ∃ f, resolveFieldAs p b r = .ok f := by
    intro s stmt b r hs hr hfails
    exact wf.exists_field (wf.stmt_classes hs hr) fun e he => hno e (hfails e he)
  refine
    { loadStatic := fun t m s lhs r hm hx => ?_
      storeStatic := fun t m s r rhs hm hx => ?_
      callStatic := fun t m s call hm hx hk => ?_
      loadField := fun t v o s lhs r hv hs => ?_
      storeField := fun t v o s r rhs hv hs => ?_
      callOn := fun t v o s call hv hs hb => ?_
      call := fun kind t s t' m hc => ?_ }
  · obtain ⟨_, _, _, _, _, hs⟩ := id hx
    exact hfield true hs (List.mem_singleton_self _) fun e he => .visit hm hx (.load he)
  · obtain ⟨_, _, _, _, _, hs⟩ := id hx
    exact hfield true hs (List.mem_singleton_self _) fun e he => .visit hm hx (.store he)
  · obtain ⟨_, _, _, _, _, hs⟩ := id hx
    obtain ⟨target, htarget, hhas⟩ := wf.exists_targetOf
      (wf.stmt_classes hs (List.mem_singleton_self _)) none (by intro x hx; cases hx)
    refine ⟨target, htarget, ?_⟩
    intro m' e
    obtain rfl := e
    exact wf.exists_decl true (hhas m' rfl) fun decl signature hdecl hstatic hsig =>
      hno _ (.visit hm hx (.call hk htarget hdecl hstatic hsig))
  · exact hfield false hs (List.mem_singleton_self _) fun e he => .dereference hv hs rfl (.load he)
  · exact hfield false hs (List.mem_singleton_self _) fun e he => .dereference hv hs rfl (.store he)
  · -- the object fits, so it has a type and an allocating class
    obtain ⟨type, hallocates⟩ := (hfits _ hv).2.2
    obtain ⟨lhs, halloc⟩ := id hallocates
    obtain ⟨site, hsite, -⟩ := Program.stmtAt_eq_ok.1 halloc
    obtain ⟨owner, howner⟩ := Program.exists_methodAt (wf.stmtMethod o.site site hsite)
    obtain ⟨target, htarget, hhas⟩ := wf.exists_targetOf
      (wf.stmt_classes hs (List.mem_singleton_self _)) (some type) (by
        intro base e
        cases e
        exact has_base_of_allocates wf hallocates)
    refine ⟨type, owner.owner, target, hallocates,
      ⟨site, owner, Outcome.ofRow_eq_ok.2 hsite, howner, rfl⟩, htarget, ?_⟩
    intro m e
    obtain rfl := e
    exact wf.exists_decl false (hhas m rfl) fun decl signature hdecl hstatic hsig =>
      hno _ (.dereference hv hs hb (.call hallocates htarget hdecl hstatic hsig))
  · obtain ⟨-, -, hm, call, hs, hk⟩ := hfits _ hc
    obtain ⟨decl, hdecl⟩ := Program.exists_methodAt hm
    obtain ⟨signature, hsig⟩ := wf.exists_methodSignature hm
    refine ⟨call, decl, hs, hk, hdecl, fun body hb => ?_⟩
    -- a call whose arguments do not fit would fail
    by_contra hl
    exact hno _ (.link hc hs (.arity hdecl hb hl hsig))

end Solution

end PointerAnalysis
