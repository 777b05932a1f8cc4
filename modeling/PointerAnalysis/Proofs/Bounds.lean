import PointerAnalysis.Proofs.Context.Policy
import PointerAnalysis.Proofs.Hierarchy.Total

/-!
# Bounds on facts

Whatever follows from the rules speaks of things that exist: contexts are no longer than the
sensitivity allows and hold elements of its sort only, and all else names rows of the program.  So
a run on a well-formed program has handles to follow, and there are finitely many facts to find.

## Main definitions

- `Sensitivity.Admits`: the elements that contexts are made of.
- `Fits`: a fact speaks of things that exist.

## Main statements

- `fits_closed`: what fits has consequences that fit.
- `Least.fits`: all facts of the least closed set fit.
-/

namespace PointerAnalysis

namespace Sensitivity

/-- The elements of contexts under a sensitivity. -/
def Admits (p : Program) : Sensitivity → ElemName → Prop
  | callSite _, .site s => p.stmts.Has s
  | object _, .object s => p.stmts.Has s
  | type _, .cls c => p.classes.Has c
  | _, _ => False

/-- The contexts under a sensitivity. -/
def Allows (p : Program) (σ : Sensitivity) (t : ContextName) : Prop :=
  t.length ≤ σ.depth ∧ ∀ e ∈ t, σ.Admits p e

end Sensitivity

namespace Sensitivity

variable {p : Program} {σ : Sensitivity} {t : ContextName}

/-- The empty context is allowed under every sensitivity. -/
theorem allows_nil : σ.Allows p [] := ⟨Nat.zero_le _, by simp⟩

/-- The last elements of a context and a new one. -/
private theorem allows_lastElems {k : Nat} {e : ElemName} (hk : k ≤ σ.depth) (ht : σ.Allows p t)
    (he : σ.Admits p e) : σ.Allows p (lastElems k (t ++ [e])) := by
  refine ⟨Nat.le_trans (length_lastElems _ _) hk, fun e' he' => ?_⟩
  rcases List.mem_append.1 (mem_of_mem_lastElems he') with h | h
  · exact ht.2 e' h
  · exact List.mem_singleton.1 h ▸ he

/-- The context of a callee without a receiver is allowed if that of its caller is. -/
theorem allows_staticName {s : StmtId} (ht : σ.Allows p t) (hs : p.stmts.Has s) :
    σ.Allows p (σ.staticName t s) := by
  cases σ with
  | insensitive => exact allows_nil
  | callSite k => exact allows_lastElems (Nat.le_refl k) ht hs
  | object _ | type _ => exact ht

/-- The context of a callee with a receiver is allowed if those of its caller and of the receiver
are. -/
theorem allows_instanceName {s : StmtId} {o : ObjName} {c : ClassId} (ht : σ.Allows p t)
    (hs : p.stmts.Has s) (ho : σ.Allows p o.context) (hos : p.stmts.Has o.site)
    (hc : p.classes.Has c) : σ.Allows p (σ.instanceName t s o c) := by
  cases σ with
  | insensitive => exact allows_nil
  | callSite k => exact allows_lastElems (Nat.le_refl k) ht hs
  | object k => exact allows_lastElems (Nat.le_refl k) ho hos
  | type k => exact allows_lastElems (Nat.le_refl k) ho hc

/-- The context of an object is allowed if that of the allocating method is. -/
theorem allows_heapName (ht : σ.Allows p t) : σ.Allows p (σ.heapName t) := by
  have hlast : ∀ k, σ.Allows p (lastElems (k - 1) t) := fun k =>
    ⟨Nat.le_trans (by simp only [lastElems, List.length_drop]; omega) ht.1,
      fun e he => ht.2 e (mem_of_mem_lastElems he)⟩
  cases σ with
  | insensitive => exact allows_nil
  | callSite k | object k | type k => exact hlast k

end Sensitivity

namespace Solver

section Fits

variable (p : Program) (σ : Sensitivity)

/-- An object exists. -/
def ObjFits (o : ObjName) : Prop :=
  σ.Allows p o.context ∧ ∃ type, p.Allocates o.site type

/-- A location exists. -/
def PointerFits : PointerName → Prop
  | .var t v => σ.Allows p t ∧ p.vars.Has v
  | .staticField f => p.fields.Has f
  | .instanceField o f => ObjFits p σ o ∧ p.fields.Has f
  | .arrayElems o => ObjFits p σ o

/-- What a fact speaks of exists. -/
def Fits : Fact → Prop
  | .context t => σ.Allows p t
  | .object o => ObjFits p σ o
  | .pointer x => PointerFits p σ x
  | .reaches t m => σ.Allows p t ∧ p.methods.Has m
  | .calls kind t s t' m =>
    σ.Allows p t ∧ σ.Allows p t' ∧ p.methods.Has m ∧
      ∃ call, p.stmtAt s = .ok (.invoke call) ∧ call.kind = kind
  | .flows x y => PointerFits p σ x ∧ PointerFits p σ y
  | .refers x o => PointerFits p σ x ∧ ObjFits p σ o

end Fits

variable {p : Program} {σ : Sensitivity}

theorem has_of_allocates {s : StmtId} {type : RefType} (h : p.Allocates s type) :
    p.stmts.Has s :=
  h.elim fun _ h => Program.has_of_stmtAt h

section WellFormed

variable (wf : p.WellFormed)
include wf

/-- The class of an allocated object exists. -/
theorem has_base_of_allocates {s : StmtId} {type : RefType} (h : p.Allocates s type) :
    p.classes.Has type.base :=
  h.elim fun _ h => wf.stmt_classes h (List.mem_singleton_self _)

theorem has_of_writtenIn {s : StmtId} {c : ClassId} (h : p.WrittenIn s c) : p.classes.Has c := by
  obtain ⟨site, decl, -, hd, rfl⟩ := h
  exact wf.owner hd

/-- The field an access names exists. -/
theorem has_of_resolveFieldAs {b : Bool} {r : FieldRef} {f : FieldId} (hr : p.classes.Has r.cls)
    (h : resolveFieldAs p b r = .ok f) : p.fields.Has f := by
  -- a reference to a class that exists is resolved to a field that exists, or it is refused
  rcases wf.resolveFieldAs_cases b hr with ⟨f', hf', hh⟩ | ⟨e, he⟩
  · rw [h] at hf'
    exact Except.ok.inj hf' ▸ hh
  · rw [h] at he
    cases he

/-- What a statement contributes by itself speaks of things that exist. -/
theorem fits_of_visit {t : ContextName} {s : StmtId} {stmt : Stmt} {f : Fact}
    (ht : σ.Allows p t) (hs : p.stmtAt s = .ok stmt) (hf : VisitYields p σ t s stmt f) :
    Fits p σ f := by
  have hv : ∀ v ∈ stmt.vars, p.vars.Has v := fun v => wf.stmt_vars hs
  have hc : ∀ c ∈ stmt.classRefs, p.classes.Has c := fun c => wf.stmt_classes hs
  cases hf with
  | alloc =>
    exact ⟨⟨ht, hv _ (by simp [Stmt.vars, Stmt.defined])⟩, Sensitivity.allows_heapName ht, _, _, hs⟩
  | copy =>
    exact ⟨⟨ht, hv _ (by simp [Stmt.vars, Stmt.uses])⟩,
      ⟨ht, hv _ (by simp [Stmt.vars, Stmt.defined])⟩⟩
  | load hf =>
    exact ⟨has_of_resolveFieldAs wf (hc _ (List.mem_singleton_self _)) hf,
      ⟨ht, hv _ (by simp [Stmt.vars, Stmt.defined])⟩⟩
  | store hf =>
    exact ⟨⟨ht, hv _ (by simp [Stmt.vars, Stmt.uses])⟩,
      has_of_resolveFieldAs wf (hc _ (List.mem_singleton_self _)) hf⟩
  | call _ _ hd _ =>
    exact ⟨ht, Sensitivity.allows_staticName ht (Program.has_of_stmtAt hs),
      Program.has_of_methodAt hd, _, hs, rfl⟩

/-- What a statement contributes for an object speaks of things that exist. -/
theorem fits_of_dereference {t : ContextName} {v : VarId} {o : ObjName} {s : StmtId} {stmt : Stmt}
    {f : Fact} (ht : σ.Allows p t) (ho : ObjFits p σ o) (hs : p.stmtAt s = .ok stmt)
    (hb : stmt.base? = some v) (hf : DereferenceYields p σ t o s stmt f) : Fits p σ f := by
  have hv : ∀ v ∈ stmt.vars, p.vars.Has v := fun v => wf.stmt_vars hs
  have hc : ∀ c ∈ stmt.classRefs, p.classes.Has c := fun c => wf.stmt_classes hs
  -- a callee runs under a context made of allowed elements
  have hcontext : ∀ {c : ClassId}, p.WrittenIn o.site c →
      σ.Allows p (σ.instanceName t s o c) := fun hw =>
    Sensitivity.allows_instanceName ht (Program.has_of_stmtAt hs) ho.1
      (ho.2.elim fun _ h => has_of_allocates h) (has_of_writtenIn wf hw)
  cases hf with
  | store hf =>
    exact ⟨⟨ht, hv _ (by simp [Stmt.vars, Stmt.uses])⟩, ho,
      has_of_resolveFieldAs wf (hc _ (List.mem_singleton_self _)) hf⟩
  | load hf =>
    exact ⟨⟨ho, has_of_resolveFieldAs wf (hc _ (List.mem_singleton_self _)) hf⟩,
      ⟨ht, hv _ (by simp [Stmt.vars, Stmt.defined])⟩⟩
  | storeArray => exact ⟨⟨ht, hv _ (by simp [Stmt.vars, Stmt.uses])⟩, ho⟩
  | loadArray => exact ⟨ho, ⟨ht, hv _ (by simp [Stmt.vars, Stmt.defined])⟩⟩
  | self _ hw _ hd _ hthis =>
    -- `this` is a variable of the body
    obtain ⟨body, hb, hself⟩ := Option.bind_eq_some_iff.1 hthis
    exact ⟨⟨hcontext hw, wf.body_vars hd hb (by simp [Body.vars, hself])⟩, ho⟩
  | call _ hw _ hd _ =>
    exact ⟨ht, hcontext hw, Program.has_of_methodAt hd, _, hs, rfl⟩

/-- What an edge from a call to a method contributes speaks of things that exist. -/
theorem fits_of_link {t t' : ContextName} {s : StmtId} {m : MethodId} {call : Invoke} {f : Fact}
    (ht : σ.Allows p t) (ht' : σ.Allows p t') (hm : p.methods.Has m)
    (hs : p.stmtAt s = .ok (.invoke call)) (hf : LinkYields p call t t' m f) : Fits p σ f := by
  have hv : ∀ v ∈ (Stmt.invoke call).vars, p.vars.Has v := fun v => wf.stmt_vars hs
  cases hf with
  | callee => exact ⟨ht', hm⟩
  | arg hd hb _ hz =>
    -- the argument is a variable of the call, the parameter one of the body
    obtain ⟨ha, hp⟩ := List.of_mem_zip hz
    exact ⟨⟨ht, hv _ (by simp [Stmt.vars, Stmt.uses, ha])⟩,
      ⟨ht', wf.body_vars hd hb (by simp [Body.vars, hp])⟩⟩
  | result hd hb _ hr hret =>
    exact ⟨⟨ht', wf.body_vars hd hb (by simp [Body.vars, hret])⟩,
      ⟨ht, hv _ (by simp [Stmt.vars, Stmt.defined, hr])⟩⟩
  | resultPointer _ _ _ hr => exact ⟨ht, hv _ (by simp [Stmt.vars, Stmt.defined, hr])⟩

/-- What fits has consequences that fit. -/
theorem fits_closed : Closed p σ (Fits p σ) := by
  intro f hf
  cases hf with
  | entry => exact ⟨Sensitivity.allows_nil, wf.entry⟩
  | visit hm hs hf =>
    obtain ⟨_, _, _, _, _, hs⟩ := hs
    exact fits_of_visit wf hm.1 hs hf
  | dereference hv hs hb hf => exact fits_of_dereference wf hv.1.1 hv.2 hs hb hf
  | link hc hs hf => exact fits_of_link wf hc.1 hc.2.1 hc.2.2.1 hs hf
  | propagate hxy ho => exact ⟨hxy.2, ho.2⟩
  | source hxy => exact hxy.1
  | target hxy => exact hxy.2
  | holder ho => exact ho.1
  | referent ho => exact ho.2
  | heapContext ho => exact ho.1
  | methodContext hm => exact hm.1

/-- All facts of the least closed set speak of things that exist. -/
theorem Least.fits {f : Fact} (hf : Least p σ f) : Fits p σ f := hf.le (fits_closed wf)

end WellFormed

end Solver

end PointerAnalysis
