import PointerAnalysis.Proofs.Context.Policy
import PointerAnalysis.Proofs.Program.Bodies
import PointerAnalysis.Proofs.Program.Declarations

/-!
# Renaming statements

Statements are known by their handles, which say nothing but in which order they were appended.  If
all statements of a program are found in another one, under other handles but in the same methods,
then whatever follows from the rules of the first follows from the rules of the second, with the
statements renamed.  No rule asks for the order of statements, nor for the absence of one.

## Main definitions

- `Fact.rename`: a fact with other handles for statements.
- `Program.EmbedsIn`: the statements of a program are statements of another one.

## Main statements

- `Follows.rename`: consequences are renamed along with the facts they follow from.
- `Program.EmbedsIn.least`, `Program.EmbedsIn.fails`: the larger program has the consequences and
  the failures of the smaller one.
-/

namespace PointerAnalysis

/-! ## Renamed names -/

section Rename

variable (φ : StmtId → StmtId)

/-- An element of a context with its statement renamed. -/
def ElemName.rename : ElemName → ElemName
  | site s => site (φ s)
  | object s => object (φ s)
  | cls c => cls c

/-- An object with its statements renamed. -/
def ObjName.rename (o : ObjName) : ObjName := ⟨o.context.map (ElemName.rename φ), φ o.site⟩

/-- A location with its statements renamed. -/
def PointerName.rename : PointerName → PointerName
  | var t v => var (t.map (ElemName.rename φ)) v
  | staticField f => staticField f
  | instanceField o f => instanceField (o.rename φ) f
  | arrayElems o => arrayElems (o.rename φ)

/-- A fact with its statements renamed. -/
def Solver.Fact.rename : Fact → Fact
  | context t => context (t.map (ElemName.rename φ))
  | object o => object (o.rename φ)
  | pointer x => pointer (x.rename φ)
  | reaches t m => reaches (t.map (ElemName.rename φ)) m
  | calls kind t s t' m =>
    calls kind (t.map (ElemName.rename φ)) (φ s) (t'.map (ElemName.rename φ)) m
  | flows x y => flows (x.rename φ) (y.rename φ)
  | refers x o => refers (x.rename φ) (o.rename φ)

end Rename

/-! ### Renaming there and back -/

section Inverse

variable {φ ψ : StmtId → StmtId} (h : Function.LeftInverse ψ φ)
include h

/-- To rename the statement in an element and to rename it back changes nothing, and so for all that
is made of elements. -/
theorem ElemName.rename_leftInverse :
    Function.LeftInverse (ElemName.rename ψ) (ElemName.rename φ) := fun e => by
  cases e <;> simp [rename, h _]

theorem ContextName.rename_leftInverse (t : ContextName) :
    (t.map (ElemName.rename φ)).map (ElemName.rename ψ) = t := by
  simp [Function.comp_def, ElemName.rename_leftInverse h _]

theorem ObjName.rename_leftInverse (o : ObjName) : (o.rename φ).rename ψ = o := by
  simp only [rename, ContextName.rename_leftInverse h, h o.site]

theorem PointerName.rename_leftInverse (x : PointerName) : (x.rename φ).rename ψ = x := by
  cases x <;>
    simp only [rename, ContextName.rename_leftInverse h, ObjName.rename_leftInverse h]

/-- A fact can be read back after its statements are renamed. -/
theorem Solver.Fact.rename_leftInverse (f : Fact) : (f.rename φ).rename ψ = f := by
  cases f <;>
    simp only [rename, ContextName.rename_leftInverse h, ObjName.rename_leftInverse h,
      PointerName.rename_leftInverse h, h _]

end Inverse

/-! ### Choices of contexts -/

namespace Sensitivity

variable (σ : Sensitivity) (φ : StmtId → StmtId)

/-- Contexts are chosen by the order of their elements, not by which statements they are; here for
calls without a receiver. -/
theorem map_staticName (t : ContextName) (s : StmtId) :
    (σ.staticName t s).map (ElemName.rename φ) =
      σ.staticName (t.map (ElemName.rename φ)) (φ s) := by
  cases σ <;> simp [staticName, map_lastElems, ElemName.rename]

/-- The same for calls with a receiver. -/
theorem map_instanceName (t : ContextName) (s : StmtId) (o : ObjName) (c : ClassId) :
    (σ.instanceName t s o c).map (ElemName.rename φ) =
      σ.instanceName (t.map (ElemName.rename φ)) (φ s) (o.rename φ) c := by
  cases σ <;> simp [instanceName, map_lastElems, ElemName.rename, ObjName.rename]

/-- The same for objects. -/
theorem map_heapName (t : ContextName) :
    (σ.heapName t).map (ElemName.rename φ) = σ.heapName (t.map (ElemName.rename φ)) := by
  cases σ <;> simp [heapName, map_lastElems]

end Sensitivity

/-! ## Programs with more statements -/

/-- The statements of `p` are statements of `p'`, in the same methods, under the handles that `φ`
gives them, and the declarations are the same.

Statements of `p` may become one statement, and nothing is asked of variables: those that statements
mention exist in both programs. -/
structure Program.EmbedsIn (p p' : Program) (φ : StmtId → StmtId) : Prop where
  declarations : p'.declarations = p.declarations
  stmts : ∀ s site, p.stmts.get? s = some site → p'.stmts.get? (φ s) = some site

namespace Program.EmbedsIn

variable {p p' : Program} {φ : StmtId → StmtId} (h : p.EmbedsIn p' φ)
include h

/-- A statement is found in the larger program under its new handle. -/
theorem stmtAt {s : StmtId} {stmt : Stmt} (hs : p.stmtAt s = .ok stmt) :
    p'.stmtAt (φ s) = .ok stmt := by
  obtain ⟨site, hsite, rfl⟩ := stmtAt_eq_ok.1 hs
  exact stmtAt_eq_ok.2 ⟨site, h.stmts s site hsite, rfl⟩

theorem allocates {s : StmtId} {type : RefType} (ha : p.Allocates s type) :
    p'.Allocates (φ s) type :=
  ha.imp fun _ hs => h.stmtAt hs

/-- A statement is in a method of the same class in both programs. -/
theorem writtenIn {s : StmtId} {c : ClassId} (hw : p.WrittenIn s c) : p'.WrittenIn (φ s) c := by
  obtain ⟨site, decl, hs, hd, rfl⟩ := hw
  obtain ⟨decl', hd', e⟩ := methodAt_of_declarations h.declarations hd
  exact ⟨site, decl', Outcome.ofRow_eq_ok.2 (h.stmts s site (Outcome.ofRow_eq_ok.1 hs)), hd',
    MethodDecl.owner_of_header e⟩

/-- A method of the same header is static if the other one is. -/
theorem methodAt {m : MethodId} {decl : MethodDecl} (hd : p.methodAt m = .ok decl) :
    ∃ decl', p'.methodAt m = .ok decl' ∧ decl'.isStatic = decl.isStatic ∧
      decl'.body.bind Body.self = decl.body.bind Body.self := by
  obtain ⟨decl', hd', e⟩ := methodAt_of_declarations h.declarations hd
  exact ⟨decl', hd', MethodDecl.isStatic_of_header e, MethodDecl.self_of_header e⟩

/-- A method that has a body has one in the larger program, with the same parameters. -/
theorem bodyAt {m : MethodId} {decl : MethodDecl} {body : Body} (hd : p.methodAt m = .ok decl)
    (hb : decl.body = some body) :
    ∃ decl' body', p'.methodAt m = .ok decl' ∧ decl'.body = some body' ∧
      body'.params = body.params := by
  obtain ⟨decl', hd', e⟩ := methodAt_of_declarations h.declarations hd
  obtain ⟨body', hb', -, hparams⟩ := MethodDecl.exists_body_of_header e hb
  exact ⟨decl', body', hd', hb', hparams⟩

variable (ho : p.Owned) (ho' : p'.Owned)
include ho ho'

/-- A method of the larger program executes the statements that it executes in the smaller one. -/
theorem executes {m : MethodId} {s : StmtId} {stmt : Stmt} (hx : p.Executes m s stmt) :
    p'.Executes m (φ s) stmt := by
  -- bodies may be longer in the larger program, so the method is read off the statement instead
  obtain ⟨howner, hs⟩ := ho.executes_iff.1 hx
  obtain ⟨site, hsite, hm⟩ := ownerOf_eq_ok.1 howner
  exact ho'.executes_iff.2 ⟨ownerOf_eq_ok.2 ⟨site, h.stmts s site hsite, hm⟩, h.stmtAt hs⟩

end Program.EmbedsIn

namespace Solver

open Program

variable {p p' : Program} {σ : Sensitivity} {φ : StmtId → StmtId}

/-! ## What statements contribute -/

section Contributions

variable (h : p.EmbedsIn p' φ)
include h

/-- What a statement contributes by itself it contributes under its new handle. -/
theorem VisitYields.rename {t : ContextName} {s : StmtId} {stmt : Stmt} {f : Fact}
    (hf : VisitYields p σ t s stmt f) :
    VisitYields p' σ (t.map (ElemName.rename φ)) (φ s) stmt (f.rename φ) := by
  have hfield := resolveFieldAs_congr h.declarations
  cases hf with
  | alloc =>
    -- the heap context is chosen after the renaming or before it
    simp only [Fact.rename, PointerName.rename, ObjName.rename, Sensitivity.map_heapName]
    exact .alloc
  | copy => exact .copy
  | load hf => exact .load (hfield ▸ hf)
  | store hf => exact .store (hfield ▸ hf)
  | call hk hm hd hs =>
    obtain ⟨decl', hd', hstatic, -⟩ := h.methodAt hd
    simp only [Fact.rename, Sensitivity.map_staticName]
    exact .call hk (targetOf_congr h.declarations ▸ hm) hd' (hstatic.trans hs)

/-- What a statement contributes for an object it contributes under its new handle, for the renamed
object. -/
theorem DereferenceYields.rename {t : ContextName} {o : ObjName} {s : StmtId} {stmt : Stmt}
    {f : Fact} (hf : DereferenceYields p σ t o s stmt f) :
    DereferenceYields p' σ (t.map (ElemName.rename φ)) (o.rename φ) (φ s) stmt (f.rename φ) := by
  have hfield := resolveFieldAs_congr h.declarations
  have htarget := targetOf_congr h.declarations
  -- fields and targets are found in the declarations, which both programs share
  cases hf with
  | store hf => exact .store (hfield ▸ hf)
  | load hf => exact .load (hfield ▸ hf)
  | storeArray => exact .storeArray
  | loadArray => exact .loadArray
  | self ht hc hm hd hs hv =>
    obtain ⟨decl', hd', hstatic, hself⟩ := h.methodAt hd
    simp only [Fact.rename, PointerName.rename, Sensitivity.map_instanceName]
    exact .self (h.allocates ht) (h.writtenIn hc) (htarget ▸ hm) hd' (hstatic.trans hs)
      (hself.trans hv)
  | call ht hc hm hd hs =>
    obtain ⟨decl', hd', hstatic, -⟩ := h.methodAt hd
    simp only [Fact.rename, Sensitivity.map_instanceName]
    exact .call (h.allocates ht) (h.writtenIn hc) (htarget ▸ hm) hd' (hstatic.trans hs)

variable (hp : p.Built) (hp' : p'.Built)
include hp hp'

/-- A method that returns a variable does so by a statement, which is there in the larger program as
well. -/
theorem LinkYields.rename {call : Invoke} {t t' : ContextName} {m : MethodId} {f : Fact}
    (hf : LinkYields p call t t' m f) :
    LinkYields p' call (t.map (ElemName.rename φ)) (t'.map (ElemName.rename φ)) m
      (f.rename φ) := by
  cases hf with
  | callee => exact .callee
  | arg hd hb hl hv =>
    obtain ⟨decl', body', hd', hb', hparams⟩ := h.bodyAt hd hb
    rw [← hparams] at hl hv
    exact .arg hd' hb' hl hv
  | result hd hb hl hr hv =>
    obtain ⟨decl', body', hd', hb', hparams⟩ := h.bodyAt hd hb
    -- the statement by which the variable is returned
    obtain ⟨s, hs⟩ := (hp.mem_returned_iff hd hb).1 hv
    rw [← hparams] at hl
    exact .result hd' hb' hl hr
      ((hp'.mem_returned_iff hd' hb').2 ⟨φ s, h.executes hp.owned hp'.owned hs⟩)
  | resultPointer hd hb hl hr =>
    obtain ⟨decl', body', hd', hb', hparams⟩ := h.bodyAt hd hb
    rw [← hparams] at hl
    exact .resultPointer hd' hb' hl hr

/-- What follows from facts that are in `G` once they are renamed is renamed to what follows
from `G`. -/
theorem Follows.rename {G : Fact → Prop} {f : Fact}
    (hf : Follows p σ (fun g => G (g.rename φ)) f) : Follows p' σ G (f.rename φ) := by
  cases hf with
  | entry =>
    rw [← entry_congr h.declarations]
    exact .entry
  | visit hm hs hf => exact .visit hm (h.executes hp.owned hp'.owned hs) (hf.rename h)
  | dereference hv hs hb hf => exact .dereference hv (h.stmtAt hs) hb (hf.rename h)
  | link hc hs hf => exact .link hc (h.stmtAt hs) (hf.rename h hp hp')
  | propagate hxy ho => exact .propagate hxy ho
  | source hxy => exact .source hxy
  | target hxy => exact .target hxy
  | holder ho => exact .holder ho
  | referent ho => exact .referent ho
  | heapContext ho => exact .heapContext ho
  | methodContext hm => exact .methodContext hm

end Contributions

/-! ## Statements that fail -/

section Failures

variable (h : p.EmbedsIn p' φ)
include h

/-- A statement that fails by itself fails under its new handle. -/
theorem VisitFails.rename {s : StmtId} {stmt : Stmt} {e : AnalysisError}
    (he : VisitFails p s stmt e) : ∃ e', VisitFails p' (φ s) stmt e' := by
  have hfield := resolveFieldAs_congr h.declarations
  cases he with
  | load he => exact ⟨_, .load (hfield ▸ he)⟩
  | store he => exact ⟨_, .store (hfield ▸ he)⟩
  | call hk hm hd hs he =>
    obtain ⟨decl', hd', hstatic, -⟩ := h.methodAt hd
    exact ⟨_, .call hk (targetOf_congr h.declarations ▸ hm) hd' (hstatic.trans hs)
      (methodSignature_congr h.declarations ▸ he)⟩

/-- A statement that fails for an object fails for the renamed one. -/
theorem DereferenceFails.rename {o : ObjName} {s : StmtId} {stmt : Stmt} {e : AnalysisError}
    (he : DereferenceFails p o s stmt e) : ∃ e', DereferenceFails p' (o.rename φ) (φ s) stmt e' := by
  have hfield := resolveFieldAs_congr h.declarations
  cases he with
  | store he => exact ⟨_, .store (hfield ▸ he)⟩
  | load he => exact ⟨_, .load (hfield ▸ he)⟩
  | call ht hm hd hs he =>
    obtain ⟨decl', hd', hstatic, -⟩ := h.methodAt hd
    exact ⟨_, .call (h.allocates ht) (targetOf_congr h.declarations ▸ hm) hd' (hstatic.trans hs)
      (methodSignature_congr h.declarations ▸ he)⟩

/-- A call with the wrong number of arguments has it in the larger program, too. -/
theorem LinkFails.rename {call : Invoke} {m : MethodId} {e : AnalysisError}
    (he : LinkFails p call m e) : ∃ e', LinkFails p' call m e' := by
  cases he with
  | arity hd hb hl he =>
    obtain ⟨decl', body', hd', hb', hparams⟩ := h.bodyAt hd hb
    rw [← hparams] at hl
    exact ⟨_, .arity hd' hb' hl (methodSignature_congr h.declarations ▸ he)⟩

/-- A failure among renamed facts is one in the larger program; the error may show another handle.
-/
theorem Fails.rename (ho : p.Owned) (ho' : p'.Owned) {G : Fact → Prop} {e : AnalysisError}
    (he : Fails p (fun g => G (g.rename φ)) e) : ∃ e', Fails p' G e' := by
  cases he with
  | visit hm hs he => exact (he.rename h).imp fun _ => .visit hm (h.executes ho ho' hs)
  | dereference hv hs hb he => exact (he.rename h).imp fun _ => .dereference hv (h.stmtAt hs) hb
  | link hc hs he => exact (he.rename h).imp fun _ => .link hc (h.stmtAt hs)

end Failures

end Solver

/-! ## The least facts -/

namespace Program.EmbedsIn

open Solver

variable {p p' : Program} {σ : Sensitivity} {φ : StmtId → StmtId} (h : p.EmbedsIn p' φ)
  (hp : p.Built) (hp' : p'.Built)
include h hp hp'

/-- What follows in the smaller program follows in the larger one. -/
theorem least {f : Fact} (hf : Least p σ f) : Least p' σ (f.rename φ) :=
  hf.le fun _ hf => least_closed _ (hf.rename h hp hp')

/-- If a statement fails in the smaller program then one fails in the larger program. -/
theorem fails {e : AnalysisError} (he : Fails p (Least p σ) e) :
    ∃ e', Fails p' (Least p' σ) e' :=
  (he.mono fun _ hf => h.least hp hp' hf).rename h hp.owned hp'.owned

end Program.EmbedsIn

end PointerAnalysis
