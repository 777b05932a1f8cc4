import PointerAnalysis.Solver.Rules
import PointerAnalysis.Proofs.Names

/-!
# Inclusion rules

The facts an analysis is after, and the rules by which one follows from others.  Rules speak of
names, so they know neither handles nor the order in which a run meets things.

A statement that can not be carried out (an access to a field that does not exist, a call of a
method of the wrong sort) contributes nothing, and a call whose arguments do not fit contributes
its edge only.  `Fails` says when a set of facts contains such a statement.

## Main definitions

- `Fact`: what is reachable, called, referred to, and which references flow where.
- `Follows`: a fact follows from a set of facts by one rule.
- `Closed`, `Least`: the sets closed under the rules, and the least of them.
- `Fails`: a set of facts reaches a statement that can not be carried out.

## Main statements

- `least_closed`, `Least.le`: there is a least closed set.
- `Follows.mono`, `Fails.mono`: more facts have more consequences.
-/

namespace PointerAnalysis

/-! ## Statements -/

namespace Stmt

/-- The variable whose reference a statement follows. -/
def base? : Stmt → Option VarId
  | load _ base _ | store base _ _ => base
  | loadArray _ base | storeArray base _ => some base
  | invoke call => call.receiver
  | alloc _ _ | copy _ _ | ret _ | nop => none

end Stmt

namespace Program

/-- A method has a body with the statement `s`, which is `stmt`. -/
def Executes (p : Program) (m : MethodId) (s : StmtId) (stmt : Stmt) : Prop :=
  ∃ decl body, p.methodAt m = .ok decl ∧ decl.body = some body ∧ s ∈ body.stmts ∧
    p.stmtAt s = .ok stmt

/-- A statement allocates objects of a type. -/
def Allocates (p : Program) (s : StmtId) (type : RefType) : Prop :=
  ∃ lhs, p.stmtAt s = .ok (.alloc lhs type)

/-- A statement is part of the code of a class. -/
def WrittenIn (p : Program) (s : StmtId) (c : ClassId) : Prop :=
  ∃ site decl, p.siteAt s = .ok site ∧ p.methodAt site.method = .ok decl ∧ decl.owner = c

end Program

/-! ## Contexts by name -/

namespace Sensitivity

/-- The context of a method that is called without a receiver. -/
def staticName (σ : Sensitivity) (t : ContextName) (s : StmtId) : ContextName :=
  match σ with
  | insensitive => []
  | callSite k => lastElems k (t ++ [.site s])
  | object _ | type _ => t

/-- The context of a method that is called on an object, which code of the class `allocator`
allocated. -/
def instanceName (σ : Sensitivity) (t : ContextName) (s : StmtId) (receiver : ObjName)
    (allocator : ClassId) : ContextName :=
  match σ with
  | insensitive => []
  | callSite k => lastElems k (t ++ [.site s])
  | object k => lastElems k (receiver.context ++ [.object receiver.site])
  | type k => lastElems k (receiver.context ++ [.cls allocator])

/-- The context of an object that a method under the context `t` allocates. -/
def heapName (σ : Sensitivity) (t : ContextName) : ContextName :=
  match σ with
  | insensitive => []
  | callSite k | object k | type k => lastElems (k - 1) t

end Sensitivity

namespace Solver

/-! ## Facts -/

/-- What an analysis may find out about a program. -/
inductive Fact where
  /-- The context is in use. -/
  | context (t : ContextName)
  /-- The object exists. -/
  | object (o : ObjName)
  /-- The location is in use. -/
  | pointer (x : PointerName)
  /-- The method can run under the context. -/
  | reaches (t : ContextName) (m : MethodId)
  /-- The call `s` under the context `t` can run the method `m` under the context `t'`. -/
  | calls (kind : CallKind) (t : ContextName) (s : StmtId) (t' : ContextName) (m : MethodId)
  /-- Whatever `x` refers to, `y` may refer to as well. -/
  | flows (x y : PointerName)
  /-- The location may refer to the object. -/
  | refers (x : PointerName) (o : ObjName)

/-! ## What statements contribute -/

section Contributions

variable (p : Program) (σ : Sensitivity)

/-- What a statement of a method contributes as soon as the method is reachable under `t`. -/
inductive VisitYields (t : ContextName) (s : StmtId) : Stmt → Fact → Prop where
  | alloc {lhs : VarId} {type : RefType} :
      VisitYields t s (.alloc lhs type) (.refers (.var t lhs) ⟨σ.heapName t, s⟩)
  | copy {lhs rhs : VarId} :
      VisitYields t s (.copy lhs rhs) (.flows (.var t rhs) (.var t lhs))
  | load {lhs : VarId} {r : FieldRef} {f : FieldId} (hf : resolveFieldAs p true r = .ok f) :
      VisitYields t s (.load lhs none r) (.flows (.staticField f) (.var t lhs))
  | store {r : FieldRef} {rhs : VarId} {f : FieldId} (hf : resolveFieldAs p true r = .ok f) :
      VisitYields t s (.store none r rhs) (.flows (.var t rhs) (.staticField f))
  | call {call : Invoke} {m : MethodId} {decl : MethodDecl} (hk : call.kind = .static)
      (hm : targetOf p call none = .ok (some m)) (hd : p.methodAt m = .ok decl)
      (hs : decl.isStatic = true) :
      VisitYields t s (.invoke call) (.calls call.kind t s (σ.staticName t s) m)

/-- What a statement contributes as soon as the variable it follows refers to `o` under `t`. -/
inductive DereferenceYields (t : ContextName) (o : ObjName) (s : StmtId) : Stmt → Fact → Prop where
  | store {base : Option VarId} {r : FieldRef} {rhs : VarId} {f : FieldId}
      (hf : resolveFieldAs p false r = .ok f) :
      DereferenceYields t o s (.store base r rhs) (.flows (.var t rhs) (.instanceField o f))
  | load {lhs : VarId} {base : Option VarId} {r : FieldRef} {f : FieldId}
      (hf : resolveFieldAs p false r = .ok f) :
      DereferenceYields t o s (.load lhs base r) (.flows (.instanceField o f) (.var t lhs))
  | storeArray {base rhs : VarId} :
      DereferenceYields t o s (.storeArray base rhs) (.flows (.var t rhs) (.arrayElems o))
  | loadArray {lhs base : VarId} :
      DereferenceYields t o s (.loadArray lhs base) (.flows (.arrayElems o) (.var t lhs))
  | self {call : Invoke} {type : RefType} {c : ClassId} {m : MethodId} {decl : MethodDecl}
      {v : VarId} (ht : p.Allocates o.site type) (hc : p.WrittenIn o.site c)
      (hm : targetOf p call (some type) = .ok (some m)) (hd : p.methodAt m = .ok decl)
      (hs : decl.isStatic = false) (hv : decl.body.bind Body.self = some v) :
      DereferenceYields t o s (.invoke call) (.refers (.var (σ.instanceName t s o c) v) o)
  | call {call : Invoke} {type : RefType} {c : ClassId} {m : MethodId} {decl : MethodDecl}
      (ht : p.Allocates o.site type) (hc : p.WrittenIn o.site c)
      (hm : targetOf p call (some type) = .ok (some m)) (hd : p.methodAt m = .ok decl)
      (hs : decl.isStatic = false) :
      DereferenceYields t o s (.invoke call) (.calls call.kind t s (σ.instanceName t s o c) m)

/-- What an edge from a call under `t` to the method `m` under `t'` contributes. -/
inductive LinkYields (call : Invoke) (t t' : ContextName) (m : MethodId) : Fact → Prop where
  | callee : LinkYields call t t' m (.reaches t' m)
  | arg {decl : MethodDecl} {body : Body} {a v : VarId} (hd : p.methodAt m = .ok decl)
      (hb : decl.body = some body) (hl : call.args.length = body.params.length)
      (hv : (a, v) ∈ call.args.zip body.params) :
      LinkYields call t t' m (.flows (.var t a) (.var t' v))
  | result {decl : MethodDecl} {body : Body} {r v : VarId} (hd : p.methodAt m = .ok decl)
      (hb : decl.body = some body) (hl : call.args.length = body.params.length)
      (hr : call.result = some r) (hv : v ∈ body.returned) :
      LinkYields call t t' m (.flows (.var t' v) (.var t r))
  | resultPointer {decl : MethodDecl} {body : Body} {r : VarId} (hd : p.methodAt m = .ok decl)
      (hb : decl.body = some body) (hl : call.args.length = body.params.length)
      (hr : call.result = some r) :
      LinkYields call t t' m (.pointer (.var t r))

/-! ## Rules -/

/-- A fact follows from the facts `F` by one rule. -/
inductive Follows (F : Fact → Prop) : Fact → Prop where
  | entry : Follows F (.reaches [] p.entry)
  | visit {t : ContextName} {m : MethodId} {s : StmtId} {stmt : Stmt} {f : Fact}
      (hm : F (.reaches t m)) (hs : p.Executes m s stmt) (hf : VisitYields p σ t s stmt f) :
      Follows F f
  | dereference {t : ContextName} {v : VarId} {o : ObjName} {s : StmtId} {stmt : Stmt} {f : Fact}
      (hv : F (.refers (.var t v) o)) (hs : p.stmtAt s = .ok stmt) (hb : stmt.base? = some v)
      (hf : DereferenceYields p σ t o s stmt f) : Follows F f
  | link {kind : CallKind} {t t' : ContextName} {s : StmtId} {m : MethodId} {call : Invoke}
      {f : Fact} (hc : F (.calls kind t s t' m)) (hs : p.stmtAt s = .ok (.invoke call))
      (hf : LinkYields p call t t' m f) : Follows F f
  | propagate {x y : PointerName} {o : ObjName} (hxy : F (.flows x y)) (ho : F (.refers x o)) :
      Follows F (.refers y o)
  /-- What a fact mentions is in use. -/
  | source {x y : PointerName} (hxy : F (.flows x y)) : Follows F (.pointer x)
  | target {x y : PointerName} (hxy : F (.flows x y)) : Follows F (.pointer y)
  | holder {x : PointerName} {o : ObjName} (ho : F (.refers x o)) : Follows F (.pointer x)
  | referent {x : PointerName} {o : ObjName} (ho : F (.refers x o)) : Follows F (.object o)
  | heapContext {o : ObjName} (ho : F (.object o)) : Follows F (.context o.context)
  | methodContext {t : ContextName} {m : MethodId} (hm : F (.reaches t m)) :
      Follows F (.context t)

/-- Facts that contain all their consequences. -/
def Closed (F : Fact → Prop) : Prop := ∀ f, Follows p σ F f → F f

/-- The facts that every closed set contains. -/
def Least (f : Fact) : Prop := ∀ F, Closed p σ F → F f

/-! ## Statements that can not be carried out -/

/-- A statement of a reachable method that ends the analysis with an error. -/
inductive VisitFails (s : StmtId) : Stmt → AnalysisError → Prop where
  | load {lhs : VarId} {r : FieldRef} {e : AnalysisError}
      (he : resolveFieldAs p true r = .error (.error e)) : VisitFails s (.load lhs none r) e
  | store {r : FieldRef} {rhs : VarId} {e : AnalysisError}
      (he : resolveFieldAs p true r = .error (.error e)) : VisitFails s (.store none r rhs) e
  | call {call : Invoke} {m : MethodId} {decl : MethodDecl} {signature : String}
      (hk : call.kind = .static) (hm : targetOf p call none = .ok (some m))
      (hd : p.methodAt m = .ok decl) (hs : decl.isStatic = false)
      (he : p.methodSignature m = .ok signature) :
      VisitFails s (.invoke call) (.malformed (.staticCallOfInstance s signature))

/-- A statement that ends the analysis with an error when the variable it follows refers to
`o`. -/
inductive DereferenceFails (o : ObjName) (s : StmtId) : Stmt → AnalysisError → Prop where
  | store {base : Option VarId} {r : FieldRef} {rhs : VarId} {e : AnalysisError}
      (he : resolveFieldAs p false r = .error (.error e)) :
      DereferenceFails o s (.store base r rhs) e
  | load {lhs : VarId} {base : Option VarId} {r : FieldRef} {e : AnalysisError}
      (he : resolveFieldAs p false r = .error (.error e)) :
      DereferenceFails o s (.load lhs base r) e
  | call {call : Invoke} {type : RefType} {m : MethodId} {decl : MethodDecl} {signature : String}
      (ht : p.Allocates o.site type) (hm : targetOf p call (some type) = .ok (some m))
      (hd : p.methodAt m = .ok decl) (hs : decl.isStatic = true)
      (he : p.methodSignature m = .ok signature) :
      DereferenceFails o s (.invoke call)
        (.malformed (.instanceCallOfStatic call.kind s signature))

/-- A call of a method with another number of parameters. -/
inductive LinkFails (call : Invoke) (m : MethodId) : AnalysisError → Prop where
  | arity {decl : MethodDecl} {body : Body} {signature : String} (hd : p.methodAt m = .ok decl)
      (hb : decl.body = some body) (hl : call.args.length ≠ body.params.length)
      (he : p.methodSignature m = .ok signature) :
      LinkFails call m (.arityMismatch signature call.args.length body.params.length)

/-- The facts `F` reach a statement that ends the analysis with an error. -/
inductive Fails (F : Fact → Prop) : AnalysisError → Prop where
  | visit {t : ContextName} {m : MethodId} {s : StmtId} {stmt : Stmt} {e : AnalysisError}
      (hm : F (.reaches t m)) (hs : p.Executes m s stmt) (he : VisitFails p s stmt e) : Fails F e
  | dereference {t : ContextName} {v : VarId} {o : ObjName} {s : StmtId} {stmt : Stmt}
      {e : AnalysisError} (hv : F (.refers (.var t v) o)) (hs : p.stmtAt s = .ok stmt)
      (hb : stmt.base? = some v) (he : DereferenceFails p o s stmt e) : Fails F e
  | link {kind : CallKind} {t t' : ContextName} {s : StmtId} {m : MethodId} {call : Invoke}
      {e : AnalysisError} (hc : F (.calls kind t s t' m)) (hs : p.stmtAt s = .ok (.invoke call))
      (he : LinkFails p call m e) : Fails F e

end Contributions

/-! ## The least closed set -/

section Least

variable {p : Program} {σ : Sensitivity} {F G : Fact → Prop}

/-- A rule asks that some facts are there, never that one is missing. -/
theorem Follows.mono (h : ∀ f, F f → G f) {f : Fact} (hf : Follows p σ F f) : Follows p σ G f := by
  cases hf with
  | entry => exact .entry
  | visit hm hs hf => exact .visit (h _ hm) hs hf
  | dereference hv hs hb hf => exact .dereference (h _ hv) hs hb hf
  | link hc hs hf => exact .link (h _ hc) hs hf
  | propagate hxy ho => exact .propagate (h _ hxy) (h _ ho)
  | source hxy => exact .source (h _ hxy)
  | target hxy => exact .target (h _ hxy)
  | holder ho => exact .holder (h _ ho)
  | referent ho => exact .referent (h _ ho)
  | heapContext ho => exact .heapContext (h _ ho)
  | methodContext hm => exact .methodContext (h _ hm)

/-- A statement that fails keeps failing when more facts are known. -/
theorem Fails.mono (h : ∀ f, F f → G f) {e : AnalysisError} (he : Fails p F e) : Fails p G e := by
  cases he with
  | visit hm hs he => exact .visit (h _ hm) hs he
  | dereference hv hs hb he => exact .dereference (h _ hv) hs hb he
  | link hc hs he => exact .link (h _ hc) hs he

/-- The least closed set lies in every closed one. -/
theorem Least.le (hF : Closed p σ F) {f : Fact} (hf : Least p σ f) : F f := hf F hF

/-- The least closed set is closed itself, since closed sets may be intersected. -/
theorem least_closed : Closed p σ (Least p σ) := fun _ hf F hF =>
  hF _ (hf.mono fun _ hg => hg F hF)

end Least

end Solver

end PointerAnalysis
