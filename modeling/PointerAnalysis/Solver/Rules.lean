import PointerAnalysis.Hierarchy.Lookup
import PointerAnalysis.Solver.State

/-!
# The rules of the analysis

What a statement adds to the state of a run.

Allocations, copies, accesses to static fields and static calls do not depend on any object: they
take effect once for every context in which their method is reachable.  All other accesses and
calls follow the reference in a variable: they are looked at for every object the variable turns
out to refer to.
-/

namespace PointerAnalysis.Solver

/-! ## Fields -/

/-- The field a reference names, which has to be static, or an instance field, as the access
demands. -/
def resolveFieldAs (p : Program) (isStatic : Bool) (r : FieldRef) : Outcome FieldId := do
  let f ← p.resolveField r
  if (← p.fieldAt f).isStatic = isStatic then
    return f
  else if isStatic then
    .defect (.staticAccessOfInstance (← p.fieldName f))
  else
    .defect (.instanceAccessOfStatic (← p.fieldName f))

/-! ## Calls -/

/-- The method a call runs, if it is known and has or could have code.  Kinds with dynamic dispatch
look at the type of the receiver. -/
def targetOf (p : Program) (call : Invoke) (receiver : Option RefType) :
    Outcome (Option MethodId) := do
  let target ← match call.kind, receiver with
    | .static, _ | .special, _ => p.resolveMethod call.methodRef
    | .virtual, some type | .interface, some type =>
      p.dispatchOnType type call.methodRef.subsignature
    | .virtual, none | .interface, none | .dynamic, _ => pure none
  return target.filter p.isConcrete

/-- Lets arguments flow into parameters and returned references into the result of a call.  A
callee without a body takes and returns nothing. -/
def wire (p : Program) (call : Invoke) (site : Qualified StmtId) (callee : Qualified MethodId) :
    SolverM Unit := do
  if let some body := (← p.methodAt callee.entity).body then
    if call.args.length ≠ body.params.length then
      let signature ← p.methodSignature callee.entity
      throw (.error (.arityMismatch signature call.args.length body.params.length))
    (call.args.zip body.params).forM fun (arg, param) =>
      flowBetween (.var site.context arg) (.var callee.context param)
    if let some result := call.result then
      let target ← internPointer (.var site.context result)
      body.returned.forM fun v => do
        let source ← internPointer (.var callee.context v)
        addFlow source target

/-- Records a call; the first one from a site to a callee makes the callee reachable and wires
the two. -/
def connect (p : Program) (call : Invoke) (site : Qualified StmtId)
    (callee : Qualified MethodId) : SolverM Unit := do
  let calleeId ← internMethod callee
  let siteId ← internSite site
  if ← addCall ⟨call.kind, siteId, calleeId⟩ then
    reach calleeId
    wire p call site callee

/-- A call without a receiver, in a method under the context `c`. -/
def callStatically (p : Program) (σ : Sensitivity) (c : ContextId) (s : StmtId) (call : Invoke) :
    SolverM Unit := do
  if let some m ← targetOf p call none then
    if !(← p.methodAt m).isStatic then
      throw (.error (.malformed (.staticCallOfInstance s (← p.methodSignature m))))
    let calleeContext ← chooseContext (σ.staticContext · ⟨c, s⟩)
    connect p call ⟨c, s⟩ ⟨calleeContext, m⟩

/-- A call on the object `receiver`, which stands for `q`, in a method under the context `c`.  The
object becomes the `this` of the callee. -/
def callOn (p : Program) (σ : Sensitivity) (c : ContextId) (receiver : QObjId)
    (q : Qualified ObjId) (s : StmtId) (call : Invoke) : SolverM Unit := do
  let obj ← (← get).heap.objAt q.entity
  if let some m ← targetOf p call (some obj.type) then
    let decl ← p.methodAt m
    if decl.isStatic then
      throw (.error (.malformed (.instanceCallOfStatic call.kind s (← p.methodSignature m))))
    let calleeContext ← chooseContext (σ.instanceContext · ⟨c, s⟩ q obj.containerClass)
    if let some self := decl.body.bind Body.self then
      let target ← internPointer (.var calleeContext self)
      deliver target (.singleton receiver)
    connect p call ⟨c, s⟩ ⟨calleeContext, m⟩

/-! ## Methods -/

/-- What a statement does in a method under the context `c`, whatever its variables refer to. -/
def visitStmt (p : Program) (σ : Sensitivity) (c : ContextId) (s : StmtId) :
    Stmt → SolverM Unit
  | .alloc lhs _ => do
    let o ← objFor p s
    let heapContext ← chooseContext (σ.heapContext · c)
    let q ← internObj ⟨heapContext, o⟩
    let target ← internPointer (.var c lhs)
    deliver target (.singleton q)
  | .copy lhs rhs => flowBetween (.var c rhs) (.var c lhs)
  | .load lhs none field => do
    let f ← resolveFieldAs p true field
    flowBetween (.staticField f) (.var c lhs)
  | .store none field rhs => do
    let f ← resolveFieldAs p true field
    flowBetween (.var c rhs) (.staticField f)
  | .invoke call => if call.kind = .static then callStatically p σ c s call else pure ()
  | .load _ (some _) _ | .store (some _) _ _ | .loadArray _ _ | .storeArray _ _ | .ret _ | .nop =>
    pure ()

/-- Visits a reachable method: each of its statements takes effect. -/
def visitMethod (p : Program) (σ : Sensitivity) (m : QMethodId) : SolverM Unit := do
  let q ← (← get).world.methodAt m
  if let some body := (← p.methodAt q.entity).body then
    body.stmts.forM fun s => do visitStmt p σ q.context s (← p.stmtAt s)

/-! ## Dereferences -/

/-- What an access or a call through a variable does under the context `c`, once the variable
refers to `obj`, which stands for `q`. -/
def dereferenceStmt (p : Program) (σ : Sensitivity) (c : ContextId) (obj : QObjId)
    (q : Qualified ObjId) (s : StmtId) : Stmt → SolverM Unit
  | .store _ field rhs => do
    let f ← resolveFieldAs p false field
    flowBetween (.var c rhs) (.instanceField obj f)
  | .load lhs _ field => do
    let f ← resolveFieldAs p false field
    flowBetween (.instanceField obj f) (.var c lhs)
  | .storeArray _ rhs => flowBetween (.var c rhs) (.arrayElems obj)
  | .loadArray lhs _ => flowBetween (.arrayElems obj) (.var c lhs)
  | .invoke call => callOn p σ c obj q s call
  | .alloc _ _ | .copy _ _ | .ret _ | .nop => pure ()

/-- Looks at everything that dereferences `v`, once it refers to `obj`: field stores, field loads,
array stores, array loads, then calls.  What `obj` stands for is looked up once, also where `v`
has no calls. -/
def dereference (p : Program) (σ : Sensitivity) (c : ContextId) (v : VarId) (obj : QObjId) :
    SolverM Unit := do
  let uses ← p.dereferencesOf v
  let q ← (← get).world.objAt obj
  (uses.fieldStores ++ uses.fieldLoads ++ uses.arrayStores ++ uses.arrayLoads ++ uses.calls).forM
    fun s => do dereferenceStmt p σ c obj q s (← p.stmtAt s)

/-- Processes a delivery.  The objects that are new at a variable are dereferenced one by one,
ascending. -/
def process (p : Program) (σ : Sensitivity) (d : Delivery) : SolverM Unit := do
  let fresh ← absorb d.target d.objs
  if !fresh.isEmpty then
    if let .var c v ← (← get).world.pointerAt d.target then
      fresh.toList.forM (dereference p σ c v)

end PointerAnalysis.Solver
