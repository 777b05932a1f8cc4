import PointerAnalysis.Proofs.Context.Policy
import PointerAnalysis.Proofs.Rules

/-!
# Chosen contexts

A sensitivity chooses contexts by handle in a pool.  The handle it answers with has the name that it
chooses by name, so a run and its rules agree about contexts.

## Main statements

- `chooses_staticContext`, `chooses_instanceContext`, `chooses_heapContext`: the chosen context has
  the chosen name.
- `Chooses.eq_of_contextName?`: a context in the pool is chosen by its name.
-/

namespace PointerAnalysis

/-! ## Names of sequences -/

namespace Heap

variable {heap : Heap} {es es' : List ContextElem} {t t' : ContextName}

/-- A name is as long as the sequence that it names. -/
theorem length_elemNames? (h : heap.elemNames? es = some t) : t.length = es.length := by
  induction es generalizing t with
  | nil => cases h; rfl
  | cons e es ih =>
    obtain ⟨n, t', -, ht, rfl⟩ := elemNames?_cons_eq_some.1 h
    rw [List.length_cons, List.length_cons, ih ht]

/-- The name of a longer sequence is made of the names of its parts. -/
theorem elemNames?_append (h : heap.elemNames? es = some t) (h' : heap.elemNames? es' = some t') :
    heap.elemNames? (es ++ es') = some (t ++ t') := by
  induction es generalizing t with
  | nil => cases h; exact h'
  | cons e es ih =>
    obtain ⟨n, t'', hn, ht, rfl⟩ := elemNames?_cons_eq_some.1 h
    exact elemNames?_cons_eq_some.2 ⟨n, _, hn, ih ht, rfl⟩

theorem elemNames?_singleton {e : ContextElem} {n : ElemName} (h : heap.elemName? e = some n) :
    heap.elemNames? [e] = some [n] :=
  elemNames?_cons_eq_some.2 ⟨n, [], h, rfl, rfl⟩

theorem elemNames?_drop (h : heap.elemNames? es = some t) (n : Nat) :
    heap.elemNames? (es.drop n) = some (t.drop n) := by
  -- sequence and name lose their first elements together
  induction es generalizing t n with
  | nil => cases h; simp [elemNames?]
  | cons e es ih =>
    obtain ⟨x, t', -, ht, rfl⟩ := elemNames?_cons_eq_some.1 h
    cases n with
    | zero => exact h
    | succ n => exact ih ht n

/-- To shorten a sequence is to shorten its name. -/
theorem elemNames?_lastElems (h : heap.elemNames? es = some t) (k : Nat) :
    heap.elemNames? (lastElems k es) = some (lastElems k t) := by
  rw [lastElems, lastElems, length_elemNames? h]
  exact elemNames?_drop h _

end Heap

/-! ## Choices -/

/-- In the pool, a choice interns a sequence with the name `t`. -/
def Chooses (heap : Heap) (pool : ContextPool)
    (choice : ContextPool → Outcome (ContextId × ContextPool)) (t : ContextName) : Prop :=
  ∃ es, heap.elemNames? es = some t ∧ choice pool = .ok (pool.intern es)

/-- A context that is in the pool is chosen by its name, and the pool stays as it is. -/
theorem Chooses.eq_of_contextName? {u : Universe} {heap : Heap} (hf : u.Faithful heap)
    {choice : ContextPool → Outcome (ContextId × ContextPool)} {t : ContextName} {c : ContextId}
    (h : Chooses heap u.contexts choice t) (hc : u.contextName? heap c = some t) :
    choice u.contexts = .ok (c, u.contexts) := by
  obtain ⟨es, hes, hchoice⟩ := h
  obtain ⟨es', hget, hes'⟩ := Option.bind_eq_some_iff.1 hc
  -- the sequence that is interned has the name of one that is there, so it is that one
  obtain rfl := hf.elems_inj hes hes'
  rw [hchoice, ContextPool.intern_eq_of_get? hf.contexts hget]

namespace ContextPool

variable {heap : Heap} {pool : ContextPool} {c : ContextId} {t : ContextName}

/-- To keep a context is to choose it. -/
theorem chooses_pure (hd : pool.table.Distinct)
    (hc : (pool.table.get? c).bind heap.elemNames? = some t) :
    Chooses heap pool (fun pool => pure (c, pool)) t := by
  obtain ⟨es, hes, ht⟩ := Option.bind_eq_some_iff.1 hc
  exact ⟨es, ht, pure_eq hd hes⟩

/-- The empty context has the empty name. -/
theorem chooses_empty (hd : pool.table.Distinct)
    (hempty : pool.table.get? ContextId.empty = some []) :
    Chooses heap pool (fun pool => pure (.empty, pool)) [] :=
  chooses_pure hd (by rw [hempty]; rfl)

/-- To append an element and to keep the last `k` of them is the same by handle and by name. -/
theorem chooses_append (hd : pool.table.Distinct)
    (hempty : pool.table.get? ContextId.empty = some [])
    (hc : (pool.table.get? c).bind heap.elemNames? = some t) {e : ContextElem} {n : ElemName}
    (he : heap.elemName? e = some n) (k : Nat) :
    Chooses heap pool (fun pool => pool.append c e k) (lastElems k (t ++ [n])) := by
  obtain ⟨es, hes, ht⟩ := Option.bind_eq_some_iff.1 hc
  exact ⟨lastElems k (es ++ [e]),
    Heap.elemNames?_lastElems (Heap.elemNames?_append ht (Heap.elemNames?_singleton he)) k,
    append_eq hd hempty hes e k⟩

/-- To keep the last `k` elements is the same by handle and by name. -/
theorem chooses_truncate (hd : pool.table.Distinct)
    (hc : (pool.table.get? c).bind heap.elemNames? = some t) (k : Nat) :
    Chooses heap pool (fun pool => pool.truncate c k) (lastElems k t) := by
  obtain ⟨es, hes, ht⟩ := Option.bind_eq_some_iff.1 hc
  exact ⟨lastElems k es, Heap.elemNames?_lastElems ht k, truncate_eq hd hes k⟩

end ContextPool

namespace Sensitivity

variable {σ : Sensitivity} {heap : Heap} {pool : ContextPool} {t : ContextName}
  (hd : pool.table.Distinct) (hempty : pool.table.get? ContextId.empty = some [])
include hd hempty

/-- The context of a callee without a receiver is chosen by name as the rules say. -/
theorem chooses_staticContext (site : Qualified StmtId)
    (hc : (pool.table.get? site.context).bind heap.elemNames? = some t) :
    Chooses heap pool (σ.staticContext · site) (σ.staticName t site.entity) := by
  cases σ with
  | insensitive => exact ContextPool.chooses_empty hd hempty
  | callSite k => exact ContextPool.chooses_append hd hempty hc (e := .site site.entity) rfl k
  | object _ | type _ => exact ContextPool.chooses_pure hd hc

/-- The context of a callee with a receiver is chosen by name as the rules say. -/
theorem chooses_instanceContext (site : Qualified StmtId) {receiver : Qualified ObjId}
    {o : ObjName} {obj : Obj} {allocator : ClassId}
    (hc : (pool.table.get? site.context).bind heap.elemNames? = some t)
    (hr : (pool.table.get? receiver.context).bind heap.elemNames? = some o.context)
    (ho : heap.objects.get? receiver.entity = some obj) (hs : obj.site = o.site) :
    Chooses heap pool (σ.instanceContext · site receiver allocator)
      (σ.instanceName t site.entity o allocator) := by
  cases σ with
  | insensitive => exact ContextPool.chooses_empty hd hempty
  | callSite k => exact ContextPool.chooses_append hd hempty hc (e := .site site.entity) rfl k
  | object k =>
    -- the receiver is an element by its handle; by name it is its allocation statement
    refine ContextPool.chooses_append hd hempty hr (e := .object receiver.entity) ?_ k
    exact Heap.elemName?_eq_object.2 ⟨_, obj, rfl, ho, hs⟩
  | type k => exact ContextPool.chooses_append hd hempty hr (e := .cls allocator) rfl k

/-- The context of an object is chosen by name as the rules say. -/
theorem chooses_heapContext {c : ContextId}
    (hc : (pool.table.get? c).bind heap.elemNames? = some t) :
    Chooses heap pool (σ.heapContext · c) (σ.heapName t) := by
  cases σ with
  | insensitive => exact ContextPool.chooses_empty hd hempty
  | callSite k | object k | type k => exact ContextPool.chooses_truncate hd hc (k - 1)

end Sensitivity

end PointerAnalysis
