import PointerAnalysis.Context.Sensitivity
import PointerAnalysis.Proofs.Outcome
import PointerAnalysis.Proofs.Table

/-!
# What a sensitivity prescribes

The elements of the contexts that a sensitivity chooses, written down as sequences.  In a pool of
distinct contexts, to choose is to intern the prescribed sequence: a context that is there is found
again, and a sequence that is new gets a handle.

## Main definitions

- `Sensitivity.staticElems`, `Sensitivity.instanceElems`, `Sensitivity.heapElems`: the prescribed
  sequences.
- `Sensitivity.Shaped`: a sequence of the sort that a sensitivity keeps, of bounded length.

## Main statements

- `staticContext_eq`, `instanceContext_eq`, `heapContext_eq`: choices intern what is prescribed.
- `Shaped.static`, `Shaped.instance`, `Shaped.heap`: what is prescribed has the right shape.
-/

namespace PointerAnalysis

/-! ## Last elements -/

section LastElems

variable {α β : Type} {k n : Nat} {es : List α}

/-- No more than `k` elements are kept. -/
theorem length_lastElems (k : Nat) (es : List α) : (lastElems k es).length ≤ k := by
  simp only [lastElems, List.length_drop]
  omega

theorem mem_of_mem_lastElems {e : α} (h : e ∈ lastElems k es) : e ∈ es := List.mem_of_mem_drop h

@[simp] theorem lastElems_zero (es : List α) : lastElems 0 es = [] := by simp [lastElems]

@[simp] theorem lastElems_nil : lastElems k ([] : List α) = [] := List.drop_nil

/-- A list that is short enough is kept as it is. -/
theorem lastElems_of_length_le (h : es.length ≤ k) : lastElems k es = es := by
  simp [lastElems, Nat.sub_eq_zero_of_le h]

/-- Of the last `n` elements, the last `k` are those of the whole list. -/
theorem lastElems_lastElems (h : k ≤ n) (es : List α) :
    lastElems k (lastElems n es) = lastElems k es := by
  simp only [lastElems, List.drop_drop, List.length_drop]
  congr 1
  omega

/-- An element more makes one element less of the list before it count. -/
theorem lastElems_append_singleton (h : k ≤ n + 1) (es : List α) (e : α) :
    lastElems k (lastElems n es ++ [e]) = lastElems k (es ++ [e]) := by
  -- the last `n` elements and the new one are the last `n + 1`
  have hsuffix : lastElems n es ++ [e] = lastElems (n + 1) (es ++ [e]) := by
    simp only [lastElems, List.length_append, List.length_singleton, Nat.add_sub_add_right]
    rw [List.drop_append_of_le_length (Nat.sub_le _ _)]
  rw [hsuffix, lastElems_lastElems h]

/-- To keep `k` elements after a new one has come, `j` of the old ones are enough. -/
theorem lastElems_append {j : Nat} (hn : k ≤ n) (hj : k ≤ j + 1) (es : List α) (e : α) :
    lastElems k (lastElems n (es ++ [e])) = lastElems k (lastElems j es ++ [e]) := by
  rw [lastElems_lastElems hn, lastElems_append_singleton hj]

/-- To keep one element less is the same before and after. -/
theorem lastElems_pred (h : k ≤ n) (es : List α) :
    lastElems (k - 1) (lastElems (n - 1) es) = lastElems (k - 1) (lastElems k es) := by
  rw [lastElems_lastElems (Nat.sub_le_sub_right h 1), lastElems_lastElems (Nat.sub_le k 1)]

/-- Elements are kept by their positions, whatever they are. -/
theorem map_lastElems (f : α → β) (k : Nat) (es : List α) :
    (lastElems k es).map f = lastElems k (es.map f) := by
  rw [lastElems, lastElems, List.map_drop, List.length_map]

end LastElems

namespace Sensitivity

/-! ## Prescribed sequences -/

/-- The elements for a method that is called without a receiver, at the site `i` in a method under
a context of the elements `es`. -/
def staticElems (σ : Sensitivity) (es : List ContextElem) (i : StmtId) : List ContextElem :=
  match σ with
  | insensitive => []
  | callSite k => lastElems k (es ++ [.site i])
  | object _ | type _ => es

/-- The elements for a method that is called on the object `o`, which has a heap context of the
elements `rs` and which code of the class `allocator` allocated. -/
def instanceElems (σ : Sensitivity) (es : List ContextElem) (i : StmtId) (rs : List ContextElem)
    (o : ObjId) (allocator : ClassId) : List ContextElem :=
  match σ with
  | insensitive => []
  | callSite k => lastElems k (es ++ [.site i])
  | object k => lastElems k (rs ++ [.object o])
  | type k => lastElems k (rs ++ [.cls allocator])

/-- The elements for an object that a method under a context of the elements `es` allocates. -/
def heapElems (σ : Sensitivity) (es : List ContextElem) : List ContextElem :=
  lastElems (σ.depth - 1) es

/-! ## Shape -/

/-- The elements that a sensitivity keeps. -/
def Keeps : Sensitivity → ContextElem → Prop
  | callSite _, .site _ | object _, .object _ | type _, .cls _ => True
  | _, _ => False

/-- At most `n` elements, all of the sort that a sensitivity keeps. -/
def Shaped (σ : Sensitivity) (n : Nat) (es : List ContextElem) : Prop :=
  es.length ≤ n ∧ ∀ e ∈ es, σ.Keeps e

variable {σ : Sensitivity} {n m : Nat} {es rs : List ContextElem}

theorem shaped_nil : σ.Shaped n [] := ⟨Nat.zero_le _, by simp⟩

theorem Shaped.lastElems (h : σ.Shaped n es) (k : Nat) : σ.Shaped k (lastElems k es) :=
  ⟨length_lastElems _ _, fun e he => h.2 e (mem_of_mem_lastElems he)⟩

/-- The last elements of a context and a new one are of the right sort, and no more than `k`. -/
theorem Shaped.lastElems_concat (h : σ.Shaped n es) {e : ContextElem} (he : σ.Keeps e) (k : Nat) :
    σ.Shaped k (PointerAnalysis.lastElems k (es ++ [e])) := by
  refine ⟨length_lastElems _ _, fun e' he' => ?_⟩
  rcases List.mem_append.1 (mem_of_mem_lastElems he') with hmem | hmem
  · exact h.2 e' hmem
  · exact List.mem_singleton.1 hmem ▸ he

/-- What is prescribed for a callee without a receiver has the right shape. -/
theorem Shaped.static (h : σ.Shaped σ.depth es) (i : StmtId) :
    σ.Shaped σ.depth (σ.staticElems es i) := by
  cases σ with
  | insensitive => exact shaped_nil
  | callSite k => exact h.lastElems_concat (e := .site i) trivial k
  | object _ | type _ => exact h

/-- What is prescribed for a callee with a receiver has the right shape. -/
theorem Shaped.instance (h : σ.Shaped n es) (hr : σ.Shaped m rs) (i : StmtId) (o : ObjId)
    (c : ClassId) : σ.Shaped σ.depth (σ.instanceElems es i rs o c) := by
  cases σ with
  | insensitive => exact shaped_nil
  | callSite k => exact h.lastElems_concat (e := .site i) trivial k
  | object k => exact hr.lastElems_concat (e := .object o) trivial k
  | type k => exact hr.lastElems_concat (e := .cls c) trivial k

/-- What is prescribed for an object has the right shape, one element shorter. -/
theorem Shaped.heap (h : σ.Shaped n es) : σ.Shaped (σ.depth - 1) (σ.heapElems es) :=
  h.lastElems _

end Sensitivity

/-! ## Choices -/

namespace ContextPool

section Growth

variable {pool pool' : ContextPool} {c c' : ContextId} {k : Nat}

/-- A pool only ever changes by interning a sequence. -/
theorem append_cases {e : ContextElem} (h : pool.append c e k = .ok (c', pool')) :
    pool' = pool ∨ ∃ es, pool' = (pool.intern es).2 := by
  unfold append at h
  split at h
  · exact Or.inl (Prod.mk.inj (Outcome.pure_eq_ok.1 h)).2.symm
  · obtain ⟨es, -, h⟩ := Outcome.bind_eq_ok.1 h
    exact Or.inr ⟨_, (congrArg Prod.snd (Outcome.pure_eq_ok.1 h)).symm⟩

/-- A pool that is asked for a shorter context interns one sequence at most. -/
theorem truncate_cases (h : pool.truncate c k = .ok (c', pool')) :
    pool' = pool ∨ ∃ es, pool' = (pool.intern es).2 := by
  obtain ⟨es, -, h⟩ := Outcome.bind_eq_ok.1 h
  split at h
  · exact Or.inl (Prod.mk.inj (Outcome.pure_eq_ok.1 h)).2.symm
  · exact Or.inr ⟨_, (congrArg Prod.snd (Outcome.pure_eq_ok.1 h)).symm⟩

end Growth

/-- The pool begins with the empty context alone. -/
theorem get?_initial {c : ContextId} {es : List ContextElem} :
    ({} : ContextPool).table.get? c = some es ↔ c = .empty ∧ es = [] := by
  rw [show ({} : ContextPool).table.get? c = if c = ⟨0⟩ then some [] else none from
    Table.get?_push {} [] c]
  simp [ContextId.empty, eq_comm]

/-- No two handles of the initial pool have the same elements, there being one only. -/
theorem distinct_initial : ({} : ContextPool).table.Distinct := fun _ _ _ h h' =>
  (get?_initial.1 h).1.trans (get?_initial.1 h').1.symm

variable {pool : ContextPool} {c : ContextId} {es : List ContextElem}
  (hd : pool.table.Distinct)
include hd

/-- The sequence of a context in the pool is found again under its handle. -/
theorem intern_eq_of_get? (h : pool.table.get? c = some es) : pool.intern es = (c, pool) := by
  rw [intern, Table.intern_eq_of_get? hd h]

/-- To keep a context is to intern its elements. -/
theorem pure_eq (h : pool.table.get? c = some es) :
    (pure (c, pool) : Outcome _) = .ok (pool.intern es) := by
  rw [intern_eq_of_get? hd h]
  rfl

/-- To append an element is to intern the last `k` elements of the longer sequence. -/
theorem append_eq (hempty : pool.table.get? ContextId.empty = some []) (h : pool.table.get? c = some es)
    (e : ContextElem) (k : Nat) :
    pool.append c e k = .ok (pool.intern (lastElems k (es ++ [e]))) := by
  simp only [append, elems, h, Outcome.ofRow]
  split
  · -- contexts of no elements are not looked up
    rename_i hk
    rw [hk, lastElems_zero]
    exact pure_eq hd hempty
  · rfl

/-- To shorten a context is to intern its last `k` elements. -/
theorem truncate_eq (h : pool.table.get? c = some es) (k : Nat) :
    pool.truncate c k = .ok (pool.intern (lastElems k es)) := by
  simp only [truncate, elems, h, Outcome.ofRow]
  show (if es.length ≤ k then _ else _) = _
  split
  · -- a context that is short enough is kept
    rename_i hle
    rw [lastElems_of_length_le hle]
    exact pure_eq hd h
  · rfl

end ContextPool

namespace Sensitivity

variable (σ : Sensitivity) {pool : ContextPool} {es rs : List ContextElem}
  (hd : pool.table.Distinct) (hempty : pool.table.get? ContextId.empty = some [])
include hd hempty

/-- For a callee without a receiver, the prescribed sequence is interned. -/
theorem staticContext_eq (site : Qualified StmtId)
    (h : pool.table.get? site.context = some es) :
    σ.staticContext pool site = .ok (pool.intern (σ.staticElems es site.entity)) := by
  cases σ with
  | insensitive => exact ContextPool.pure_eq hd hempty
  | callSite k => exact ContextPool.append_eq hd hempty h _ k
  | object _ | type _ => exact ContextPool.pure_eq hd h

/-- For a callee with a receiver, the prescribed sequence is interned. -/
theorem instanceContext_eq (site : Qualified StmtId) {receiver : Qualified ObjId}
    (h : pool.table.get? site.context = some es)
    (hr : pool.table.get? receiver.context = some rs) (allocator : ClassId) :
    σ.instanceContext pool site receiver allocator =
      .ok (pool.intern (σ.instanceElems es site.entity rs receiver.entity allocator)) := by
  cases σ with
  | insensitive => exact ContextPool.pure_eq hd hempty
  | callSite k => exact ContextPool.append_eq hd hempty h _ k
  | object k | type k => exact ContextPool.append_eq hd hempty hr _ k

/-- For an object, the prescribed sequence is interned. -/
theorem heapContext_eq {c : ContextId} (h : pool.table.get? c = some es) :
    σ.heapContext pool c = .ok (pool.intern (σ.heapElems es)) := by
  cases σ with
  | insensitive =>
    -- the depth is zero, so no element is kept
    rw [heapElems, depth, Nat.zero_sub, lastElems_zero]
    exact ContextPool.pure_eq hd hempty
  | callSite k | object k | type k => exact ContextPool.truncate_eq hd h _

end Sensitivity

end PointerAnalysis
