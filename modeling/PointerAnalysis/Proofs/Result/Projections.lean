import PointerAnalysis.Proofs.Hierarchy.Targets
import PointerAnalysis.Proofs.Result.Queries

/-!
# Answers without contexts are projections

A result answers the same question in several ways: from its index, from the call graph without
contexts, and from the tables of the run.  All of them agree.  What is answered without a context is
what the tables have under any context, with the contexts left out, also if a budget stopped the run.

## Main definitions

- `Result.CallsAgree`: the index of a result and its call graph without contexts project the calls.
- `Result.RefersAt`: what the tables say of one pointer.
- `Result.ReferencesAgree`: the sets without contexts are unions of those under contexts, over all
  pointers that the run has for a variable.

## Main statements

- `Index.reachable_ofOutput`, `Result.reachable_plainCallGraph`: methods stand in the order in which
  the run found them first, and each once.
- `Readable.exists_callsAgree`, `Readable.referencesAgree`: the answers agree.
- `ofOutput_projects`: the answers of a result are projections of its run.
-/

namespace PointerAnalysis

open Solver

/-! ## The order of qualified entities -/

/-- Qualified entities are ordered by context, then by entity. -/
instance {α : Type} [LT α] [IsStrictTotalOrder α (· < ·)] :
    IsStrictTotalOrder (Qualified α) (· < ·) where
  trichotomous a b hab hba := by
    obtain ⟨c, x⟩ := a
    obtain ⟨d, y⟩ := b
    obtain ⟨hcd, hxy⟩ := not_or.1 hab
    obtain ⟨hdc, hyx⟩ := not_or.1 hba
    obtain rfl : c = d := Std.Trichotomous.trichotomous (r := (· < ·)) c d hcd hdc
    obtain rfl : x = y := Std.Trichotomous.trichotomous (r := (· < ·)) x y
      (fun h => hxy ⟨rfl, h⟩) fun h => hyx ⟨rfl, h⟩
    rfl
  irrefl a h := by
    rcases h with h | ⟨-, h⟩
    · exact irrefl a.context h
    · exact irrefl a.entity h
  trans a b c hab hbc := by
    rcases hab with hab | ⟨eab, hab⟩
    · rcases hbc with hbc | ⟨ebc, -⟩
      · exact Or.inl (trans_of (· < ·) hab hbc)
      · exact Or.inl (ebc ▸ hab)
    · rcases hbc with hbc | ⟨ebc, hbc⟩
      · exact Or.inl (eab ▸ hbc)
      · exact Or.inr ⟨eab.trans ebc, trans_of (· < ·) hab hbc⟩

/-! ## The order of methods -/

section Order

theorem firstOccurrences_eq_foldl {α : Type} [DecidableEq α] (xs : List α) :
    Program.firstOccurrences xs = xs.foldl keepNew [] := rfl

variable {qs : List (Qualified MethodId)}

namespace Index

variable {world : Universe} {index index' : Index}

/-- The pass over the methods keeps each once, where it was first. -/
theorem foldlM_addReachable {hs : List QMethodId} (hqs : hs.mapM world.methodAt = .ok qs)
    (h : hs.foldlM (addReachable world) index = .ok index') :
    index'.reachable = (qs.map Qualified.entity).foldl keepNew index.reachable := by
  have hstep : addReachable world = fun index h => do
      return { index with reachable := keepNew index.reachable (← world.methodAt h).entity } := by
    funext index h
    unfold addReachable keepNew
    refine bind_congr fun q => ?_
    by_cases hq : q.entity ∈ index.reachable
    · simp only [hq, if_true]
    · simp only [hq, if_false]
  rw [hstep, Outcome.foldlM_eq_of_mapM hqs] at h
  obtain rfl := Except.ok.inj h
  rw [List.foldl_map]
  exact (List.foldl_hom Index.reachable fun _ _ => rfl).symm

theorem reachable_addCall {e : CallEdge QSiteId QMethodId} (h : addCall world index e = .ok index') :
    index'.reachable = index.reachable := by
  obtain ⟨_, -, h⟩ := Outcome.bind_eq_ok.1 h
  obtain ⟨_, -, h⟩ := Outcome.bind_eq_ok.1 h
  rw [← Outcome.pure_eq_ok.1 h]

theorem reachable_addPointer {x : PointerId} {key : Pointer}
    (h : addPointer world index x key = .ok index') : index'.reachable = index.reachable := by
  cases key with
  | var c v => rw [← Outcome.pure_eq_ok.1 h]
  | staticField f => rw [← Outcome.pure_eq_ok.1 h]
  | instanceField base f =>
    obtain ⟨_, -, h⟩ := Outcome.bind_eq_ok.1 h
    rw [← Outcome.pure_eq_ok.1 h]
  | arrayElems base =>
    obtain ⟨_, -, h⟩ := Outcome.bind_eq_ok.1 h
    rw [← Outcome.pure_eq_ok.1 h]

/-- An index lists the methods in the order in which the run found them first. -/
theorem reachable_ofOutput {out : Output}
    (hqs : out.calls.reachable.mapM out.world.methodAt = .ok qs)
    (h : ofOutput out = .ok index) :
    index.reachable = Program.firstOccurrences (qs.map Qualified.entity) := by
  obtain ⟨i₁, h₁, h⟩ := Outcome.bind_eq_ok.1 h
  obtain ⟨i₂, h₂, h₃⟩ := Outcome.bind_eq_ok.1 h
  rw [Outcome.foldlM_keeps Index.reachable (fun _ _ _ => reachable_addPointer) h₃,
    Outcome.foldlM_keeps Index.reachable (fun _ _ _ => reachable_addCall) h₂,
    foldlM_addReachable hqs h₁, firstOccurrences_eq_foldl]

end Index

namespace CallGraph

variable {g : CallGraph StmtId MethodId}

theorem reachable_foldl_reach (qs : List (Qualified MethodId)) :
    (qs.foldl (fun g q => (g.reach q.entity).2) g).reachable =
      (qs.map Qualified.entity).foldl keepNew g.reachable := by
  rw [List.foldl_map]
  exact (List.foldl_hom CallGraph.reachable fun g (q : Qualified MethodId) =>
    (reachable_reach g q.entity).symm).symm

end CallGraph

/-- The call graph without contexts has the methods in the same order: the entry, which is made
reachable first, is the first method that the run found. -/
theorem Result.reachable_plainCallGraph {r : Result} {first : QMethodId}
    (hentries : r.output.calls.entries = [first])
    (hfirst : r.output.calls.reachable[0]? = some first)
    (hqs : r.output.calls.reachable.mapM r.output.world.methodAt = .ok qs)
    {g : CallGraph StmtId MethodId} (h : r.plainCallGraph = .ok g) :
    g.reachable = Program.firstOccurrences (qs.map Qualified.entity) := by
  obtain ⟨g₁, h₁, h⟩ := Outcome.bind_eq_ok.1 h
  obtain ⟨g₂, h₂, h₃⟩ := Outcome.bind_eq_ok.1 h
  -- the calls make nothing reachable
  have hedges : g.reachable = g₂.reachable := by
    refine Outcome.foldlM_keeps CallGraph.reachable (fun g e g' h => ?_) h₃
    obtain ⟨_, -, h⟩ := Outcome.bind_eq_ok.1 h
    obtain ⟨_, -, h⟩ := Outcome.bind_eq_ok.1 h
    rw [← Outcome.pure_eq_ok.1 h, CallGraph.reachable_addEdge]
  rw [Outcome.foldlM_eq_of_mapM hqs] at h₂
  rw [hedges, ← Except.ok.inj h₂, CallGraph.reachable_foldl_reach, firstOccurrences_eq_foldl]
  -- the first method is there already when it is met
  cases hreachable : r.output.calls.reachable with
  | nil =>
    rw [hreachable] at hfirst
    cases hfirst
  | cons first' rest =>
    rw [hreachable] at hfirst hqs
    obtain rfl : first' = first := Option.some.inj hfirst
    rw [List.mapM_cons] at hqs
    obtain ⟨q, hq, hqs⟩ := Outcome.bind_eq_ok.1 hqs
    obtain ⟨qs', -, hqs⟩ := Outcome.bind_eq_ok.1 hqs
    obtain rfl := Outcome.pure_eq_ok.1 hqs
    rw [hentries, List.foldlM_cons, hq] at h₁
    rw [← Except.ok.inj h₁, List.map_cons, List.foldl_cons, List.foldl_cons]
    exact congrArg (List.foldl keepNew · (qs'.map Qualified.entity))
      (keepNew_of_mem (List.mem_singleton_self q.entity))

end Order

/-! ## Rows without repetition -/

/-- Handles that are listed once have rows that are listed once, if no value has two handles. -/
theorem Table.Distinct.nodup_of_mapM {k : Kind} {α : Type} {t : Table k α} (ht : t.Distinct)
    {hs : List (Handle k)} (hnodup : hs.Nodup) {rows : List α}
    (h : hs.mapM (fun h => Outcome.ofRow (t.get? h)) = .ok rows) : rows.Nodup := by
  induction hs generalizing rows with
  | nil =>
    obtain rfl := Except.ok.inj h
    exact List.nodup_nil
  | cons h₀ hs ih =>
    obtain ⟨hnew, hnodup⟩ := List.nodup_cons.1 hnodup
    rw [List.mapM_cons] at h
    obtain ⟨a, ha, h⟩ := Outcome.bind_eq_ok.1 h
    obtain ⟨later, hlater, h⟩ := Outcome.bind_eq_ok.1 h
    obtain rfl := Outcome.pure_eq_ok.1 h
    refine List.nodup_cons.2 ⟨fun hmem => ?_, ih hnodup hlater⟩
    obtain ⟨h', hh', ha'⟩ := (Outcome.mem_of_mapM_eq_ok hlater).1 hmem
    exact hnew (ht _ _ a (Outcome.ofRow_eq_ok.1 ha) (Outcome.ofRow_eq_ok.1 ha') ▸ hh')

namespace Result

variable {r : Result}

/-! ## Calls -/

/-- The index of a result and its call graph `g` without contexts both project the calls and the
methods of the run. -/
structure CallsAgree (r : Result) (g : CallGraph StmtId MethodId) : Prop where
  callees : ∀ s, r.calleesOf s = .ofList (g.calleesOf s)
  projected : ∀ s m, m ∈ r.calleesOf s ↔ ∃ e ∈ r.output.calls.edges, ∃ q q',
    r.output.world.siteAt e.site = .ok q ∧ q.entity = s ∧
    r.output.world.methodAt e.callee = .ok q' ∧ q'.entity = m
  reachable : r.index.reachable = g.reachable
  discovered : ∃ qs, r.output.calls.reachable.mapM r.output.world.methodAt = .ok qs ∧
    r.index.reachable = Program.firstOccurrences (qs.map Qualified.entity)
  nodup : r.index.reachable.Nodup
  isReachable : ∀ m, r.isReachable m = true ↔ m ∈ r.index.reachable

theorem Readable.mem_calleesOf (hr : r.Readable) {s : StmtId} {m : MethodId} :
    m ∈ r.calleesOf s ↔ ∃ e ∈ r.output.calls.edges, ∃ c c',
      r.output.world.sites.get? e.site = some ⟨c, s⟩ ∧
        r.output.world.methods.get? e.callee = some ⟨c', m⟩ := by
  rw [calleesOf, AscendingSet.mem_ofList, hr.describes.callees]

/-- The answers about calls agree. -/
theorem Readable.exists_callsAgree (hr : r.Readable) {first : QMethodId}
    (hindex : Index.ofOutput r.output = .ok r.index)
    (hentries : r.output.calls.entries = [first])
    (hfirst : r.output.calls.reachable[0]? = some first) :
    ∃ g, r.plainCallGraph = .ok g ∧ r.CallsAgree g := by
  obtain ⟨g, hg, hindexed, -, hfrom, hto⟩ := hr.exists_projection
  obtain ⟨qs, hqs⟩ := Outcome.exists_mapM (f := r.output.world.methodAt) fun h hh =>
    (Table.exists_get? (hr.legible.reachable h hh)).imp fun _ e => Outcome.ofRow_eq_ok.2 e
  have hreachable := Index.reachable_ofOutput hqs hindex
  refine ⟨g, hg, ?_⟩
  refine
    { callees := fun s => AscendingSet.ofList_congr fun m => ?_
      projected := fun s m => ?_
      reachable := hreachable.trans (reachable_plainCallGraph hentries hfirst hqs hg).symm
      discovered := ⟨qs, hqs, hreachable⟩
      nodup := hreachable ▸ Program.nodup_firstOccurrences _
      isReachable := fun m => decide_eq_true_iff }
  · -- both sets are read from the edges of the run, one through the edges of the projected graph
    rw [hr.describes.callees, hindexed.mem_calleesOf]
    constructor
    · intro h
      obtain ⟨e, he, c, c', hs, hm⟩ := h
      exact (hindexed.pairs _ _).1 (hto e he ⟨e.kind, s, m⟩ ⟨rfl, c, c', hs, hm⟩)
    · intro h
      obtain ⟨e', he', rfl, rfl⟩ := h
      obtain ⟨e, he, -, c, c', hs, hm⟩ := hfrom e' he'
      exact ⟨e, he, c, c', hs, hm⟩
  · rw [hr.mem_calleesOf]
    constructor
    · intro h
      obtain ⟨e, he, c, c', hs, hm⟩ := h
      exact ⟨e, he, _, _, Outcome.ofRow_eq_ok.2 hs, rfl, Outcome.ofRow_eq_ok.2 hm, rfl⟩
    · intro h
      obtain ⟨e, he, ⟨c, s⟩, ⟨c', m⟩, hs, rfl, hm, rfl⟩ := h
      exact ⟨e, he, c, c', Outcome.ofRow_eq_ok.1 hs, Outcome.ofRow_eq_ok.1 hm⟩

/-! ## References -/

/-- A pointer refers to an object according to the tables of a run: the pointer has been met, and in
its set there is the object under some heap context. -/
def RefersAt (r : Result) (x : Pointer) (o : ObjId) : Prop :=
  ∃ h set q key, r.output.world.findPointer? x = some h ∧ r.output.world.setOf h = .ok set ∧
    q ∈ set ∧ r.output.world.objAt q = .ok key ∧ key.entity = o

/-- What a result answers without contexts is the union of what the run has under each.  The
contexts of a variable are those under which it has a pointer, and under each of them it refers to
what that pointer holds, so that no pointer of the variable is left out of the union. -/
structure ReferencesAgree (r : Result) : Prop where
  contextsOf : ∀ v, ∃ cs, r.contextsOf v = .ok cs ∧ cs.Nodup ∧
    ∀ c, c ∈ cs ↔ ∃ h, r.output.world.pointers.get? h = some (.var c v)
  pointsToUnder : ∀ c v, ∃ qs, r.pointsToUnder c v = .ok qs ∧ ∀ q, q ∈ qs ↔
    ∃ h, r.output.world.pointers.get? h = some (.var c v) ∧
      ∃ x, r.output.world.Holds h x ∧ r.output.world.objs.get? x = some q
  pointsTo : ∀ v, ∃ cs os, r.contextsOf v = .ok cs ∧ r.pointsTo v = .ok os ∧
    ∀ o, o ∈ os ↔ ∃ c ∈ cs, ∃ qs, r.pointsToUnder c v = .ok qs ∧ ∃ q ∈ qs, q.entity = o
  instanceFieldPointsTo : ∀ o f, ∃ os, r.instanceFieldPointsTo o f = .ok os ∧
    ∀ o', o' ∈ os ↔ ∃ c base, r.output.world.findObj? ⟨c, o⟩ = some base ∧
      r.RefersAt (.instanceField base f) o'
  arrayPointsTo : ∀ o, ∃ os, r.arrayPointsTo o = .ok os ∧
    ∀ o', o' ∈ os ↔ ∃ c base, r.output.world.findObj? ⟨c, o⟩ = some base ∧
      r.RefersAt (.arrayElems base) o'
  mayAlias : ∀ v w, ∃ b os os', r.mayAlias v w = .ok b ∧ r.pointsTo v = .ok os ∧
    r.pointsTo w = .ok os' ∧ (b = true ↔ ∃ o, o ∈ os ∧ o ∈ os')

namespace Readable

variable (hr : r.Readable)
include hr

/-- Every pointer that was met has one handle, and every handle in its set names an object. -/
theorem refersAt_iff {x : Pointer} {o : ObjId} :
    r.RefersAt x o ↔ ∃ h, r.output.world.pointers.get? h = some x ∧ ∃ q,
      r.output.world.Holds h q ∧ ∃ key, r.output.world.objs.get? q = some key ∧ key.entity = o := by
  have hfind : ∀ h, r.output.world.findPointer? x = some h ↔
      r.output.world.pointers.get? h = some x :=
    fun h => hr.legible.faithful.pointers.find?_eq_some_iff
  constructor
  · intro hx
    obtain ⟨h, set, q, key, hh, hset, hq, hkey, ho⟩ := hx
    exact ⟨h, (hfind h).1 hh, q, ⟨set, Outcome.ofRow_eq_ok.1 hset, hq⟩, key,
      Outcome.ofRow_eq_ok.1 hkey, ho⟩
  · intro hx
    obtain ⟨h, hh, q, ⟨set, hset, hq⟩, key, hkey, ho⟩ := hx
    exact ⟨h, set, q, key, (hfind h).2 hh, Outcome.ofRow_eq_ok.2 hset, hq,
      Outcome.ofRow_eq_ok.2 hkey, ho⟩

/-! ### Variables -/

/-- The contexts of a variable are those of the pointers for it, and none is listed twice. -/
theorem exists_nodup_contextsOf (v : VarId) :
    ∃ cs, r.contextsOf v = .ok cs ∧ cs.Nodup ∧
      ∀ c, c ∈ cs ↔ ∃ h, r.output.world.pointers.get? h = some (.var c v) := by
  have hvar : ∀ h ∈ r.output.world.pointersOf v,
      ∃ c, r.output.world.pointers.get? h = some (.var c v) := fun h => hr.varsIndexed.mem.1
  obtain ⟨keys, hkeys⟩ := Outcome.exists_mapM (f := r.output.world.pointerAt) fun h hh =>
    (hvar h hh).elim fun _ e => ⟨_, Outcome.ofRow_eq_ok.2 e⟩
  have hmem : ∀ key, key ∈ keys ↔ ∃ c, key = .var c v ∧
      ∃ h, r.output.world.pointers.get? h = some (.var c v) := by
    intro key
    rw [Outcome.mem_of_mapM_eq_ok hkeys]
    constructor
    · intro hkey
      obtain ⟨h, hh, hkey⟩ := hkey
      obtain ⟨c, hc⟩ := hvar h hh
      exact ⟨c, Option.some.inj ((Outcome.ofRow_eq_ok.1 hkey).symm.trans hc), h, hc⟩
    · intro hkey
      obtain ⟨c, rfl, h, hc⟩ := hkey
      exact ⟨h, hr.varsIndexed.mem.2 ⟨c, hc⟩, Outcome.ofRow_eq_ok.2 hc⟩
  refine ⟨_, Outcome.bind_eq_ok.2 ⟨keys, hkeys, rfl⟩, ?_, fun c => ?_⟩
  · -- pointers for one variable differ in their contexts
    refine List.pairwise_filterMap.2 (List.Pairwise.imp_of_mem (fun hkey hkey' hne => ?_)
      (hr.legible.faithful.pointers.nodup_of_mapM (hr.varsIndexed.nodup v) hkeys))
    obtain ⟨c, rfl, -⟩ := (hmem _).1 hkey
    obtain ⟨c', rfl, -⟩ := (hmem _).1 hkey'
    intro b hb b' hb' e
    obtain rfl := Option.some.inj hb
    obtain rfl := Option.some.inj hb'
    obtain rfl : c = c' := e
    exact hne rfl
  · simp only [List.mem_filterMap, hmem]
    constructor
    · intro hc
      obtain ⟨_, ⟨c', rfl, h, hh⟩, e⟩ := hc
      obtain rfl := Option.some.inj e
      exact ⟨h, hh⟩
    · intro hc
      exact ⟨.var c v, ⟨c, rfl, hc⟩, rfl⟩

/-- What a variable may refer to under a context is what the pointer for it holds. -/
theorem exists_mem_pointsToUnder (c : ContextId) (v : VarId) :
    ∃ qs, r.pointsToUnder c v = .ok qs ∧ ∀ q, q ∈ qs ↔
      ∃ h, r.output.world.pointers.get? h = some (.var c v) ∧
        ∃ x, r.output.world.Holds h x ∧ r.output.world.objs.get? x = some q := by
  unfold pointsToUnder
  have hfind : ∀ h, r.output.world.findPointer? (.var c v) = some h ↔
      r.output.world.pointers.get? h = some (.var c v) :=
    fun h => hr.legible.faithful.pointers.find?_eq_some_iff
  cases hx : r.output.world.findPointer? (.var c v) with
  | none =>
    -- a pointer that was never met refers to nothing
    refine ⟨_, rfl, fun q => iff_of_false (AscendingSet.not_mem_empty q) fun h => ?_⟩
    obtain ⟨h, hh, -⟩ := h
    cases hx.symm.trans ((hfind h).2 hh)
  | some h =>
    have hrow := (hfind h).1 hx
    have hset : r.output.world.sets.Has h :=
      Nat.lt_of_lt_of_eq (Table.has_of_get? hrow) hr.legible.sets.symm
    obtain ⟨set, hset⟩ := Table.exists_get? hset
    obtain ⟨qs, hqs⟩ := Outcome.exists_mapM (f := r.output.world.objAt) fun x (hx : x ∈ set.toList) =>
      (Table.exists_get? (hr.legible.holds h x ⟨set, hset, hx⟩)).imp fun _ e =>
        Outcome.ofRow_eq_ok.2 e
    refine ⟨_, Outcome.bind_eq_ok.2 ⟨set, Outcome.ofRow_eq_ok.2 hset,
      Outcome.bind_eq_ok.2 ⟨qs, hqs, rfl⟩⟩, fun q => ?_⟩
    rw [AscendingSet.mem_ofList, Outcome.mem_of_mapM_eq_ok hqs]
    constructor
    · intro hq
      obtain ⟨x, hx, hq⟩ := hq
      exact ⟨h, hrow, x, ⟨set, hset, hx⟩, Outcome.ofRow_eq_ok.1 hq⟩
    · intro hq
      obtain ⟨h', hh', x, ⟨set', hset', hx⟩, hq⟩ := hq
      obtain rfl := hr.legible.faithful.pointers _ _ _ hrow hh'
      obtain rfl := Option.some.inj (hset.symm.trans hset')
      exact ⟨x, hx, Outcome.ofRow_eq_ok.2 hq⟩

/-- The objects of a variable are those that it may refer to under its contexts. -/
theorem exists_union_pointsToUnder (v : VarId) :
    ∃ cs os, r.contextsOf v = .ok cs ∧ r.pointsTo v = .ok os ∧
      ∀ o, o ∈ os ↔ ∃ c ∈ cs, ∃ qs, r.pointsToUnder c v = .ok qs ∧ ∃ q ∈ qs, q.entity = o := by
  obtain ⟨cs, hcs, -, hmem⟩ := hr.exists_nodup_contextsOf v
  obtain ⟨os, hos, ho⟩ := hr.exists_projectAll (r.output.world.pointersOf v) fun h hh =>
    (hr.varsIndexed.mem.1 hh).elim fun _ e => Table.has_of_get? e
  refine ⟨cs, os, hcs, hos, fun o => ?_⟩
  rw [ho]
  -- the pointers of a variable are told apart by their contexts
  constructor
  · intro h
    obtain ⟨h, hh, x, hx, q, hq, he⟩ := h
    obtain ⟨c, hc⟩ := hr.varsIndexed.mem.1 hh
    obtain ⟨qs, hqs, hmemq⟩ := hr.exists_mem_pointsToUnder c v
    exact ⟨c, (hmem c).2 ⟨h, hc⟩, qs, hqs, q, (hmemq q).2 ⟨h, hc, x, hx, hq⟩, he⟩
  · intro h
    obtain ⟨c, -, qs, hqs, q, hq, he⟩ := h
    obtain ⟨qs', hqs', hmemq⟩ := hr.exists_mem_pointsToUnder c v
    obtain rfl := Except.ok.inj (hqs.symm.trans hqs')
    obtain ⟨h, hc, x, hx, hq⟩ := (hmemq q).1 hq
    exact ⟨h, hr.varsIndexed.mem.2 ⟨c, hc⟩, x, hx, q, hq, he⟩

/-! ### Slots of objects -/

/-- The slots that an index lists for an object are united: they are the slots of the object under
all heap contexts. -/
theorem exists_union_slots {o : ObjId} {slot : QObjId → Pointer} {hs : List PointerId}
    (hhs : ∀ h, h ∈ hs ↔ ∃ x, r.output.world.pointers.get? h = some x ∧
      Index.OnObject r.output.world o slot x) :
    ∃ os, r.projectAll hs = .ok os ∧ ∀ o', o' ∈ os ↔
      ∃ c base, r.output.world.findObj? ⟨c, o⟩ = some base ∧ r.RefersAt (slot base) o' := by
  have hfind : ∀ q base, r.output.world.findObj? q = some base ↔
      r.output.world.objs.get? base = some q :=
    fun q base => hr.legible.faithful.objs.find?_eq_some_iff
  obtain ⟨os, hos, ho⟩ := hr.exists_projectAll hs fun h hh =>
    ((hhs h).1 hh).elim fun _ e => Table.has_of_get? e.1
  refine ⟨os, hos, fun o' => ?_⟩
  simp only [ho, hhs, hfind, hr.refersAt_iff]
  constructor
  · intro h
    obtain ⟨h, ⟨_, hx, base, ⟨c, _⟩, rfl, hbase, rfl⟩, hq⟩ := h
    exact ⟨c, base, hbase, h, hx, hq⟩
  · intro h
    obtain ⟨c, base, hbase, h, hx, hq⟩ := h
    exact ⟨h, ⟨_, hx, base, _, rfl, hbase, rfl⟩, hq⟩

/-! ### Aliases -/

omit hr in
theorem ascending_of_projectAll {hs : List PointerId} {os : AscendingSet ObjId}
    (h : r.projectAll hs = .ok os) : os.Ascending := by
  obtain ⟨objs, -, h⟩ := Outcome.bind_eq_ok.1 h
  obtain rfl := Outcome.pure_eq_ok.1 h
  exact AscendingSet.ascending_ofList _

/-- Variables may be aliases if their sets of objects meet. -/
theorem exists_mayAlias_iff (v w : VarId) :
    ∃ b os os', r.mayAlias v w = .ok b ∧ r.pointsTo v = .ok os ∧ r.pointsTo w = .ok os' ∧
      (b = true ↔ ∃ o, o ∈ os ∧ o ∈ os') := by
  obtain ⟨os, hos, -⟩ := hr.pointsTo v
  obtain ⟨os', hos', -⟩ := hr.pointsTo w
  cases hempty : os.isEmpty with
  | true =>
    -- the other set is not looked at
    refine ⟨false, os, os', ?_, hos, hos', iff_of_false Bool.false_ne_true ?_⟩
    · refine Outcome.bind_eq_ok.2 ⟨os, hos, ?_⟩
      rw [hempty]
      rfl
    · exact fun h => h.elim fun o ho => AscendingSet.isEmpty_iff.1 hempty o ho.1
  | false =>
    refine ⟨os.intersects os', os, os', ?_, hos, hos', ?_⟩
    · refine Outcome.bind_eq_ok.2 ⟨os, hos, ?_⟩
      rw [hempty]
      exact Outcome.bind_eq_ok.2 ⟨os', hos', rfl⟩
    · exact AscendingSet.intersects_iff (ascending_of_projectAll hos) (ascending_of_projectAll hos')

/-- The answers about references agree. -/
theorem referencesAgree : r.ReferencesAgree where
  contextsOf := hr.exists_nodup_contextsOf
  pointsToUnder := hr.exists_mem_pointsToUnder
  pointsTo := hr.exists_union_pointsToUnder
  instanceFieldPointsTo o f := hr.exists_union_slots fun h => hr.describes.fieldSlots o f h
  arrayPointsTo o := hr.exists_union_slots fun h => hr.describes.arraySlots o h
  mayAlias := hr.exists_mayAlias_iff

end Readable

end Result

/-! ## Results of runs -/

/-- The answers without contexts to the result of a run, complete or stopped by a budget, are
projections of the run. -/
theorem ofOutput_projects {p : Program} (hp : p.Built) {σ : Sensitivity} {order : Order}
    {budget : Option Nat} {out : Output} (h : solve p σ order budget = .ok out) {label : String}
    {r : Result} (hr : Result.ofOutput label out = .ok r) :
    (∃ g, r.plainCallGraph = .ok g ∧ r.CallsAgree g) ∧ r.ReferencesAgree := by
  obtain ⟨rfl, hreadable⟩ := readable_of_solve hp h hr
  obtain ⟨first, -, hentries, hfirst⟩ := (rooted_of_solve hp h).entry
  -- the index is the one that is made of the output
  have hindex : Index.ofOutput r.output = .ok r.index := by
    obtain ⟨index, hindex, hr⟩ := Outcome.bind_eq_ok.1 hr
    rw [hindex, ← Outcome.pure_eq_ok.1 hr]
  exact ⟨hreadable.exists_callsAgree hindex hentries hfirst, hreadable.referencesAgree⟩

/-- It is so for a run on the box program that stops after one delivery. -/
theorem boxProgram_projects :
    ∃ out r, boxProgram.Built ∧ solve boxProgram (.object 1) .fifo (some 1) = .ok out ∧
      out.completed = false ∧ Result.ofOutput (Sensitivity.object 1).label out = .ok r ∧
      (∃ g, r.plainCallGraph = .ok g ∧ r.CallsAgree g) ∧ r.ReferencesAgree := by
  have hrun : ((solve boxProgram (.object 1) .fifo (some 1)).map Output.completed).toOption =
      some false := by decide +kernel
  obtain ⟨out, hout, hcompleted⟩ := Outcome.exists_of_toOption_map hrun
  obtain ⟨r, hr, -⟩ := exists_ofOutput_of_solve boxProgram_built.wellFormed hout
    (Sensitivity.object 1).label
  exact ⟨out, r, boxProgram_built, hout, hcompleted, hr, ofOutput_projects boxProgram_built hout hr⟩

end PointerAnalysis
