import PointerAnalysis.Result.Basic
import PointerAnalysis.Proofs.Solver.Rooted
import PointerAnalysis.Proofs.Solver.Correctness

/-!
# The index of a run

The index is made by one pass over the methods that can run, one over the calls and one over the
pointers.  On an output that can be read no pass follows a handle that names nothing, and the index
that they make lists what the output has under any context, and nothing else.

## Main definitions

- `Index.Describes`: an index says what an output says, without contexts.

## Main statements

- `Index.exists_ofOutput`: an output that can be read has an index, and the index describes it.
-/

namespace PointerAnalysis

open Solver

namespace Index

variable (world : Universe)

/-! ## One pass at a time -/

/-- The pass over the methods lists those that the handles name, and leaves the rest of the index as
it was. -/
theorem exists_foldlM_addReachable (hs : List QMethodId)
    (hrows : ∀ h ∈ hs, ∃ q, world.methods.get? h = some q) (index : Index) :
    ∃ index', hs.foldlM (addReachable world) index = .ok index' ∧
      index' = { index with reachable := index'.reachable } ∧
      ∀ m, m ∈ index'.reachable ↔
        m ∈ index.reachable ∨ ∃ h ∈ hs, ∃ c, world.methods.get? h = some ⟨c, m⟩ := by
  refine Outcome.exists_foldlM_eq_ok
    (P := fun (done : List QMethodId) (index' : Index) =>
      index' = { index with reachable := index'.reachable } ∧
      ∀ m, m ∈ index'.reachable ↔
        m ∈ index.reachable ∨ ∃ h ∈ done, ∃ c, world.methods.get? h = some ⟨c, m⟩)
    ⟨rfl, fun m => by simp⟩ ?_
  intro done h index' hh hP
  obtain ⟨hrest, hmem⟩ := hP
  obtain ⟨⟨c, m'⟩, hq⟩ := hrows h hh
  -- the handle that is passed adds the method that it names
  have hlast : ∀ m, (∃ h' ∈ done ++ [h], ∃ c, world.methods.get? h' = some ⟨c, m⟩) ↔
      (∃ h' ∈ done, ∃ c, world.methods.get? h' = some ⟨c, m⟩) ∨ m = m' := by
    intro m
    simp [hq, or_and_right, exists_or, eq_comm]
  have hstep : addReachable world index' h = .ok
      (if m' ∈ index'.reachable then index'
        else { index' with reachable := index'.reachable ++ [m'] }) := by
    simp only [addReachable, Universe.methodAt, hq, Outcome.ofRow]
    show (if m' ∈ index'.reachable then _ else _) = _
    split
    · rfl
    · rfl
  refine ⟨_, hstep, ?_⟩
  split
  · rename_i hthere
    refine ⟨hrest, fun m => ?_⟩
    rw [hlast, ← or_assoc, ← hmem]
    exact ⟨Or.inl, fun hm => hm.elim id fun e => e ▸ hthere⟩
  · refine ⟨by rw [hrest], fun m => ?_⟩
    rw [hlast, ← or_assoc, ← hmem, List.mem_append, List.mem_singleton]

/-- The pass over the calls lists their callees under their sites. -/
theorem exists_foldlM_addCall (es : List (CallEdge QSiteId QMethodId))
    (hrows : ∀ e ∈ es, (∃ i, world.sites.get? e.site = some i) ∧
      ∃ q, world.methods.get? e.callee = some q) (index : Index) :
    ∃ index', es.foldlM (addCall world) index = .ok index' ∧
      index' = { index with callees := index'.callees } ∧
      ∀ s m, m ∈ index'.callees.get s ↔ m ∈ index.callees.get s ∨
        ∃ e ∈ es, ∃ c c', world.sites.get? e.site = some ⟨c, s⟩ ∧
          world.methods.get? e.callee = some ⟨c', m⟩ := by
  refine Outcome.exists_foldlM_eq_ok
    (P := fun (done : List (CallEdge QSiteId QMethodId)) (index' : Index) =>
      index' = { index with callees := index'.callees } ∧
      ∀ s m, m ∈ index'.callees.get s ↔ m ∈ index.callees.get s ∨
        ∃ e ∈ done, ∃ c c', world.sites.get? e.site = some ⟨c, s⟩ ∧
          world.methods.get? e.callee = some ⟨c', m⟩)
    ⟨rfl, fun s m => by simp⟩ ?_
  intro done e index' he hP
  obtain ⟨hrest, hmem⟩ := hP
  obtain ⟨⟨⟨c, i⟩, hi⟩, ⟨c', m'⟩, hm'⟩ := hrows e he
  refine ⟨{ index' with callees := index'.callees.add i m' }, ?_, by rw [hrest], fun s m => ?_⟩
  · simp only [addCall, Universe.siteAt, Universe.methodAt, hi, hm', Outcome.ofRow]
    rfl
  · rw [Multimap.get_add]
    -- only the list of the call's own site has grown
    by_cases hs : s = i
    · subst hs
      rw [if_pos rfl, List.mem_append, List.mem_singleton, hmem]
      simp [hi, hm', or_and_right, exists_or, or_assoc, eq_comm]
    · rw [if_neg hs, hmem]
      simp [hi, hm', or_and_right, exists_or, Ne.symm hs]

/-- The pointers that belong to an object, which is named through the table of objects. -/
def OnObject (o : ObjId) (key : QObjId → Pointer) (x : Pointer) : Prop :=
  ∃ base q, x = key base ∧ world.objs.get? base = some q ∧ q.entity = o

/-- The pass over the pointers lists those that belong to an object. -/
theorem exists_foldlM_addPointer (xs : List (PointerId × Pointer))
    (hrows : ∀ h x, (h, x) ∈ xs → ∀ base, (∀ f, x = .instanceField base f →
      ∃ q, world.objs.get? base = some q) ∧
      (x = .arrayElems base → ∃ q, world.objs.get? base = some q)) (index : Index) :
    ∃ index', xs.foldlM (fun index (h, key) => addPointer world index h key) index = .ok index' ∧
      index' = { index with fieldSlots := index'.fieldSlots, arraySlots := index'.arraySlots } ∧
      (∀ o f h, h ∈ index'.fieldSlots.get (o, f) ↔ h ∈ index.fieldSlots.get (o, f) ∨
        ∃ x, (h, x) ∈ xs ∧ OnObject world o (.instanceField · f) x) ∧
      ∀ o h, h ∈ index'.arraySlots.get o ↔ h ∈ index.arraySlots.get o ∨
        ∃ x, (h, x) ∈ xs ∧ OnObject world o .arrayElems x := by
  refine Outcome.exists_foldlM_eq_ok
    (P := fun (done : List (PointerId × Pointer)) (index' : Index) =>
      index' = { index with fieldSlots := index'.fieldSlots, arraySlots := index'.arraySlots } ∧
      (∀ o f h, h ∈ index'.fieldSlots.get (o, f) ↔ h ∈ index.fieldSlots.get (o, f) ∨
        ∃ x, (h, x) ∈ done ∧ OnObject world o (.instanceField · f) x) ∧
      ∀ o h, h ∈ index'.arraySlots.get o ↔ h ∈ index.arraySlots.get o ∨
        ∃ x, (h, x) ∈ done ∧ OnObject world o .arrayElems x)
    ⟨rfl, fun o f h => by simp, fun o h => by simp⟩ ?_
  intro done y index' hy hP
  obtain ⟨g, x⟩ := y
  obtain ⟨hrest, hfields, harrays⟩ := hP
  have hlast : ∀ h (P : Pointer → Prop), (∃ z, (h, z) ∈ done ++ [(g, x)] ∧ P z) ↔
      (∃ z, (h, z) ∈ done ∧ P z) ∨ h = g ∧ P x := by
    intro h P
    simp [or_and_right, exists_or]
  simp only [hlast, ← or_assoc, ← hfields, ← harrays]
  -- variables and static fields lie on no object, so the lists of slots stay as they are
  cases x with
  | var c v => exact ⟨index', rfl, hrest, by simp [OnObject], by simp [OnObject]⟩
  | staticField f => exact ⟨index', rfl, hrest, by simp [OnObject], by simp [OnObject]⟩
  | instanceField base f =>
    obtain ⟨q, hq⟩ := (hrows _ _ hy base).1 f rfl
    refine ⟨{ index' with fieldSlots := index'.fieldSlots.add (q.entity, f) g }, ?_, by rw [hrest],
      fun o f' h => ?_, by simp [OnObject]⟩
    · simp only [addPointer, Universe.objAt, hq, Outcome.ofRow]
      rfl
    · rw [Multimap.get_add]
      by_cases e : (o, f') = (q.entity, f)
      · obtain ⟨rfl, rfl⟩ := Prod.mk.inj e
        simp [OnObject, hq]
      · -- another slot gains nothing, as the row of the base has only one object
        rw [if_neg e]
        simp only [Prod.mk.injEq, not_and] at e
        simp only [OnObject, Pointer.instanceField.injEq, and_assoc]
        refine ⟨Or.inl, fun h => h.elim id fun h => ?_⟩
        obtain ⟨-, base', q', rfl, rfl, hq', rfl⟩ := h
        obtain rfl := Option.some.inj (hq.symm.trans hq')
        exact absurd rfl (e rfl)
  | arrayElems base =>
    obtain ⟨q, hq⟩ := (hrows _ _ hy base).2 rfl
    refine ⟨{ index' with arraySlots := index'.arraySlots.add q.entity g }, ?_, by rw [hrest],
      by simp [OnObject], fun o h => ?_⟩
    · simp only [addPointer, Universe.objAt, hq, Outcome.ofRow]
      rfl
    · rw [Multimap.get_add]
      by_cases e : o = q.entity
      · subst e
        simp [OnObject, hq]
      · simp [OnObject, hq, e, Ne.symm e]

/-! ## All passes -/

/-- An index says what an output says, without contexts. -/
structure Describes (out : Output) (index : Index) : Prop where
  reachable : ∀ m, m ∈ index.reachable ↔ ∃ c, Runs out.world out.calls c m
  callees : ∀ s m, m ∈ index.callees.get s ↔ ∃ e ∈ out.calls.edges, ∃ c c',
    out.world.sites.get? e.site = some ⟨c, s⟩ ∧ out.world.methods.get? e.callee = some ⟨c', m⟩
  fieldSlots : ∀ o f h, h ∈ index.fieldSlots.get (o, f) ↔
    ∃ x, out.world.pointers.get? h = some x ∧ OnObject out.world o (.instanceField · f) x
  arraySlots : ∀ o h, h ∈ index.arraySlots.get o ↔
    ∃ x, out.world.pointers.get? h = some x ∧ OnObject out.world o .arrayElems x

/-- An output that can be read has an index, which describes it. -/
theorem exists_ofOutput {out : Output} (hl : out.Legible) :
    ∃ index, ofOutput out = .ok index ∧ Describes out index := by
  obtain ⟨i₁, h₁, e₁, hreach⟩ := exists_foldlM_addReachable out.world out.calls.reachable
    (fun h hh => Table.exists_get? (hl.reachable h hh)) {}
  obtain ⟨i₂, h₂, e₂, hcallees⟩ := exists_foldlM_addCall out.world out.calls.edges (fun e he =>
    ⟨Table.exists_get? (hl.edges e he).1, Table.exists_get? (hl.edges e he).2⟩) i₁
  -- a pointer has a name, so its object has one
  obtain ⟨i₃, h₃, e₃, hfields, harrays⟩ := exists_foldlM_addPointer out.world
    out.world.pointers.entries (by
      intro h x hx base
      obtain ⟨n, hn⟩ := hl.pointers h (Table.has_of_get? (Table.mem_entries.1 hx))
      obtain ⟨x', hx', hn⟩ := Option.bind_eq_some_iff.1 hn
      obtain rfl := Option.some.inj (hx'.symm.trans (Table.mem_entries.1 hx))
      refine ⟨fun f e => ?_, fun e => ?_⟩
      · subst e
        obtain ⟨o, ho, -⟩ := Option.map_eq_some_iff.1 hn
        exact (Option.bind_eq_some_iff.1 ho).imp fun _ h => h.1
      · subst e
        obtain ⟨o, ho, -⟩ := Option.map_eq_some_iff.1 hn
        exact (Option.bind_eq_some_iff.1 ho).imp fun _ h => h.1) i₂
  -- each pass keeps what the others list
  have hreach₃ : i₃.reachable = i₁.reachable := by rw [e₃, e₂]
  have hcallees₁ : i₁.callees = {} := by rw [e₁]
  have hcallees₃ : i₃.callees = i₂.callees := by rw [e₃]
  have hfields₂ : i₂.fieldSlots = {} := by rw [e₂, e₁]
  have harrays₂ : i₂.arraySlots = {} := by rw [e₂, e₁]
  refine ⟨i₃, Outcome.bind_eq_ok.2 ⟨i₁, h₁, Outcome.bind_eq_ok.2 ⟨i₂, h₂, h₃⟩⟩, ?_⟩
  refine
    { reachable := fun m => ?_
      callees := fun s m => ?_
      fieldSlots := fun o f h => ?_
      arraySlots := fun o h => ?_ }
  · rw [hreach₃, hreach]
    simp only [List.not_mem_nil, false_or, Runs]
    exact ⟨fun ⟨h, hh, c, e⟩ => ⟨c, h, hh, e⟩, fun ⟨c, h, hh, e⟩ => ⟨h, hh, c, e⟩⟩
  · rw [hcallees₃, hcallees, hcallees₁]
    simp only [Multimap.get_empty, List.not_mem_nil, false_or]
  · rw [hfields, hfields₂]
    simp only [Multimap.get_empty, List.not_mem_nil, false_or, Table.mem_entries]
  · rw [harrays, harrays₂]
    simp only [Multimap.get_empty, List.not_mem_nil, false_or, Table.mem_entries]

end Index

end PointerAnalysis
