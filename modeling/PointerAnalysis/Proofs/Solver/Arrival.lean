import PointerAnalysis.Proofs.Solver.Dereferences

/-!
# Arrivals

Taking a delivery off the work list and adding its objects to the set of its target is one move:
between the two, an edge of the flow graph could lag behind.  The move loses nothing that was known,
since what arrives was known to be on its way, and what is new at the target is on its way again.

## Main definitions

- `arrive`: the state after a delivery has arrived.

## Main statements

- `Valid.arrive`: an arrival leaves a valid state.
- `remembers_arrive`: an arrival loses nothing that was known.
-/

namespace PointerAnalysis

/-! ## Work lists -/

namespace WorkList

variable {w w' : WorkList} {d e : Delivery}

theorem mem_toList_pop? (h : w.pop? = some (d, w')) :
    e ∈ w.toList ↔ e = d ∨ e ∈ w'.toList := by
  rw [toList_pop? h]
  cases w.order with
  | fifo => exact List.mem_cons
  | lifo => rw [List.mem_append, List.mem_singleton, or_comm]

/-- Nothing waits if nothing can be taken. -/
theorem toList_eq_nil_of_pop? (h : w.pop? = none) : w.toList = [] := by
  obtain ⟨order, front, back⟩ := w
  unfold pop? popOldest? popNewest? at h
  -- the list at the other end is turned over only if the near one is empty
  cases order with
  | fifo =>
    cases front with
    | cons d front => cases h
    | nil =>
      cases hb : back.reverse with
      | cons d rest => simp [hb] at h
      | nil => simp [toList, hb]
  | lifo =>
    cases back with
    | cons d back => cases h
    | nil =>
      cases hf : front.reverse with
      | cons d rest => simp [hf] at h
      | nil => simp [toList, List.reverse_eq_nil_iff.1 hf]

end WorkList

namespace Solver

variable {p : Program} {σ : Sensitivity} {s : State}

/-! ## Sets -/

/-- Tables stay in order when sets change. -/
theorem Rows.setSets {u : Universe} {heap : Heap} (hr : Rows p σ u heap)
    {sets : Table .pointer PointsTo} (hsize : sets.size = u.sets.size) :
    Rows p σ { u with sets := sets } heap := by
  have hu : u.Extends { u with sets := sets } := { Universe.Extends.refl u with }
  have hn := hr.named.mono hu (.refl _)
  exact
    { hr with
      named := { hn with }
      faithful := { hr.faithful with }
      sets := hsize.trans hr.sets }

/-- The state after `objs` has arrived at `target`, where `set` was before.  What is new there is
forwarded; `w` holds the other deliveries. -/
def arrive (s : State) (w : WorkList) (target : PointerId) (objs set : PointsTo) : State :=
  { s with
    world := { s.world with sets := s.world.sets.modify target fun _ => (set.absorb objs).1 }
    workList :=
      if (set.absorb objs).2.isEmpty then w
      else (s.flow.successorsOf target).foldl (fun w t => w.push ⟨t, (set.absorb objs).2⟩) w
    processed := s.processed + 1 }

section Arrive

variable {w : WorkList} {d : Delivery} {set : PointsTo}
  (hset : s.world.sets.get? d.target = some set)
include hset

theorem get?_sets_arrive {h : PointerId} {set' : PointsTo}
    (e : (arrive s w d.target d.objs set).world.sets.get? h = some set') :
    h = d.target ∧ set' = (set.absorb d.objs).1 ∨ s.world.sets.get? h = some set' := by
  have e' := (Table.get?_modify s.world.sets d.target h fun _ => (set.absorb d.objs).1).symm.trans e
  split at e'
  · rename_i hh
    rw [hset] at e'
    exact Or.inl ⟨hh, (Option.some.inj e').symm⟩
  · exact Or.inr e'

theorem holds_arrive {h : PointerId} {q : QObjId} :
    (arrive s w d.target d.objs set).world.Holds h q ↔
      s.world.Holds h q ∨ h = d.target ∧ q ∈ d.objs := by
  have hget := Table.get?_modify s.world.sets d.target h fun _ => (set.absorb d.objs).1
  constructor
  · intro hholds
    obtain ⟨set', hset', hq⟩ := hholds
    -- the set of the target is the union, all other sets are as before
    rcases get?_sets_arrive hset hset' with ⟨rfl, rfl⟩ | hset'
    · rcases AscendingSet.mem_absorb_fst.1 hq with hq | hq
      · exact Or.inl ⟨set, hset, hq⟩
      · exact Or.inr ⟨rfl, hq⟩
    · exact Or.inl ⟨set', hset', hq⟩
  · by_cases hh : h = d.target
    · subst hh
      rw [if_pos rfl, hset] at hget
      intro hq
      rcases hq with ⟨set', hset', hq⟩ | ⟨-, hq⟩
      · obtain rfl := Option.some.inj (hset.symm.trans hset')
        exact ⟨_, hget, AscendingSet.mem_absorb_fst.2 (Or.inl hq)⟩
      · exact ⟨_, hget, AscendingSet.mem_absorb_fst.2 (Or.inr hq)⟩
    · rw [if_neg hh] at hget
      intro hq
      rcases hq with ⟨set', hset', hq⟩ | ⟨rfl, -⟩
      · exact ⟨set', hget.trans hset', hq⟩
      · exact absurd rfl hh

omit hset in
/-- The deliveries after an arrival: those that waited before, and those that are forwarded. -/
theorem mem_toList_arrive {e : Delivery} :
    e ∈ (arrive s w d.target d.objs set).workList.toList ↔ e ∈ w.toList ∨
      (set.absorb d.objs).2.isEmpty = false ∧ s.flow.hasEdge d.target e.target = true ∧
        e.objs = (set.absorb d.objs).2 := by
  unfold arrive
  dsimp only
  cases hempty : (set.absorb d.objs).2.isEmpty with
  | true => simp
  | false =>
    simp only [Bool.false_eq_true, if_false, toList_foldl_push, List.mem_append, List.mem_map,
      FlowGraph.hasEdge_iff, true_and]
    refine or_congr_right ⟨?_, ?_⟩
    · intro ht
      obtain ⟨t, ht, rfl⟩ := ht
      exact ⟨ht, rfl⟩
    · intro hd
      obtain ⟨ht, he⟩ := hd
      exact ⟨e.target, ht, by rw [← he]⟩

variable (hpop : s.workList.pop? = some (d, w))
include hpop

/-- What was on its way has arrived or is on its way still. -/
theorem awaits_arrive {h : PointerId} {q : QObjId} (hq : Awaits s.workList.toList h q) :
    (arrive s w d.target d.objs set).world.Holds h q ∨
      Awaits (arrive s w d.target d.objs set).workList.toList h q := by
  obtain ⟨e, he, rfl, hq⟩ := hq
  -- the object was on the delivery that has arrived, or on one that waits still
  rcases (WorkList.mem_toList_pop? hpop).1 he with rfl | he
  · exact Or.inl ((holds_arrive hset).2 (Or.inr ⟨rfl, hq⟩))
  · exact Or.inr ⟨e, mem_toList_arrive.2 (Or.inl he), rfl, hq⟩

/-- An arrival loses nothing that was known. -/
theorem remembers_arrive : Remembers s (arrive s w d.target d.objs set) where
  world := { Universe.Extends.refl s.world with }
  heap := .refl _
  reachable := List.prefix_refl _
  knows f hf := by
    have hu : s.world.Extends (arrive s w d.target d.objs set).world :=
      { Universe.Extends.refl s.world with }
    refine Knows.mono hu (.refl _) (fun _ _ h => h) (fun _ h => h) (fun _ h => h)
      (fun h q hq => ?_) hf
    rcases hq with hq | hq
    · exact Or.inl ((holds_arrive hset).2 (Or.inl hq))
    · exact awaits_arrive hset hpop hq

variable (hv : Valid p σ s)
include hv

/-- An arrival leaves a valid state. -/
theorem Valid.arrive : Valid p σ (arrive s w d.target d.objs set) := by
  have hu : s.world.Extends (Solver.arrive s w d.target d.objs set).world :=
    { Universe.Extends.refl s.world with }
  have hd : Delivers (Least p σ) s.world s.heap d :=
    hv.pending d ((WorkList.mem_toList_pop? hpop).2 (Or.inl rfl))
  have hasc := AscendingSet.ascending_absorb (hv.ascending d.target set hset) hd.ascending
  have hnew : ∀ q, q ∈ (set.absorb d.objs).2 ↔ q ∈ d.objs ∧ q ∉ set := fun q =>
    AscendingSet.mem_absorb_snd (hv.ascending d.target set hset) hd.ascending
  refine
    { hv with
      rows := hv.rows.setSets (Table.size_modify ..)
      ascending := fun h set' hset' => ?_
      holds := fun h q hq => ?_
      pending := fun e he => ?_
      flow := fun a b hab => (hv.flow a b hab).mono hu (.refl _)
      covered := fun a b q hab hq => ?_
      reachable := fun m hm => (hv.reachable m hm).imp fun _ =>
        Universe.methodName?_mono hu (.refl _)
      edges := fun e he => (hv.edges e he).mono hu (.refl _) }
  · rcases get?_sets_arrive hset hset' with ⟨-, rfl⟩ | hset'
    · exact hasc.1
    · exact hv.ascending h set' hset'
  · rcases (holds_arrive hset).1 hq with hq' | ⟨rfl, hq'⟩
    · exact (hv.holds h q hq').mono hu (.refl _)
    · exact (hd.objs q hq').mono hu (.refl _)
  · rcases mem_toList_arrive.1 he with he | ⟨-, hedge, hobjs⟩
    · exact (hv.pending e ((WorkList.mem_toList_pop? hpop).2 (Or.inr he))).mono hu (.refl _)
    · -- objects that are new at the target flow on
      obtain ⟨x, y, hx, hy, hxy⟩ := hv.flow _ _ hedge
      refine Delivers.mono hu (.refl _) ⟨hobjs ▸ hasc.2, ⟨y, hy⟩, fun q hq => ?_⟩
      obtain ⟨x', o, hx', ho, hf⟩ := hd.objs q ((hnew q).1 (hobjs ▸ hq)).1
      obtain rfl := Option.some.inj (hx.symm.trans hx')
      exact ⟨y, o, hy, ho, least_closed _ (.propagate hxy hf)⟩
  · by_cases hold : s.world.Holds a q
    · rcases hv.covered a b q hab hold with hq' | hq'
      · exact Or.inl ((holds_arrive hset).2 (Or.inl hq'))
      · exact awaits_arrive hset hpop hq'
    · -- what is new at the source is forwarded to the target
      obtain ⟨rfl, hq'⟩ := ((holds_arrive hset).1 hq).resolve_left hold
      have hin : q ∈ (set.absorb d.objs).2 := (hnew q).2 ⟨hq', fun h => hold ⟨set, hset, h⟩⟩
      refine Or.inr ⟨⟨b, (set.absorb d.objs).2⟩, mem_toList_arrive.2 (Or.inr ⟨?_, hab, rfl⟩), rfl,
        hin⟩
      exact Bool.eq_false_iff.2 fun he => AscendingSet.isEmpty_iff.1 he q hin

end Arrive

end Solver

end PointerAnalysis
