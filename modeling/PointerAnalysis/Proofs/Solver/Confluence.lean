import PointerAnalysis.Proofs.Solver.Correctness

/-!
# The order of deliveries does not matter

Two runs that process their deliveries in different orders meet things in different orders, so
their handles differ, and they may fail for different statements.  Both find the least closed set of
facts, though, if there is nothing in it that fails.  So they agree on all names, and tables in which
every row has its own name are of the same size when they hold the same names.

## Main definitions

- `Output.Exact`: an output says what follows from the rules, and nothing else.
- `Output.Agrees`: two outputs say the same, and are of the same size.

## Main statements

- `Output.Exact.agrees`: exact outputs agree.
- `solve_confluent`: runs in different orders agree, or both fail.
-/

namespace PointerAnalysis.Solver

variable {p : Program} {σ : Sensitivity} {order : Order} {out a b : Output}

/-! ## Exact outputs -/

/-- An output says what follows from the rules and nothing else, and everything in it is there once
only. -/
structure Output.Exact (p : Program) (σ : Sensitivity) (out : Output) : Prop where
  legible : out.Legible
  facts : ∀ f, out.facts f ↔ Least p σ f
  counted : out.flow.Counted
  heap : out.heap.objects.All fun obj => ∃ t, Least p σ (.object ⟨t, obj.site⟩)

/-- The output of a run without a budget is exact. -/
theorem exact_of_solve (wf : p.WellFormed) (h : solve p σ order none = .ok out) :
    out.Exact p σ := by
  obtain ⟨s, hs, e, -⟩ := exists_settled_of_solve wf h
  refine
    { legible := legible_of_solve wf h
      facts := fun f => ⟨least_of_solve wf h, fun hf => ?_⟩
      counted := ?_
      heap := ?_ }
  · exact hf.le (closed_of_solve wf h (completed_of_solve wf h)).1
  · rw [e]
    exact hs.valid.counted
  · rw [e]
    exact fun o obj ho => (hs.valid.rows.heap o obj ho).2.2

/-! ## Sizes -/

namespace Output.Exact

variable (ha : a.Exact p σ) (hb : b.Exact p σ)
include ha hb

/-- Exact outputs say the same. -/
theorem facts_iff (f : Fact) : a.facts f ↔ b.facts f := (ha.facts f).trans (hb.facts f).symm

theorem contexts_le : a.world.contexts.table.size ≤ b.world.contexts.table.size := by
  apply Table.size_le_of_names a.heap.elemNames? b.heap.elemNames?
  · exact ha.legible.contexts
  · intro c c' t hc hc'
    exact ha.legible.faithful.context_inj hc hc'
  · intro t ht
    exact (ha.facts_iff hb (.context t)).1 ht

theorem objs_le : a.world.objs.size ≤ b.world.objs.size := by
  apply Table.size_le_of_names (a.world.objKeyName? a.heap) (b.world.objKeyName? b.heap)
  · exact ha.legible.objs
  · intro q q' o hq hq'
    exact ha.legible.faithful.obj_inj hq hq'
  · intro o ho
    exact (ha.facts_iff hb (.object o)).1 ho

theorem pointers_le : a.world.pointers.size ≤ b.world.pointers.size := by
  apply Table.size_le_of_names (a.world.pointerKeyName? a.heap) (b.world.pointerKeyName? b.heap)
  · exact ha.legible.pointers
  · intro h h' x hx hx'
    exact ha.legible.faithful.pointer_inj hx hx'
  · intro x hx
    exact (ha.facts_iff hb (.pointer x)).1 hx

/-- Abstract objects are named by their sites. -/
theorem objects_le : a.heap.objects.size ≤ b.heap.objects.size := by
  have hsite : ∀ {heap : Heap} {o : ObjId} {s : StmtId},
      ((heap.objects.get? o).bind fun obj => some obj.site) = some s ↔
        ∃ obj, heap.objects.get? o = some obj ∧ obj.site = s := by
    intro heap o s
    simp only [Option.bind_eq_some_iff, Option.some.injEq]
  apply Table.size_le_of_names (fun obj => some obj.site) (fun obj => some obj.site)
  · intro o ho
    obtain ⟨obj, hobj⟩ := Table.exists_get? ho
    exact ⟨obj.site, hsite.2 ⟨obj, hobj, rfl⟩⟩
  · intro o o' s ho ho'
    obtain ⟨obj, hobj, e⟩ := hsite.1 ho
    obtain ⟨obj', hobj', e'⟩ := hsite.1 ho'
    exact ha.legible.faithful.heap o o' obj obj' hobj hobj' (e.trans e'.symm)
  · -- an object under some context is known to both
    intro s hs
    obtain ⟨o, ho⟩ := hs
    obtain ⟨obj, hobj, rfl⟩ := hsite.1 ho
    obtain ⟨t, ht⟩ := ha.heap o obj hobj
    obtain ⟨h, hh⟩ := (hb.facts _).2 ht
    obtain ⟨q, -, hn⟩ := Option.bind_eq_some_iff.1 hh
    obtain ⟨-, obj', hobj', e⟩ := Universe.objKeyName?_eq_some.1 hn
    exact ⟨q.entity, hsite.2 ⟨obj', hobj', e⟩⟩

/-- Edges of flow are named by their ends. -/
theorem flow_le : a.flow.size ≤ b.flow.size := by
  obtain ⟨edges, hnodup, hlength, hmem⟩ := ha.counted.edges
  obtain ⟨edges', hnodup', hlength', hmem'⟩ := hb.counted.edges
  -- edges are related when their ends have the same names
  let Same : PointerId × PointerId → PointerId × PointerId → Prop := fun e e' =>
    ∃ x y, a.world.pointerName? a.heap e.1 = some x ∧ a.world.pointerName? a.heap e.2 = some y ∧
      b.world.pointerName? b.heap e'.1 = some x ∧ b.world.pointerName? b.heap e'.2 = some y
  rw [← hlength, ← hlength', ← List.toFinset_card_of_nodup hnodup,
    ← List.toFinset_card_of_nodup hnodup']
  apply Finset.card_le_card_of_forall_subsingleton Same
  · intro e he
    obtain ⟨h, k⟩ := e
    have hhk : a.flow.hasEdge h k = true := (hmem h k).1 (List.mem_toFinset.1 he)
    obtain ⟨x, hx⟩ := ha.legible.pointers h (ha.legible.flow h k hhk).1
    obtain ⟨y, hy⟩ := ha.legible.pointers k (ha.legible.flow h k hhk).2
    obtain ⟨h', k', hhk', hx', hy'⟩ := (ha.facts_iff hb (.flows x y)).1 ⟨h, k, hhk, hx, hy⟩
    exact ⟨(h', k'), List.mem_toFinset.2 ((hmem' h' k').2 hhk'), x, y, hx, hy, hx', hy'⟩
  · intro e _ e₁ h₁ e₂ h₂
    obtain ⟨x₁, y₁, hx₁, hy₁, hx₁', hy₁'⟩ := h₁.2
    obtain ⟨x₂, y₂, hx₂, hy₂, hx₂', hy₂'⟩ := h₂.2
    obtain rfl := Option.some.inj (hx₁'.symm.trans hx₂')
    obtain rfl := Option.some.inj (hy₁'.symm.trans hy₂')
    exact Prod.ext (ha.legible.faithful.pointer_inj hx₁ hx₂)
      (ha.legible.faithful.pointer_inj hy₁ hy₂)

end Output.Exact

/-! ## Agreement -/

/-- Two outputs say the same of contexts, objects, locations, methods, calls, flow and references,
by name, and are of the same size. -/
structure Output.Agrees (a b : Output) : Prop where
  facts : ∀ f, a.facts f ↔ b.facts f
  flow : a.flow.size = b.flow.size
  pointers : a.world.pointers.size = b.world.pointers.size
  objects : a.heap.objects.size = b.heap.objects.size
  objs : a.world.objs.size = b.world.objs.size
  contexts : a.world.contexts.table.size = b.world.contexts.table.size

/-- Exact outputs agree. -/
theorem Output.Exact.agrees (ha : a.Exact p σ) (hb : b.Exact p σ) : a.Agrees b where
  facts := ha.facts_iff hb
  flow := Nat.le_antisymm (ha.flow_le hb) (hb.flow_le ha)
  pointers := Nat.le_antisymm (ha.pointers_le hb) (hb.pointers_le ha)
  objects := Nat.le_antisymm (ha.objects_le hb) (hb.objects_le ha)
  objs := Nat.le_antisymm (ha.objs_le hb) (hb.objs_le ha)
  contexts := Nat.le_antisymm (ha.contexts_le hb) (hb.contexts_le ha)

/-- A run in one order gives an output if a run in another order does. -/
theorem solve_ok_of_ok (wf : p.WellFormed) (h : solve p σ order none = .ok out)
    (order' : Order) : ∃ out', solve p σ order' none = .ok out' := by
  rcases solve_none_cases wf σ order' with ⟨out', h', -⟩ | ⟨e, -, hfails⟩
  · exact ⟨out', h'⟩
  · -- the first run would have met what fails in the second
    obtain ⟨-, hno⟩ := closed_of_solve wf h (completed_of_solve wf h)
    exact absurd (hfails.mono fun f hf => ((exact_of_solve wf h).facts f).2 hf) (hno e)

/-- Runs without a budget that differ in the order of deliveries both fail, or else both give an
output, and the outputs agree by name. -/
theorem solve_confluent (hp : p.Built) (σ : Sensitivity) (order order' : Order) :
    (∃ e e', solve p σ order none = .error (.error e) ∧
      solve p σ order' none = .error (.error e')) ∨
    ∃ a b, solve p σ order none = .ok a ∧ solve p σ order' none = .ok b ∧ a.Agrees b ∧
      a.Legible ∧ b.Legible := by
  have wf := hp.wellFormed
  rcases solve_none_cases wf σ order with ⟨a, ha, -⟩ | ⟨e, he, -⟩
  · obtain ⟨b, hb⟩ := solve_ok_of_ok wf ha order'
    have hexact := exact_of_solve wf ha
    have hexact' := exact_of_solve wf hb
    exact Or.inr ⟨a, b, ha, hb, hexact.agrees hexact', hexact.legible, hexact'.legible⟩
  · rcases solve_none_cases wf σ order' with ⟨b, hb, -⟩ | ⟨e', he', -⟩
    · obtain ⟨a, ha⟩ := solve_ok_of_ok wf hb order
      cases he.symm.trans ha
    · exact Or.inl ⟨e, e', he, he'⟩

/-- On the box program both orders give an output, and the outputs agree. -/
theorem boxProgram_confluent :
    boxProgram.Built ∧ ∃ a b, solve boxProgram (.object 1) .fifo none = .ok a ∧
      solve boxProgram (.object 1) .lifo none = .ok b ∧ a.Agrees b := by
  refine ⟨boxProgram_built, ?_⟩
  rcases solve_confluent boxProgram_built (.object 1) .fifo .lifo with
    ⟨e, e', he, -⟩ | ⟨a, b, ha, hb, hab, -⟩
  · have hok : (solve boxProgram (.object 1) .fifo none).isOk = true := by decide +kernel
    rw [he] at hok
    cases hok
  · exact ⟨a, b, ha, hb, hab⟩

end PointerAnalysis.Solver
