import PointerAnalysis.Proofs.Solver.Valid

/-!
# How large a state can grow

The tables of a valid state hold every thing once, and all things fit the program.  So there are no
more rows than there are codes for them: a context is coded by its elements as digits, a thing under
a context by both positions, and a pointer by what it is made of.

## Main statements

- `Valid.contexts_le`: no more contexts than sequences of the allowed length.
- `Valid.reachable_le`, `Valid.objs_le`, `Valid.pointers_le`: methods, objects and pointers.
-/

namespace PointerAnalysis

/-! ## Codes -/

/-- The position in an element of a context. -/
def ElemName.index : ElemName → Nat
  | site s | object s => s.index
  | cls c => c.index

/-- A context as a number whose digits are its elements. -/
def contextCode (base : Nat) : ContextName → Nat
  | [] => 0
  | e :: t => e.index + 1 + base * contextCode base t

/-- A context of `n` elements is coded by a number of `n` digits. -/
theorem contextCode_lt {base : Nat} {t : ContextName} (h : ∀ e ∈ t, e.index + 1 < base) :
    contextCode base t < base ^ t.length := by
  -- the first element is the last digit
  induction t with
  | nil => simp [contextCode]
  | cons e t ih =>
    have he := h e (List.mem_cons_self ..)
    have ht := ih fun e' he' => h e' (List.mem_cons_of_mem _ he')
    calc contextCode base (e :: t)
        < base + base * contextCode base t := Nat.add_lt_add_right he _
      _ = base * (contextCode base t + 1) := by rw [Nat.mul_succ, Nat.add_comm]
      _ ≤ base * base ^ t.length := Nat.mul_le_mul_left _ ht
      _ = base ^ (e :: t).length := by rw [List.length_cons, Nat.pow_succ, Nat.mul_comm]

namespace Sensitivity

variable {p : Program} {σ : Sensitivity}

/-- The base in which contexts are coded. -/
def base (p : Program) : Nat := p.stmts.size + p.classes.size + 1

/-- The elements of a sensitivity are digits, none of which is zero, so that the code tells how long
a context is. -/
theorem index_lt_of_admits {e : ElemName} (h : σ.Admits p e) : e.index + 1 < base p := by
  have hstmts : ∀ {s : StmtId}, p.stmts.Has s → s.index + 1 < base p := fun h => by
    unfold Table.Has at h
    unfold base
    omega
  have hclasses : ∀ {c : ClassId}, p.classes.Has c → c.index + 1 < base p := fun h => by
    unfold Table.Has at h
    unfold base
    omega
  cases σ <;> cases e
  case callSite.site => exact hstmts h
  case object.object => exact hstmts h
  case type.cls => exact hclasses h
  all_goals exact h.elim

/-- The elements of a sensitivity are of one sort, so positions tell them apart. -/
theorem admits_inj {e e' : ElemName} (h : σ.Admits p e) (h' : σ.Admits p e')
    (he : e.index = e'.index) : e = e' := by
  cases σ <;> cases e <;> cases e'
  case callSite.site.site => exact congrArg _ (Handle.ext he)
  case object.object.object => exact congrArg _ (Handle.ext he)
  case type.cls.cls => exact congrArg _ (Handle.ext he)
  all_goals first | exact h.elim | exact h'.elim

/-- A context that a sensitivity admits can be read back from its code. -/
theorem contextCode_inj {t t' : ContextName} (h : ∀ e ∈ t, σ.Admits p e)
    (h' : ∀ e ∈ t', σ.Admits p e) (hcode : contextCode (base p) t = contextCode (base p) t') :
    t = t' := by
  -- a digit is not zero, so both sequences end together
  induction t generalizing t' with
  | nil =>
    cases t' with
    | nil => rfl
    | cons e' t' => rw [contextCode, contextCode] at hcode; omega
  | cons e t ih =>
    cases t' with
    | nil => rw [contextCode, contextCode] at hcode; omega
    | cons e' t' =>
      have he := h e (List.mem_cons_self ..)
      have he' := h' e' (List.mem_cons_self ..)
      -- the last digit
      have hmod := congrArg (· % base p) hcode
      simp only [contextCode, Nat.add_mul_mod_self_left, Nat.mod_eq_of_lt (index_lt_of_admits he),
        Nat.mod_eq_of_lt (index_lt_of_admits he')] at hmod
      have hindex : e.index = e'.index := by omega
      -- the other digits
      have hrest : contextCode (base p) t = contextCode (base p) t' := by
        rw [contextCode, contextCode, hindex] at hcode
        exact Nat.eq_of_mul_eq_mul_left (by unfold base; omega) (Nat.add_left_cancel hcode)
      rw [admits_inj he he' hindex, ih (fun e he => h e (List.mem_cons_of_mem _ he))
        (fun e he => h' e (List.mem_cons_of_mem _ he)) hrest]

end Sensitivity

/-! ## Pairs of positions -/

/-- Two positions make a number, the second being the last digit. -/
theorem pair_lt {a b i j : Nat} (hi : i < a) (hj : j < b) : i * b + j < a * b := by
  have := Nat.mul_le_mul_right b (Nat.succ_le_of_lt hi)
  rw [Nat.succ_mul] at this
  omega

/-- Both positions can be read back from the number that they make. -/
theorem pair_inj {b i j i' j' : Nat} (hj : j < b) (hj' : j' < b) (h : i * b + j = i' * b + j') :
    i = i' ∧ j = j' := by
  -- the quotient tells the first position
  have hi : i = i' := by
    have hdiv := congrArg (· / b) h
    have hb : 0 < b := Nat.lt_of_le_of_lt (Nat.zero_le _) hj
    simpa only [Nat.mul_comm _ b, Nat.mul_add_div hb, Nat.div_eq_of_lt hj, Nat.div_eq_of_lt hj',
      Nat.add_zero] using hdiv
  subst hi
  exact ⟨rfl, by omega⟩

/-- Things under contexts are no more than pairs of a context and a thing. -/
theorem Table.size_le_mul {k j : Kind} {t : Table k (Qualified (Handle j))} (ht : t.Distinct)
    {a b : Nat} (hlt : ∀ h q, t.get? h = some q → q.context.index < a ∧ q.entity.index < b) :
    t.size ≤ a * b := by
  apply size_le_of_code (fun q => q.context.index * b + q.entity.index)
  · intro h q hq
    exact pair_lt (hlt h q hq).1 (hlt h q hq).2
  · intro h h' q q' hq hq' e
    obtain ⟨hc, he⟩ := pair_inj (hlt h q hq).2 (hlt h' q' hq').2 e
    have hsame : q = q' := by
      obtain ⟨c, x⟩ := q
      obtain ⟨c', x'⟩ := q'
      exact Qualified.mk.injEq c x c' x' ▸ ⟨Handle.ext hc, Handle.ext he⟩
    exact ht h h' q hq (hsame ▸ hq')

/-! ## Pointers -/

namespace Pointer

/-- The parts of a pointer have positions below these numbers. -/
def HasParts (contexts vars fields objs : Nat) : Pointer → Prop
  | var c v => c.index < contexts ∧ v.index < vars
  | staticField f => f.index < fields
  | instanceField b f => b.index < objs ∧ f.index < fields
  | arrayElems b => b.index < objs

/-- Pointers as numbers, one sort after the other. -/
def code (contexts vars fields objs : Nat) : Pointer → Nat
  | var c v => c.index * vars + v.index
  | staticField f => contexts * vars + f.index
  | instanceField b f => contexts * vars + fields + (b.index * fields + f.index)
  | arrayElems b => contexts * vars + fields + objs * fields + b.index

variable {contexts vars fields objs : Nat} {key key' : Pointer}

/-- The codes of pointers fill four ranges, one for each sort. -/
theorem code_lt (h : key.HasParts contexts vars fields objs) :
    key.code contexts vars fields objs < contexts * vars + fields + objs * fields + objs := by
  cases key with
  | var c v =>
    have := pair_lt h.1 h.2
    simp only [code]
    omega
  | staticField f =>
    simp only [code, HasParts] at h ⊢
    omega
  | instanceField b f =>
    have := pair_lt h.1 h.2
    simp only [code]
    omega
  | arrayElems b =>
    simp only [code, HasParts] at h ⊢
    omega

/-- A pointer can be read back from its code. -/
theorem code_inj (h : key.HasParts contexts vars fields objs)
    (h' : key'.HasParts contexts vars fields objs)
    (e : key.code contexts vars fields objs = key'.code contexts vars fields objs) :
    key = key' := by
  -- the codes of each sort stay within a range of their own
  have hvar : ∀ {c : ContextId} {v : VarId}, c.index < contexts ∧ v.index < vars →
      c.index * vars + v.index < contexts * vars := fun h => pair_lt h.1 h.2
  have hinstance : ∀ {b : QObjId} {f : FieldId}, b.index < objs ∧ f.index < fields →
      b.index * fields + f.index < objs * fields := fun h => pair_lt h.1 h.2
  cases key <;> cases key' <;> simp only [code, HasParts] at h h' e
  case var.var c v c' v' =>
    obtain ⟨hc, hv⟩ := pair_inj h.2 h'.2 e
    rw [Handle.ext hc, Handle.ext hv]
  case staticField.staticField f f' =>
    rw [Handle.ext (Nat.add_left_cancel e)]
  case instanceField.instanceField b f b' f' =>
    obtain ⟨hb, hf⟩ := pair_inj h.2 h'.2 (Nat.add_left_cancel e)
    rw [Handle.ext hb, Handle.ext hf]
  case arrayElems.arrayElems b b' =>
    rw [Handle.ext (Nat.add_left_cancel e)]
  -- pointers of different sorts
  case var.staticField | var.arrayElems => have := hvar h; omega
  case staticField.var | arrayElems.var => have := hvar h'; omega
  case var.instanceField => have := hvar h; omega
  case instanceField.var => have := hvar h'; omega
  case instanceField.arrayElems => have := hinstance h; omega
  case arrayElems.instanceField => have := hinstance h'; omega
  all_goals omega

end Pointer

namespace Solver

variable {p : Program} {σ : Sensitivity} {s : State}

theorem has_of_contextName? {u : Universe} {heap : Heap} {c : ContextId} {t : ContextName}
    (h : u.contextName? heap c = some t) : u.contexts.table.Has c := Table.has_of_name h

theorem has_of_objName? {u : Universe} {heap : Heap} {h : QObjId} {o : ObjName}
    (e : u.objName? heap h = some o) : u.objs.Has h := Table.has_of_name e

section Sizes

variable (wf : p.WellFormed) (hv : Valid p σ s)
include wf hv

/-! ## Tables -/

/-- There are no more contexts than sequences of the allowed length. -/
theorem Valid.contexts_le :
    s.world.contexts.table.size ≤ Sensitivity.base p ^ σ.depth := by
  -- a context is coded by its name, which is allowed
  have hname : ∀ c es, s.world.contexts.table.get? c = some es →
      ∃ t, s.heap.elemNames? es = some t ∧ σ.Allows p t := by
    intro c es hes
    obtain ⟨t, ht, hf⟩ := hv.rows.named.contexts c es hes
    exact ⟨t, ht, hf.fits wf⟩
  refine Table.size_le_of_code
    (fun es => contextCode (Sensitivity.base p) ((s.heap.elemNames? es).getD [])) ?_ ?_
  · intro c es hes
    obtain ⟨t, ht, hlength, hadmits⟩ := hname c es hes
    rw [ht]
    calc contextCode (Sensitivity.base p) t
        < Sensitivity.base p ^ t.length :=
          contextCode_lt fun e he => Sensitivity.index_lt_of_admits (hadmits e he)
      _ ≤ Sensitivity.base p ^ σ.depth :=
          Nat.pow_le_pow_right (by unfold Sensitivity.base; omega) hlength
  · -- contexts with one code have one name, and so one handle
    intro c c' es es' hes hes' e
    obtain ⟨t, ht, -, hadmits⟩ := hname c es hes
    obtain ⟨t', ht', -, hadmits'⟩ := hname c' es' hes'
    rw [ht, ht'] at e
    obtain rfl := Sensitivity.contextCode_inj hadmits hadmits' e
    obtain rfl := hv.rows.faithful.elems_inj ht ht'
    exact hv.rows.faithful.contexts c c' es hes hes'

/-- There are no more methods under contexts than pairs of a context and a method. -/
theorem Valid.methods_le :
    s.world.methods.size ≤ s.world.contexts.table.size * p.methods.size := by
  apply Table.size_le_mul hv.rows.faithful.methods
  -- the row has a name, so its context is in the pool, and the method fits the program
  intro h q hq
  obtain ⟨t, m, hn, hf⟩ := hv.rows.named.methods h q hq
  obtain ⟨hc, rfl⟩ := Universe.keyName?_eq_some.1 hn
  exact ⟨has_of_contextName? hc, (hf.fits wf).2⟩

omit wf in
/-- There is one object for each allocation statement at most. -/
theorem Valid.heap_le : s.heap.objects.size ≤ p.stmts.size := by
  apply Table.size_le_of_code (fun obj => obj.site.index)
  · exact fun o obj hobj => has_of_allocates (hv.rows.heap o obj hobj).1
  · exact fun o o' obj obj' ho ho' e => hv.rows.faithful.heap o o' obj obj' ho ho' (Handle.ext e)

omit wf in
/-- There are no more objects under heap contexts than pairs of a context and a statement. -/
theorem Valid.objs_le : s.world.objs.size ≤ s.world.contexts.table.size * p.stmts.size := by
  -- first with the heap in place of the statements
  refine Nat.le_trans (Table.size_le_mul (b := s.heap.objects.size) hv.rows.faithful.objs
    fun h q hq => ?_) (Nat.mul_le_mul_left _ hv.heap_le)
  obtain ⟨o, hn, -⟩ := hv.rows.named.objs h q hq
  obtain ⟨hc, obj, hobj, -⟩ := Universe.objKeyName?_eq_some.1 hn
  exact ⟨has_of_contextName? hc, Table.has_of_get? hobj⟩

/-- There are no more pointers than codes for them. -/
theorem Valid.pointers_le :
    s.world.pointers.size ≤ s.world.contexts.table.size * p.vars.size + p.fields.size +
      s.world.objs.size * p.fields.size + s.world.objs.size := by
  -- keys are made of handles of rows
  have hparts : ∀ h key, s.world.pointers.get? h = some key →
      key.HasParts s.world.contexts.table.size p.vars.size p.fields.size s.world.objs.size := by
    intro h key hkey
    obtain ⟨x, hn, hf⟩ := hv.rows.named.pointers h key hkey
    have hfits := hf.fits wf
    cases key with
    | var c v =>
      obtain ⟨t, ht, rfl⟩ := Option.map_eq_some_iff.1 hn
      exact ⟨has_of_contextName? ht, hfits.2⟩
    | staticField f =>
      cases hn
      exact hfits
    | instanceField b f =>
      obtain ⟨o, ho, rfl⟩ := Option.map_eq_some_iff.1 hn
      exact ⟨has_of_objName? ho, hfits.2⟩
    | arrayElems b =>
      obtain ⟨o, ho, rfl⟩ := Option.map_eq_some_iff.1 hn
      exact has_of_objName? ho
  apply Table.size_le_of_code
    (Pointer.code s.world.contexts.table.size p.vars.size p.fields.size s.world.objs.size)
  · intro h key hkey
    exact Pointer.code_lt (hparts h key hkey)
  · intro h h' key key' hkey hkey' e
    obtain rfl := Pointer.code_inj (hparts h key hkey) (hparts h' key' hkey') e
    exact hv.rows.faithful.pointers h h' key hkey hkey'

/-! ## Lists -/

/-- Reachable methods are listed once, so there are no more of them than methods under contexts. -/
theorem Valid.reachable_le :
    s.calls.reachable.length ≤ s.world.contexts.table.size * p.methods.size := by
  refine Nat.le_trans ?_ (hv.methods_le wf)
  apply Table.length_le_of_nodup hv.nodup
  intro h hh
  obtain ⟨n, hn⟩ := hv.reachable h hh
  obtain ⟨q, hq, -⟩ := Option.bind_eq_some_iff.1 hn
  exact Table.has_of_get? hq

omit wf in
/-- A set holds each object once, so it is no larger than the table of objects. -/
theorem Valid.set_le {h : PointerId} {set : PointsTo} (hset : s.world.sets.get? h = some set) :
    set.size ≤ s.world.objs.size := by
  apply Table.length_le_of_nodup (hv.ascending h set hset).nodup
  intro q hq
  obtain ⟨x, o, -, ho, -⟩ := hv.holds h q ⟨set, hset, hq⟩
  exact has_of_objName? ho

omit wf in
/-- A pointer has each successor once. -/
theorem Valid.successors_le (h : PointerId) :
    (s.flow.successorsOf h).length ≤ s.world.pointers.size := by
  apply Table.length_le_of_nodup (hv.counted.nodup h)
  intro b hb
  obtain ⟨x, y, -, hy, -⟩ := hv.flow h b (FlowGraph.hasEdge_iff.2 hb)
  obtain ⟨key, hkey, -⟩ := Option.bind_eq_some_iff.1 hy
  exact Table.has_of_get? hkey

end Sizes

end Solver

end PointerAnalysis
