import PointerAnalysis.Proofs.Table
import PointerAnalysis.Universe

/-!
# A universe that grows

A universe interns objects, call sites, methods and pointers in tables of their own.  The table of
pointers has company: a set for each pointer and the pointers of each variable are written when a
pointer is new, and only then.

## Main definitions

- `Universe.Extends`: a later universe continues an earlier one.
- `Universe.VarsIndexed`: the index lists the pointers of each variable.

## Main statements

- `Universe.pointer_cases`: what a request for a pointer does.
- `Universe.VarsIndexed.pointer`: the index stays in step.
-/

namespace PointerAnalysis

namespace Universe

/-! ## Growth -/

/-- The later universe `u'` continues every table of `u` but the sets. -/
structure Extends (u u' : Universe) : Prop where
  contexts : u.contexts.table.Extends u'.contexts.table
  objs : u.objs.Extends u'.objs
  sites : u.sites.Extends u'.sites
  methods : u.methods.Extends u'.methods
  pointers : u.pointers.Extends u'.pointers

theorem Extends.refl (u : Universe) : u.Extends u :=
  ⟨.refl _, .refl _, .refl _, .refl _, .refl _⟩

theorem Extends.trans {u u' u'' : Universe} (h : u.Extends u') (h' : u'.Extends u'') :
    u.Extends u'' :=
  ⟨h.contexts.trans h'.contexts, h.objs.trans h'.objs, h.sites.trans h'.sites,
    h.methods.trans h'.methods, h.pointers.trans h'.pointers⟩

/-! ## Pointers -/

/-- Interning a location finds it, or else adds it with an empty set. -/
theorem pointer_cases (u : Universe) (key : Pointer) :
    (∃ h, u.pointers.get? h = some key ∧ u.pointer key = (h, u)) ∨
      (∀ h, u.pointers.get? h ≠ some key) ∧ u.pointer key = (u.pointers.next,
        { u with
          pointers := u.pointers.push key
          sets := u.sets.push .empty
          ofVar := match key with
            | .var _ v => u.ofVar.add v u.pointers.next
            | _ => u.ofVar }) := by
  unfold pointer findPointer?
  -- the search through the rows decides whether the location is new
  cases hfind : u.pointers.find? fun k => k = key with
  | some h =>
    obtain ⟨key', hkey', hp⟩ := Table.get?_find? hfind
    obtain rfl : key' = key := of_decide_eq_true hp
    exact Or.inl ⟨h, hkey', rfl⟩
  | none =>
    refine Or.inr ⟨fun h hh => ?_, rfl⟩
    simpa using Table.find?_eq_none hfind hh

/-- The answer to a request for a location is the handle of a row for it. -/
theorem get?_pointer (u : Universe) (key : Pointer) :
    (u.pointer key).2.pointers.get? (u.pointer key).1 = some key := by
  rcases u.pointer_cases key with ⟨h, hh, e⟩ | ⟨-, e⟩
  · rw [e]
    exact hh
  · rw [e]
    exact (Table.get?_push ..).trans (if_pos rfl)

/-- A request for a location adds no other row. -/
theorem get?_pointer_cases {u : Universe} {key k : Pointer} {h : PointerId}
    (hk : (u.pointer key).2.pointers.get? h = some k) : u.pointers.get? h = some k ∨ k = key := by
  rcases u.pointer_cases key with ⟨h, -, e⟩ | ⟨-, e⟩
  · rw [e] at hk
    exact Or.inl hk
  · rw [e] at hk
    exact (Table.get?_push_cases hk).imp id And.right

/-- Interning a location changes no other table. -/
theorem pointer_frame (u : Universe) (key : Pointer) :
    (u.pointer key).2.methods = u.methods ∧ (u.pointer key).2.sites = u.sites ∧
      (u.pointer key).2.contexts = u.contexts ∧ (u.pointer key).2.objs = u.objs := by
  rcases u.pointer_cases key with ⟨h, -, e⟩ | ⟨-, e⟩
  · rw [e]
    exact ⟨rfl, rfl, rfl, rfl⟩
  · rw [e]
    exact ⟨rfl, rfl, rfl, rfl⟩

/-- Rows keep their handles when a location is interned. -/
theorem extends_pointer (u : Universe) (key : Pointer) : u.Extends (u.pointer key).2 := by
  rcases u.pointer_cases key with ⟨h, -, e⟩ | ⟨-, e⟩
  · rw [e]
    exact .refl u
  · rw [e]
    exact { Extends.refl u with pointers := Table.extends_push _ _ }

end Universe

/-! ## The pointers of a variable -/

/-- The pointers of a variable among some rows. -/
def pointersAmong (entries : List (PointerId × Pointer)) (v : VarId) : List PointerId :=
  entries.filterMap fun (h, key) => if key.var?.map Prod.snd = some v then some h else none

/-- A pointer is one of a variable if its row has the variable, under any context. -/
theorem mem_pointersAmong {entries : List (PointerId × Pointer)} {v : VarId} {h : PointerId} :
    h ∈ pointersAmong entries v ↔ ∃ c, (h, Pointer.var c v) ∈ entries := by
  simp only [pointersAmong, List.mem_filterMap, Prod.exists, Option.ite_none_right_eq_some,
    Option.some.injEq]
  constructor
  · intro hmem
    obtain ⟨h', key, hkey, hv, rfl⟩ := hmem
    cases key with
    | var c w =>
      obtain rfl : w = v := by simpa [Pointer.var?] using hv
      exact ⟨c, hkey⟩
    | _ => simp [Pointer.var?] at hv
  · intro hmem
    obtain ⟨c, hkey⟩ := hmem
    exact ⟨h, _, hkey, rfl, rfl⟩

/-- One row more is one pointer more for its variable. -/
theorem pointersAmong_concat (entries : List (PointerId × Pointer)) (h : PointerId)
    (key : Pointer) (v : VarId) : pointersAmong (entries ++ [(h, key)]) v =
      pointersAmong entries v ++ if key.var?.map Prod.snd = some v then [h] else [] := by
  simp only [pointersAmong, List.filterMap_append, List.filterMap_cons, List.filterMap_nil]
  split_ifs <;> rfl

/-- The index of a universe lists the pointers of each variable, ascending. -/
def Universe.VarsIndexed (u : Universe) : Prop :=
  ∀ v, u.ofVar.get v = pointersAmong u.pointers.entries v

namespace Universe

variable {u : Universe}

/-- The index stays in step with the table when a location is interned. -/
theorem VarsIndexed.pointer (hu : u.VarsIndexed) (key : Pointer) :
    (u.pointer key).2.VarsIndexed := by
  rcases u.pointer_cases key with ⟨h, -, e⟩ | ⟨-, e⟩
  · rw [e]
    exact hu
  · rw [e]
    intro v
    show Multimap.get _ v = pointersAmong (u.pointers.push key).entries v
    rw [Table.entries_push, pointersAmong_concat, ← hu]
    -- the new pointer comes last in the list of its variable
    cases key with
    | var c w =>
      dsimp only [Pointer.var?, Option.map_some]
      rw [Multimap.get_add]
      by_cases e : v = w
      · simp [e]
      · simp [e, Ne.symm e]
    | staticField f => simp [Pointer.var?]
    | instanceField base f => simp [Pointer.var?]
    | arrayElems base => simp [Pointer.var?]

/-- The index finds all pointers of a variable, and no others. -/
theorem VarsIndexed.mem (hu : u.VarsIndexed) {v : VarId} {h : PointerId} :
    h ∈ u.ofVar.get v ↔ ∃ c, u.pointers.get? h = some (.var c v) := by
  rw [hu, mem_pointersAmong]
  simp only [Table.mem_entries]

/-- The pointers of a variable are listed in the order of their handles. -/
theorem VarsIndexed.ascending (hu : u.VarsIndexed) (v : VarId) :
    (u.pointersOf v).Pairwise (· < ·) := by
  rw [show u.pointersOf v = pointersAmong u.pointers.entries v from hu v]
  exact u.pointers.ascending_select fun key => key.var?.map Prod.snd = some v

/-- No pointer is listed twice. -/
theorem VarsIndexed.nodup (hu : u.VarsIndexed) (v : VarId) : (u.pointersOf v).Nodup :=
  (hu.ascending v).imp fun {x y} hlt (e : x = y) => Nat.lt_irrefl y.index (e ▸ hlt)

end Universe

end PointerAnalysis
