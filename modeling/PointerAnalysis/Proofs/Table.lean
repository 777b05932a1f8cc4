import Mathlib.Combinatorics.Enumerative.DoubleCounting
import Mathlib.Data.Finset.Card
import Mathlib.Order.Interval.Finset.Nat
import PointerAnalysis.Table

/-!
# Interning

Interning keeps the rows of a table distinct, leaves every row where it is, and answers with the
handle of the row it was asked for.  So a table of distinct rows is a numbering of the values met so
far, and a later table continues an earlier one.

## Main definitions

- `Table.Distinct`: no value has two handles.
- `Table.Extends`: a later table begins with the rows of an earlier one.
- `Table.All`: every row has a property.
- `Table.KeyedBy`: no two rows have the same key.

## Main statements

- `get?_intern`: the answer of `intern` names the interned row.
- `Distinct.intern`, `All.intern`, `extends_intern`: what interning keeps.
- `size_le_of_code`: rows with different codes below `n` are at most `n`.
- `size_le_of_names`: a table is no larger than another one with the same names.
-/

namespace PointerAnalysis.Table

variable {k : Kind} {α : Type}

/-! ## Rows -/

/-- Every row has a property. -/
def All (t : Table k α) (P : α → Prop) : Prop := ∀ h a, t.get? h = some a → P a

/-- No value has two handles. -/
def Distinct (t : Table k α) : Prop := ∀ h h' a, t.get? h = some a → t.get? h' = some a → h = h'

/-- The later table `t'` begins with the rows of `t`. -/
def Extends (t t' : Table k α) : Prop := t.toList <+: t'.toList

/-- A handle is a position in the list of rows. -/
theorem get?_eq_toList (t : Table k α) (h : Handle k) : t.get? h = t.toList[h.index]? := by
  simp [get?, toList]

theorem length_toList (t : Table k α) : t.toList.length = t.size := by
  simp [toList, size]

/-- The rows are what can be read under some handle. -/
theorem mem_toList {t : Table k α} {a : α} : a ∈ t.toList ↔ ∃ h, t.get? h = some a := by
  rw [List.mem_iff_getElem?]
  constructor
  · rintro ⟨n, hn⟩
    exact ⟨⟨n⟩, (t.get?_eq_toList _).trans hn⟩
  · rintro ⟨h, hh⟩
    exact ⟨h.index, (t.get?_eq_toList h).symm.trans hh⟩

/-- A table is the list of its rows. -/
theorem toList_injective : Function.Injective (toList : Table k α → List α) := fun _ _ e =>
  congrArg Table.mk (Array.toList_inj.1 e)

theorem exists_get? {t : Table k α} {h : Handle k} (hh : t.Has h) : ∃ a, t.get? h = some a :=
  Option.ne_none_iff_exists'.1 fun e => get?_eq_none_iff.1 e hh

theorem get?_empty (h : Handle k) : ({} : Table k α).get? h = none := rfl

/-- The next handle names no row yet. -/
theorem get?_next (t : Table k α) : t.get? t.next = none := by
  rw [get?_eq_none_iff]
  exact Nat.lt_irrefl _

theorem mem_handles {t : Table k α} {h : Handle k} : h ∈ t.handles ↔ t.Has h := by
  constructor
  · intro hmem
    obtain ⟨i, hi, rfl⟩ := List.mem_map.1 hmem
    exact List.mem_range.1 hi
  · exact fun hh => List.mem_map.2 ⟨h.index, List.mem_range.2 hh, rfl⟩

theorem nodup_handles (t : Table k α) : t.handles.Nodup :=
  List.nodup_range.map fun _ _ h => congrArg Handle.index h

/-- What is read after a row is added was there before, or it is the new row. -/
theorem get?_push_cases {t : Table k α} {a b : α} {h : Handle k}
    (e : (t.push a).get? h = some b) : t.get? h = some b ∨ h = t.next ∧ b = a := by
  rw [get?_push] at e
  split at e
  · exact Or.inr ⟨‹_›, (Option.some.inj e).symm⟩
  · exact Or.inl e

theorem has_push {t : Table k α} {a : α} {h : Handle k} :
    (t.push a).Has h ↔ t.Has h ∨ h = t.next := by
  rw [Has, size_push, Nat.lt_succ_iff, Nat.le_iff_lt_or_eq]
  exact or_congr_right ⟨fun e => Handle.ext e, congrArg Handle.index⟩

/-- A row that is changed keeps its handle. -/
theorem has_modify {t : Table k α} {h h' : Handle k} {f : α → α} :
    (t.modify h f).Has h' ↔ t.Has h' := by
  rw [Has, size_modify, Has]

/-- Only the row that is changed is read differently. -/
theorem get?_modify (t : Table k α) (h h' : Handle k) (f : α → α) :
    (t.modify h f).get? h' = if h' = h then (t.get? h).map f else t.get? h' := by
  by_cases e : h' = h
  · subst e
    simp [get?, modify, Array.getElem?_modify]
  · have : h.index ≠ h'.index := fun c => e (Handle.ext c.symm)
    simp [get?, modify, Array.getElem?_modify, e, this]

/-! ## Names of rows -/

section Names

variable {β : Type} {t : Table k α} {name : α → Option β} {h : Handle k}

/-- A handle that has a name is the handle of a row. -/
theorem has_of_name {n : β} (e : (t.get? h).bind name = some n) : t.Has h := by
  obtain ⟨a, ha, -⟩ := Option.bind_eq_some_iff.1 e
  exact has_of_get? ha

/-- If all rows have names with a property then whatever a handle names has it. -/
theorem All.of_name {P : β → Prop} (hall : t.All fun a => ∃ n, name a = some n ∧ P n) {n : β}
    (e : (t.get? h).bind name = some n) : P n := by
  obtain ⟨a, ha, hn⟩ := Option.bind_eq_some_iff.1 e
  obtain ⟨n', hn', hP⟩ := hall h a ha
  exact Option.some.inj (hn'.symm.trans hn) ▸ hP

/-- If every row has a name then every handle of a row has one. -/
theorem All.exists_name (hall : t.All fun a => ∃ n, name a = some n) (hh : t.Has h) :
    ∃ n, (t.get? h).bind name = some n := by
  obtain ⟨a, ha⟩ := exists_get? hh
  obtain ⟨n, hn⟩ := hall h a ha
  exact ⟨n, Option.bind_eq_some_iff.2 ⟨a, ha, hn⟩⟩

end Names

/-! ## Extension -/

theorem Extends.refl (t : Table k α) : t.Extends t := List.prefix_refl _

theorem Extends.trans {t t' t'' : Table k α} (h : t.Extends t') (h' : t'.Extends t'') :
    t.Extends t'' := List.IsPrefix.trans h h'

/-- Rows are read under the same handles from a later table. -/
theorem Extends.get? {t t' : Table k α} (e : t.Extends t') {h : Handle k} {a : α}
    (ha : t.get? h = some a) : t'.get? h = some a := by
  rw [get?_eq_toList] at ha ⊢
  obtain ⟨later, hl⟩ := e
  rw [← hl, List.getElem?_append_left (List.getElem?_eq_some_iff.1 ha).1]
  exact ha

/-- A handle of a row stays one. -/
theorem Extends.has {t t' : Table k α} (e : t.Extends t') {h : Handle k} (hh : t.Has h) :
    t'.Has h := by
  obtain ⟨a, ha⟩ := exists_get? hh
  exact has_of_get? (e.get? ha)

theorem extends_push (t : Table k α) (a : α) : t.Extends (t.push a) :=
  ⟨[a], (toList_push t a).symm⟩

/-! ## Searching -/

/-- The first row among the last `n` is found if any of them satisfies the test. -/
private theorem findAmongLast_isSome {rows : Array α} {p : α → Bool} {n i : Nat} {a : α}
    (hn : n ≤ rows.size) (hi : rows.size - n ≤ i) (ha : rows[i]? = some a) (hp : p a = true) :
    (findAmongLast rows p n).isSome = true := by
  induction n with
  | zero =>
    have := (Array.getElem?_eq_some_iff.1 ha).1
    omega
  | succ n ih =>
    rw [findAmongLast]
    have hlt : rows.size - (n + 1) < rows.size := by omega
    rw [Array.getElem?_eq_getElem hlt]
    -- the row is the first of those left, or it comes later
    by_cases e : i = rows.size - (n + 1)
    · subst e
      rw [Array.getElem?_eq_getElem hlt] at ha
      simp [Option.some.inj ha, hp]
    · dsimp only
      split
      · rfl
      · exact ih (by omega) (by omega)

/-- A search that fails has met no row that satisfies the test. -/
theorem find?_eq_none {t : Table k α} {p : α → Bool} (e : t.find? p = none) {h : Handle k} {a : α}
    (ha : t.get? h = some a) : p a = false := by
  -- if there were one, then the search would have come to it at the latest
  by_contra hp
  have hs := findAmongLast_isSome (Nat.le_refl _) (by simp) ha (Bool.not_eq_false _ ▸ hp)
  simp only [find?, Option.map_eq_none_iff, size] at e
  simp [e] at hs

/-- If no value has two handles, the search for a value finds its handle. -/
theorem Distinct.find?_eq_some_iff [DecidableEq α] {t : Table k α} (ht : t.Distinct)
    {h : Handle k} {a : α} : t.find? (fun b => b = a) = some h ↔ t.get? h = some a := by
  constructor
  · intro e
    obtain ⟨b, hb, hp⟩ := get?_find? e
    rwa [of_decide_eq_true hp] at hb
  · intro ha
    cases e : t.find? (fun b => b = a) with
    | none => simpa using find?_eq_none e ha
    | some h' =>
      obtain ⟨b, hb, hp⟩ := get?_find? e
      rw [of_decide_eq_true hp] at hb
      rw [ht h' h a hb ha]

/-! ## Interning -/

/-- A value that is not in the table may be added. -/
theorem Distinct.push {t : Table k α} (ht : t.Distinct) {a : α} (ha : ∀ h, t.get? h ≠ some a) :
    (t.push a).Distinct := by
  intro h h' b hb hb'
  -- both handles are old, both are the new one, or the row was there already
  rcases get?_push_cases hb with hb | ⟨rfl, rfl⟩ <;>
    rcases get?_push_cases hb' with hb' | ⟨rfl, e⟩
  · exact ht h h' b hb hb'
  · exact absurd (e ▸ hb) (ha h)
  · exact absurd hb' (ha h')
  · rfl

section Intern

variable [DecidableEq α]

/-- Interning finds the row, or else adds it under the next handle. -/
theorem intern_cases (t : Table k α) (a : α) :
    (∃ h, t.get? h = some a ∧ t.intern a = (h, t)) ∨
      ((∀ h, t.get? h ≠ some a) ∧ t.intern a = (t.next, t.push a)) := by
  unfold intern
  cases e : t.find? (fun b => b = a) with
  | some h =>
    obtain ⟨b, hb, hp⟩ := get?_find? e
    exact Or.inl ⟨h, by simpa [of_decide_eq_true hp] using hb, rfl⟩
  | none =>
    refine Or.inr ⟨fun h hh => ?_, rfl⟩
    simpa using find?_eq_none e hh

/-- Asking for a row that is there changes nothing. -/
theorem intern_eq_of_get? {t : Table k α}
    (ht : t.Distinct) {h : Handle k} {a : α} (ha : t.get? h = some a) : t.intern a = (h, t) := by
  rcases t.intern_cases a with ⟨h', hh', e⟩ | ⟨hnone, -⟩
  · rw [e, ht _ _ _ ha hh']
  · exact absurd ha (hnone h)

/-- The answer of `intern` names the interned row. -/
theorem get?_intern (t : Table k α) (a : α) : (t.intern a).2.get? (t.intern a).1 = some a := by
  rcases t.intern_cases a with ⟨h, hh, e⟩ | ⟨-, e⟩
  · rw [e]; exact hh
  · rw [e, get?_push, if_pos rfl]

/-- Interning adds no row but the one that is asked for. -/
theorem get?_intern_cases {t : Table k α} {a b : α} {h : Handle k}
    (e : (t.intern a).2.get? h = some b) : t.get? h = some b ∨ b = a := by
  rcases t.intern_cases a with ⟨_, -, ei⟩ | ⟨-, ei⟩
  · rw [ei] at e; exact Or.inl e
  · rw [ei] at e; exact (get?_push_cases e).imp id And.right

/-- Rows keep their handles when one is interned. -/
theorem extends_intern (t : Table k α) (a : α) : t.Extends (t.intern a).2 := by
  rcases t.intern_cases a with ⟨_, -, e⟩ | ⟨-, e⟩
  · rw [e]; exact .refl t
  · rw [e]; exact extends_push t a

theorem All.intern {t : Table k α} {P : α → Prop} (hP : t.All P) {a : α} (ha : P a) :
    (t.intern a).2.All P := fun h b hb =>
  (get?_intern_cases hb).elim (hP h b) (fun e => e ▸ ha)

/-- No value gets a second handle by being interned. -/
theorem Distinct.intern {t : Table k α} (ht : t.Distinct) (a : α) : (t.intern a).2.Distinct := by
  rcases t.intern_cases a with ⟨_, -, e⟩ | ⟨ha, e⟩
  · rw [e]; exact ht
  · rw [e]; exact ht.push ha

end Intern

section All

variable {t : Table k α} {P Q : α → Prop}

theorem All.mono (h : ∀ a, P a → Q a) (hP : t.All P) : t.All Q := fun i a ha => h a (hP i a ha)

/-- A new row that has the property spoils nothing. -/
theorem All.push (hP : t.All P) {a : α} (ha : P a) : (t.push a).All P := fun h b hb =>
  (get?_push_cases hb).elim (hP h b) fun e => e.2 ▸ ha

/-- Changing a row does not matter as long as the change keeps the property. -/
theorem All.modify (hP : t.All P) (h : Handle k) {f : α → α} (hf : ∀ a, P a → P (f a)) :
    (t.modify h f).All P := by
  intro h' b hb
  rw [get?_modify] at hb
  split at hb
  · obtain ⟨a, ha, rfl⟩ := Option.map_eq_some_iff.1 hb
    exact hf a (hP h a ha)
  · exact hP h' b hb

end All

theorem all_empty (P : α → Prop) : ({} : Table k α).All P := fun _ _ e => by
  rw [get?_empty] at e
  cases e

theorem distinct_empty : ({} : Table k α).Distinct := fun _ _ _ e => by
  rw [get?_empty] at e
  cases e

/-! ## Keys of rows -/

section Keys

variable {β : Type} {t : Table k α} {key : α → β}

/-- No two rows have the same key. -/
def KeyedBy (t : Table k α) (key : α → β) : Prop :=
  ∀ h h' a a', t.get? h = some a → t.get? h' = some a' → key a = key a' → h = h'

theorem keyedBy_empty (key : α → β) : ({} : Table k α).KeyedBy key := by
  intro h h' a a' ha
  cases ha

/-- A row with a new key may be added. -/
theorem KeyedBy.push (ht : t.KeyedBy key) {a : α} (ha : ∀ h b, t.get? h = some b → key b ≠ key a) :
    (t.push a).KeyedBy key := by
  intro h h' b b' hb hb' e
  -- a row with the key of the new one is the new one
  rcases get?_push_cases hb with hold | ⟨rfl, rfl⟩
  · rcases get?_push_cases hb' with hold' | ⟨-, rfl⟩
    · exact ht h h' b b' hold hold' e
    · exact absurd e (ha h b hold)
  · rcases get?_push_cases hb' with hold' | ⟨rfl, -⟩
    · exact absurd e.symm (ha h' b' hold')
    · rfl

/-- A row may change as long as its key stays. -/
theorem KeyedBy.modify (ht : t.KeyedBy key) (h₀ : Handle k) {f : α → α}
    (hf : ∀ a, key (f a) = key a) : (t.modify h₀ f).KeyedBy key := by
  -- every row of the changed table has the key of the row that was there before
  have hold : ∀ h b, (t.modify h₀ f).get? h = some b → ∃ a, t.get? h = some a ∧ key b = key a := by
    intro h b hb
    rw [get?_modify] at hb
    split at hb
    · rename_i e
      obtain ⟨a, ha, rfl⟩ := Option.map_eq_some_iff.1 hb
      exact ⟨a, e ▸ ha, hf a⟩
    · exact ⟨b, hb, rfl⟩
  intro h h' b b' hb hb' e
  obtain ⟨a, ha, hk⟩ := hold h b hb
  obtain ⟨a', ha', hk'⟩ := hold h' b' hb'
  exact ht h h' a a' ha ha' (hk.symm.trans (e.trans hk'))

/-- Rows have different keys if the keys are listed without repetition. -/
theorem keyedBy_of_nodup (h : (t.toList.map key).Nodup) : t.KeyedBy key := by
  intro i j a b ha hb e
  rw [get?_eq_toList] at ha hb
  have hi : (t.toList.map key)[i.index]? = some (key a) := by simp [ha]
  have hj : (t.toList.map key)[j.index]? = some (key a) := by simp [hb, e]
  obtain ⟨hlt, -⟩ := List.getElem?_eq_some_iff.1 hi
  exact Handle.ext ((List.getElem?_inj hlt h).1 (hi.trans hj.symm))

/-- No value has two handles if the rows are listed without repetition. -/
theorem distinct_of_nodup (h : t.toList.Nodup) : t.Distinct := by
  have hkeys : t.KeyedBy id := keyedBy_of_nodup (by rwa [List.map_id])
  exact fun i j a hi hj => hkeys i j a a hi hj rfl

end Keys

/-! ## Rows with their handles -/

/-- A row is listed with the handle under which it is read. -/
theorem mem_entries {t : Table k α} {h : Handle k} {a : α} :
    (h, a) ∈ t.entries ↔ t.get? h = some a := by
  rw [get?_eq_toList]
  simp only [entries, List.mem_map, Prod.mk.injEq, Prod.exists, List.mem_zipIdx_iff_getElem?]
  constructor
  · intro hx
    obtain ⟨b, i, hb, rfl, rfl⟩ := hx
    exact hb
  · intro e; exact ⟨a, h.index, e, rfl, rfl⟩

theorem length_entries (t : Table k α) : t.entries.length = t.size := by
  simp [entries, length_toList]

theorem entries_push (t : Table k α) (a : α) :
    (t.push a).entries = t.entries ++ [(t.next, a)] := by
  simp [entries, List.zipIdx_append, next, length_toList]

/-- The rows stand in the order of their handles. -/
theorem ascending_entries (t : Table k α) :
    t.entries.Pairwise fun x y => x.1 < y.1 := by
  rw [List.pairwise_iff_getElem]
  intro i j hi hj hij
  simpa [entries, Handle.lt_def] using hij

/-- The rows have different handles. -/
theorem pairwise_entries (t : Table k α) :
    t.entries.Pairwise fun x y => x.1 ≠ y.1 := by
  refine t.ascending_entries.imp fun {x y} hlt e => ?_
  rw [e] at hlt
  exact Nat.lt_irrefl y.1.index hlt

/-- The handles of the rows that pass a test are selected in order. -/
theorem ascending_select (t : Table k α) (test : α → Prop)
    [DecidablePred test] :
    (t.entries.filterMap fun (h, a) => if test a then some h else none).Pairwise (· < ·) := by
  refine List.pairwise_filterMap.2 (t.ascending_entries.imp fun {x y} hlt h hh h' hh' => ?_)
  obtain ⟨-, hx⟩ := Option.ite_none_right_eq_some.1 hh
  obtain ⟨-, hy⟩ := Option.ite_none_right_eq_some.1 hh'
  rwa [← Option.some.inj hx, ← Option.some.inj hy]

/-! ## Counting -/

/-- A table whose rows have different codes below `n` has at most `n` rows. -/
theorem size_le_of_code {t : Table k α} {n : Nat} (code : α → Nat)
    (hlt : ∀ h a, t.get? h = some a → code a < n)
    (hinj : ∀ h h' a a', t.get? h = some a → t.get? h' = some a' → code a = code a' → h = h') :
    t.size ≤ n := by
  -- the code of the row at a position
  let codeAt : Nat → Nat := fun i => ((t.get? ⟨i⟩).map code).getD 0
  have hcode : ∀ i ∈ Finset.range t.size, ∃ a, t.get? ⟨i⟩ = some a ∧ codeAt i = code a := by
    intro i hi
    obtain ⟨a, ha⟩ := exists_get? (t := t) (h := ⟨i⟩) (Finset.mem_range.1 hi)
    exact ⟨a, ha, by simp [codeAt, ha]⟩
  -- the codes are a map into the numbers below `n` that identifies nothing
  rw [← Finset.card_range t.size, ← Finset.card_range n]
  apply Finset.card_le_card_of_injOn codeAt
  · intro i hi
    obtain ⟨a, ha, e⟩ := hcode i hi
    rw [e]
    exact Finset.mem_coe.2 (Finset.mem_range.2 (hlt _ _ ha))
  · intro i hi j hj hij
    obtain ⟨a, ha, e⟩ := hcode i hi
    obtain ⟨a', ha', e'⟩ := hcode j hj
    exact congrArg Handle.index (hinj _ _ _ _ ha ha' (e ▸ e' ▸ hij))

/-- A table of which the rows have names, all different, is no larger than a table with rows of all
these names. -/
theorem size_le_of_names {k' : Kind} {α' β : Type} {t : Table k α} {t' : Table k' α'}
    (name : α → Option β) (name' : α' → Option β)
    (hnamed : ∀ h, t.Has h → ∃ n, (t.get? h).bind name = some n)
    (hinj : ∀ h h' n, (t.get? h).bind name = some n → (t.get? h').bind name = some n → h = h')
    (hsub : ∀ n, (∃ h, (t.get? h).bind name = some n) →
      ∃ h', (t'.get? h').bind name' = some n) : t.size ≤ t'.size := by
  -- positions are related when their rows have the same name
  let Same : Nat → Nat → Prop := fun i j =>
    ∃ n, (t.get? ⟨i⟩).bind name = some n ∧ (t'.get? ⟨j⟩).bind name' = some n
  rw [← Finset.card_range t.size, ← Finset.card_range t'.size]
  apply Finset.card_le_card_of_forall_subsingleton Same
  · intro i hi
    obtain ⟨n, hn⟩ := hnamed ⟨i⟩ (Finset.mem_range.1 hi)
    obtain ⟨h', hn'⟩ := hsub n ⟨⟨i⟩, hn⟩
    obtain ⟨a', ha', -⟩ := Option.bind_eq_some_iff.1 hn'
    exact ⟨h'.index, Finset.mem_range.2 (has_of_get? ha'), n, hn, hn'⟩
  · intro j hj i hi i' hi'
    obtain ⟨n, hn, hj⟩ := hi.2
    obtain ⟨n', hn', hj'⟩ := hi'.2
    obtain rfl := Option.some.inj (hj.symm.trans hj')
    exact congrArg Handle.index (hinj _ _ n hn hn')

/-- Different handles of rows are no more than the rows. -/
theorem length_le_of_nodup {t : Table k α} {hs : List (Handle k)} (hnodup : hs.Nodup)
    (hhas : ∀ h ∈ hs, t.Has h) : hs.length ≤ t.size := by
  -- the positions are different numbers below the size
  have hle : (hs.map Handle.index).length ≤ (List.range t.size).length := by
    refine List.Subperm.length_le (List.subperm_of_subset ?_ fun i hi => ?_)
    · exact hnodup.map fun a b e => Handle.ext e
    · obtain ⟨h, hh, rfl⟩ := List.mem_map.1 hi
      exact List.mem_range.2 (hhas h hh)
  rwa [List.length_map, List.length_range] at hle

end PointerAnalysis.Table
