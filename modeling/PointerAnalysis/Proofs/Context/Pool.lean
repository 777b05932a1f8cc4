import PointerAnalysis.Proofs.Context.Policy
import PointerAnalysis.Proofs.Interning

/-!
# A pool keeps the contexts apart

Contexts are compared by their handles, so a pool must give equal sequences one handle and different
sequences different ones, and a handle must mean the same as long as the pool is used.  This holds
after any requests, also where a request takes a shortcut and interns nothing.

## Main definitions

- `LastOf`: the last elements of a sequence, as a suffix of a certain length.
- `ContextPool.Request`: what is asked of a pool, with what it answers and which sequence it means.
- `ContextPool.Stores`: a pool goes on with a sequence in it, and nothing else has changed.
- `ContextPool.Faithful`: handles and sequences correspond, and every request is served.

## Main statements

- `Numbered.answer`, `Numbered.after`: the sequences stay numbered.
- `Numbered.exists_answer`: a request is answered with the handle of the sequence that it means.
- `faithful_of_after`: a pool is faithful after any requests, and old handles keep their meaning.
-/

namespace PointerAnalysis

/-! ## Last elements -/

/-- The last `limit` elements of a sequence, or all if there are no more of them. -/
structure LastOf {α : Type} (limit : Nat) (all es : List α) : Prop where
  suffix : es <:+ all
  length : es.length = min limit all.length

section LastOf

variable {α : Type} {limit : Nat} {all es : List α}

/-- The elements that `lastElems` keeps are the last ones. -/
theorem lastOf_lastElems (limit : Nat) (all : List α) : LastOf limit all (lastElems limit all) where
  suffix := List.drop_suffix _ _
  length := by
    rw [lastElems, List.length_drop]
    omega

/-- There is just one suffix of a length. -/
theorem LastOf.eq_lastElems (h : LastOf limit all es) : es = lastElems limit all := by
  have hlast := lastOf_lastElems limit all
  have hle : es.length ≤ (lastElems limit all).length := by rw [h.length, hlast.length]
  exact (List.suffix_of_suffix_length_le h.suffix hlast.suffix hle).eq_of_length
    (h.length.trans hlast.length.symm)

end LastOf

namespace ContextPool

/-! ## Requests -/

/-- What is asked of a pool. -/
inductive Request where
  | intern (es : List ContextElem)
  | append (c : ContextId) (e : ContextElem) (limit : Nat)
  | truncate (c : ContextId) (limit : Nat)

/-- The answer of a pool, and the pool that it goes on with. -/
def Request.answer (pool : ContextPool) : Request → Outcome (ContextId × ContextPool)
  | intern es => pure (pool.intern es)
  | append c e limit => pool.append c e limit
  | truncate c limit => pool.truncate c limit

/-- A request names only contexts of the pool. -/
def Request.Valid (pool : ContextPool) : Request → Prop
  | intern _ => True
  | append c _ _ | truncate c _ => pool.table.Has c

/-- The sequence that a request asks for. -/
inductive Request.Means (pool : ContextPool) : Request → List ContextElem → Prop where
  | intern (es : List ContextElem) : Means pool (.intern es) es
  | append {c : ContextId} {es last : List ContextElem} {e : ContextElem} {limit : Nat}
      (hc : pool.elems c = .ok es) (hlast : LastOf limit (es ++ [e]) last) :
      Means pool (.append c e limit) last
  | truncate {c : ContextId} {es last : List ContextElem} {limit : Nat}
      (hc : pool.elems c = .ok es) (hlast : LastOf limit es last) :
      Means pool (.truncate c limit) last

/-- The pool after some requests, if each of them is answered. -/
def after (pool : ContextPool) (requests : List Request) : Outcome ContextPool :=
  requests.foldlM (fun pool r => Prod.snd <$> r.answer pool) pool

variable {pool pool' : ContextPool} {c : ContextId} {es : List ContextElem} {r : Request}

theorem elems_eq_ok : pool.elems c = .ok es ↔ pool.table.get? c = some es := Outcome.ofRow_eq_ok

/-- A request asks for a sequence just if it is valid. -/
theorem Request.valid_iff : r.Valid pool ↔ ∃ es, r.Means pool es := by
  -- only the context that is to be extended or shortened has to be there
  cases r with
  | intern es => exact iff_of_true trivial ⟨es, .intern es⟩
  | append c e limit =>
    constructor
    · intro hc
      obtain ⟨es, hes⟩ := Table.exists_get? hc
      exact ⟨_, .append (elems_eq_ok.2 hes) (lastOf_lastElems _ _)⟩
    · rintro ⟨_, hr⟩
      cases hr with
      | append hc _ => exact Table.has_of_get? (elems_eq_ok.1 hc)
  | truncate c limit =>
    constructor
    · intro hc
      obtain ⟨es, hes⟩ := Table.exists_get? hc
      exact ⟨_, .truncate (elems_eq_ok.2 hes) (lastOf_lastElems _ _)⟩
    · rintro ⟨_, hr⟩
      cases hr with
      | truncate hc _ => exact Table.has_of_get? (elems_eq_ok.1 hc)

/-- A pool only ever changes by interning a sequence. -/
theorem Request.answer_cases (h : r.answer pool = .ok (c, pool')) :
    pool' = pool ∨ ∃ es, pool' = (pool.intern es).2 := by
  cases r with
  | intern es => exact Or.inr ⟨es, (congrArg Prod.snd (Outcome.pure_eq_ok.1 h)).symm⟩
  | append c e limit => exact append_cases h
  | truncate c limit => exact truncate_cases h

/-- A pool that has answered a request has what it had. -/
theorem extends_answer (h : r.answer pool = .ok (c, pool')) : pool.table.Extends pool'.table := by
  rcases r.answer_cases h with rfl | ⟨es, rfl⟩
  · exact .refl _
  · exact Table.extends_intern _ _

/-- Whatever is asked, the handles that were there keep their sequences. -/
theorem extends_after {requests : List Request} (h : pool.after requests = .ok pool') :
    pool.table.Extends pool'.table := by
  refine Outcome.foldlM_preserves (P := fun pool' => pool.table.Extends pool'.table)
    (fun pool₁ r pool₂ hr hold => ?_) h (.refl _)
  obtain ⟨⟨c, pool₂⟩, hanswer, rfl⟩ := Outcome.map_eq_ok.1 hr
  exact hold.trans (extends_answer hanswer)

/-! ## Numbered sequences -/

/-- The sequences of a pool are numbered, the empty sequence first. -/
def Numbered (pool : ContextPool) : Prop := ∃ seqs, pool.table.Numbers ([] :: seqs)

theorem numbered_initial : ({} : ContextPool).Numbered := ⟨[], Table.numbers_of_toList rfl⟩

/-- To intern a sequence keeps the sequences numbered. -/
theorem Numbered.intern (h : pool.Numbered) (es : List ContextElem) : (pool.intern es).2.Numbered :=
  h.imp' (· ++ [es]) fun _ hseqs => hseqs.intern es

/-- To answer a request keeps the sequences numbered. -/
theorem Numbered.answer (h : pool.Numbered) (e : r.answer pool = .ok (c, pool')) :
    pool'.Numbered := by
  rcases r.answer_cases e with rfl | ⟨es, rfl⟩
  · exact h
  · exact h.intern es

/-- After any requests the sequences are numbered. -/
theorem Numbered.after {requests : List Request} (h : pool.Numbered)
    (e : pool.after requests = .ok pool') : pool'.Numbered := by
  refine Outcome.foldlM_preserves (fun pool₁ r pool₂ hr hold => ?_) e h
  obtain ⟨⟨c, pool₂⟩, hanswer, rfl⟩ := Outcome.map_eq_ok.1 hr
  exact hold.answer hanswer

/-- The empty sequence has the handle zero, since it was there first. -/
theorem Numbered.get?_empty (h : pool.Numbered) : pool.table.get? ContextId.empty = some [] := by
  obtain ⟨seqs, hseqs⟩ := h
  exact hseqs.get?_first

theorem Numbered.distinct (h : pool.Numbered) : pool.table.Distinct := by
  obtain ⟨seqs, hseqs⟩ := h
  exact hseqs.distinct

/-! ## Answers -/

/-- The pool goes on with a sequence under a handle.  It is the pool from before if the sequence is
there already, and otherwise has the sequence as one row more. -/
structure Stores (pool : ContextPool) (es : List ContextElem) (c : ContextId)
    (pool' : ContextPool) : Prop where
  elems : pool'.elems c = .ok es
  kept : ∀ c' es', pool.elems c' = .ok es' → pool'.elems c' = .ok es'
  known : (∃ c', pool.elems c' = .ok es) → pool' = pool
  new : (∀ c', pool.elems c' ≠ .ok es) →
    pool'.size = pool.size + 1 ∧ pool'.table.toList = pool.table.toList ++ [es]

/-- To intern a sequence is to go on with it, and to change nothing else. -/
theorem Numbered.stores_intern (h : pool.Numbered) (es : List ContextElem) :
    pool.Stores es (pool.intern es).1 (pool.intern es).2 where
  elems := elems_eq_ok.2 (Table.get?_intern _ _)
  kept c' es' hc' := elems_eq_ok.2 ((Table.extends_intern _ _).get? (elems_eq_ok.1 hc'))
  known := by
    rintro ⟨c', hc'⟩
    rw [intern_eq_of_get? h.distinct (elems_eq_ok.1 hc')]
  new hnew := by
    rcases pool.table.intern_cases es with ⟨c', hc', -⟩ | ⟨-, e⟩
    · exact absurd (elems_eq_ok.2 hc') (hnew c')
    · rw [ContextPool.intern, e]
      exact ⟨Table.size_push _ _, Table.toList_push _ _⟩

/-- A request is answered by interning the sequence that it means. -/
theorem Numbered.answer_eq (h : pool.Numbered) (hr : r.Means pool es) :
    r.answer pool = .ok (pool.intern es) := by
  cases hr with
  | intern es => rfl
  -- the request has a shortcut in which nothing is interned, and the sequence is there then
  | append hc hlast =>
    rw [hlast.eq_lastElems]
    exact append_eq h.distinct h.get?_empty (elems_eq_ok.1 hc) _ _
  | truncate hc hlast =>
    rw [hlast.eq_lastElems]
    exact truncate_eq h.distinct (elems_eq_ok.1 hc) _

/-- Handles and sequences correspond, the handle zero to the empty sequence, and every valid request
is answered with the handle of the sequence that it means. -/
structure Faithful (pool : ContextPool) : Prop where
  empty : pool.elems .empty = .ok []
  distinct : ∀ c c', pool.table.Has c → (pool.elems c = pool.elems c' ↔ c = c')
  nodup : pool.table.toList.Nodup
  numbered : pool.Numbered
  valid : ∀ r : Request, r.Valid pool ↔ ∃ es, r.Means pool es
  answers : ∀ (r : Request) es, r.Means pool es →
    ∃ c pool', r.answer pool = .ok (c, pool') ∧ pool.Stores es c pool'

/-- In a pool that numbers its sequences, handles and sequences correspond. -/
theorem Numbered.faithful (h : pool.Numbered) : pool.Faithful where
  empty := elems_eq_ok.2 h.get?_empty
  distinct c c' hc := by
    obtain ⟨es, hes⟩ := Table.exists_get? hc
    refine ⟨fun e => ?_, fun e => e ▸ rfl⟩
    rw [elems_eq_ok.2 hes] at e
    exact h.distinct c c' es hes (elems_eq_ok.1 e.symm)
  nodup := by
    obtain ⟨seqs, hseqs⟩ := h
    exact hseqs.rows ▸ nodup_eraseDups _
  numbered := h
  valid _ := Request.valid_iff
  answers _ es hr := ⟨_, _, h.answer_eq hr, h.stores_intern es⟩

/-- A pool is faithful after any requests, and the handles that it has then keep their sequences
whatever is asked later. -/
theorem faithful_of_after (requests : List Request) (h : ({} : ContextPool).after requests = .ok pool) :
    pool.Faithful ∧ ∀ later pool', pool.after later = .ok pool' →
      ∀ c es, pool.elems c = .ok es → pool'.elems c = .ok es :=
  ⟨(numbered_initial.after h).faithful, fun _ _ hlater _ _ hc =>
    elems_eq_ok.2 ((extends_after hlater).get? (elems_eq_ok.1 hc))⟩

/-- A chain of calls is cut down to two sites, and contexts of two sites are cut down to one. -/
theorem faithful_after_calls :
    ∃ requests pool, ({} : ContextPool).after requests = .ok pool ∧
      pool.table.toList = [[], [.site ⟨1⟩], [.site ⟨1⟩, .site ⟨2⟩], [.site ⟨2⟩, .site ⟨3⟩],
        [.site ⟨3⟩]] ∧ pool.Faithful := by
  let requests : List Request := [.append .empty (.site ⟨1⟩) 2, .append ⟨1⟩ (.site ⟨2⟩) 2,
    .append ⟨2⟩ (.site ⟨3⟩) 2, .truncate ⟨3⟩ 1, .intern [.site ⟨1⟩], .append ⟨3⟩ (.site ⟨3⟩) 0]
  exact ⟨requests, _, rfl, rfl, (faithful_of_after requests rfl).1⟩

end ContextPool

end PointerAnalysis
