import PointerAnalysis.Proofs.Interning
import PointerAnalysis.Proofs.Outcome
import PointerAnalysis.Proofs.Universe

/-!
# A universe under any requests

Objects, call sites, methods and pointers are requested in any order, and the sets of the pointers
are changed in between.  Each table then numbers the keys that were requested of it, whatever was
requested of the others; and the tables beside that of the pointers have kept in step with it: each
pointer has one set, which shows just the changes that were made at that pointer.

## Main definitions

- `Universe.Request`: what is asked of a universe, and how it is served.
- `Universe.Records`: what a universe has in it after some requests.
- `Universe.Answers`: the handles that a universe answers with.

## Main statements

- `Records.serve`: a request that is served is recorded after the others.
- `exists_serve_iff`: only a change at a pointer that has not been met is not served.
- `records_of_after`: a universe records the requests, and old handles keep their meaning.
-/

namespace PointerAnalysis.Universe

/-! ## Requests -/

/-- What is asked of a universe. -/
inductive Request where
  | obj (q : Qualified ObjId)
  | site (q : Qualified StmtId)
  | method (q : Qualified MethodId)
  | pointer (key : Pointer)
  /-- A change of the set of a pointer, of whatever sort; to absorb objects is one. -/
  | change (h : PointerId) (f : PointsTo → PointsTo)

/-- The universe goes on after a request. -/
def Request.serve (u : Universe) : Request → Outcome Universe
  | obj q => pure (u.obj q).2
  | site q => pure (u.site q).2
  | method q => pure (u.method q).2
  | pointer key => pure (u.pointer key).2
  | change h f => do
    let set ← u.setOf h
    return { u with sets := u.sets.modify h fun _ => f set }

/-- The universe after some requests, if each of them is served. -/
def after (u : Universe) (requests : List Request) : Outcome Universe :=
  requests.foldlM Request.serve u

namespace Request

/-- The object that is requested. -/
def obj? : Request → Option (Qualified ObjId)
  | obj q => some q
  | _ => none

/-- The call site that is requested. -/
def site? : Request → Option (Qualified StmtId)
  | site q => some q
  | _ => none

/-- The method that is requested. -/
def method? : Request → Option (Qualified MethodId)
  | method q => some q
  | _ => none

/-- The location that is requested. -/
def pointer? : Request → Option Pointer
  | pointer key => some key
  | _ => none

/-- The change that is made at a pointer. -/
def changeAt? (h : PointerId) : Request → Option (PointsTo → PointsTo)
  | change h' f => if h' = h then some f else none
  | _ => none

end Request

/-- The set of a pointer after the changes that some requests make at it; it begins empty. -/
def setAfter (requests : List Request) (h : PointerId) : PointsTo :=
  (requests.filterMap (Request.changeAt? h)).foldl (fun set f => f set) .empty

variable {u u' : Universe} {requests : List Request} {r : Request}

theorem has_sets_iff (hsizes : u.sets.size = u.pointers.size) {h : PointerId} :
    u.sets.Has h ↔ u.pointers.Has h := by
  rw [Table.Has, Table.Has, hsizes]

/-- Only a change at a pointer that has not been met is not served. -/
theorem exists_serve_iff (hsizes : u.sets.size = u.pointers.size) :
    (∃ u', r.serve u = .ok u') ↔ ∀ h f, r = .change h f → u.pointers.Has h := by
  cases r with
  | change h f =>
    constructor
    · rintro ⟨u', e⟩ h' f' hr
      cases hr
      obtain ⟨set, hset, -⟩ := Outcome.bind_eq_ok.1 e
      exact (has_sets_iff hsizes).1 (Table.has_of_get? (Outcome.ofRow_eq_ok.1 hset))
    · intro hmet
      obtain ⟨set, hset⟩ := Table.exists_get? ((has_sets_iff hsizes).2 (hmet h f rfl))
      exact ⟨_, Outcome.bind_eq_ok.2 ⟨set, Outcome.ofRow_eq_ok.2 hset, rfl⟩⟩
  | _ => exact iff_of_true ⟨_, rfl⟩ fun _ _ e => by cases e

/-! ## Numbered keys -/

/-- A table goes on with the key that a request has for it. -/
theorem numbers_concat {k : Kind} {α : Type} [DecidableEq α] {t : Table k α}
    {key? : Request → Option α} (h : t.Numbers (requests.filterMap key?)) (r : Request) :
    ((key? r).elim t fun a => (t.intern a).2).Numbers ((requests ++ [r]).filterMap key?) := by
  rw [List.filterMap_append]
  cases e : key? r with
  | none => simpa [e] using h
  | some a => simpa [e] using h.intern a

theorem pointers_pointer (u : Universe) (key : Pointer) :
    (u.pointer key).2.pointers = (u.pointers.intern key).2 := by
  unfold pointer findPointer? Table.intern
  cases u.pointers.find? fun k => k = key <;> rfl

/-- Each table is given just the keys that are requested of it. -/
theorem tables_of_serve (h : r.serve u = .ok u') :
    u'.objs = r.obj?.elim u.objs (fun q => (u.objs.intern q).2) ∧
      u'.sites = r.site?.elim u.sites (fun q => (u.sites.intern q).2) ∧
      u'.methods = r.method?.elim u.methods (fun q => (u.methods.intern q).2) ∧
      u'.pointers = r.pointer?.elim u.pointers (fun key => (u.pointers.intern key).2) ∧
      u'.contexts = u.contexts := by
  cases r with
  | pointer key =>
    obtain rfl := Outcome.pure_eq_ok.1 h
    obtain ⟨hmethods, hsites, hcontexts, hobjs⟩ := u.pointer_frame key
    exact ⟨hobjs, hsites, hmethods, u.pointers_pointer key, hcontexts⟩
  | change h' f =>
    obtain ⟨set, -, h⟩ := Outcome.bind_eq_ok.1 h
    obtain rfl := Outcome.pure_eq_ok.1 h
    exact ⟨rfl, rfl, rfl, rfl, rfl⟩
  | _ =>
    obtain rfl := Outcome.pure_eq_ok.1 h
    exact ⟨rfl, rfl, rfl, rfl, rfl⟩

theorem extends_elim {k : Kind} {α : Type} [DecidableEq α] (t : Table k α) (a : Option α) :
    t.Extends (a.elim t fun a => (t.intern a).2) := by
  cases a with
  | none => exact .refl t
  | some a => exact Table.extends_intern t a

/-- A request that is served takes no handle away. -/
theorem extends_of_serve (h : r.serve u = .ok u') : u.Extends u' := by
  obtain ⟨hobjs, hsites, hmethods, hpointers, hcontexts⟩ := tables_of_serve h
  exact ⟨hcontexts ▸ .refl _, hobjs ▸ extends_elim _ _, hsites ▸ extends_elim _ _,
    hmethods ▸ extends_elim _ _, hpointers ▸ extends_elim _ _⟩

theorem extends_after {later : List Request} (h : u.after later = .ok u') : u.Extends u' :=
  Outcome.foldlM_preserves (P := u.Extends) (fun _ _ _ hr hold => hold.trans (extends_of_serve hr)) h
    (.refl u)

/-! ## Sets and the index -/

/-- A set stays the same as long as its pointer is not changed. -/
theorem setAfter_append_of_unchanged {later : List Request} {h : PointerId}
    (hnone : ∀ f, Request.change h f ∉ later) :
    setAfter (requests ++ later) h = setAfter requests h := by
  have hlater : later.filterMap (Request.changeAt? h) = [] := by
    refine List.filterMap_eq_nil_iff.2 fun r hr => ?_
    cases r with
    | change h' f => exact if_neg fun e : h' = h => hnone f (e ▸ hr)
    | _ => rfl
  rw [setAfter, List.filterMap_append, hlater, List.append_nil, setAfter]

/-- The tables beside that of the pointers are in step with it after some requests. -/
structure Accompanied (u : Universe) (requests : List Request) : Prop where
  sizes : u.sets.size = u.pointers.size
  /-- The set of a pointer shows the changes at it, and no others. -/
  sets : ∀ h, u.pointers.Has h → u.setOf h = .ok (setAfter requests h)
  /-- Only pointers that had been met were changed. -/
  changed : ∀ h f, Request.change h f ∈ requests → u.pointers.Has h
  vars : u.VarsIndexed

theorem accompanied_empty : ({} : Universe).Accompanied [] where
  sizes := rfl
  sets _ hh := absurd hh (Nat.not_lt_zero _)
  changed _ _ hf := absurd hf List.not_mem_nil
  vars _ := rfl

theorem setAfter_concat (requests : List Request) (r : Request) (h : PointerId) :
    setAfter (requests ++ [r]) h =
      (r.changeAt? h).elim (setAfter requests h) fun f => f (setAfter requests h) := by
  rw [setAfter, List.filterMap_append, List.foldl_append]
  cases e : r.changeAt? h <;> simp [e, setAfter]

/-- A pointer that has not been met has not been changed. -/
theorem Accompanied.setAfter_of_new (hu : u.Accompanied requests) {h : PointerId}
    (hh : ¬ u.pointers.Has h) : setAfter requests h = .empty := by
  show setAfter ([] ++ requests) h = setAfter [] h
  exact setAfter_append_of_unchanged fun f hf => hh (hu.changed h f hf)

/-- A request that changes no set and meets no new pointer keeps the tables in step. -/
theorem Accompanied.frame (hu : u.Accompanied requests) (hr : ∀ h f, r ≠ .change h f)
    (hpointers : u'.pointers = u.pointers) (hsets : u'.sets = u.sets) (hofVar : u'.ofVar = u.ofVar) :
    u'.Accompanied (requests ++ [r]) where
  sizes := by rw [hsets, hpointers, hu.sizes]
  sets h hh := by
    have hnone : r.changeAt? h = none := by
      cases r with
      | change h' f => exact absurd rfl (hr h' f)
      | _ => rfl
    rw [setAfter_concat, hnone, setOf, hsets]
    exact hu.sets h (hpointers ▸ hh)
  changed h f hmem := by
    rcases List.mem_append.1 hmem with hmem | hmem
    · exact hpointers ▸ hu.changed h f hmem
    · exact absurd (List.mem_singleton.1 hmem).symm (hr h f)
  vars v := by
    rw [hofVar, hpointers]
    exact hu.vars v

/-- A new pointer comes with an empty set, and is listed under its variable. -/
theorem Accompanied.pointer (hu : u.Accompanied requests) (key : Pointer) :
    (u.pointer key).2.Accompanied (requests ++ [.pointer key]) := by
  have hvars := hu.vars.pointer key
  rcases u.pointer_cases key with ⟨h, -, e⟩ | ⟨-, e⟩
  · rw [e]
    exact hu.frame nofun rfl rfl rfl
  · rw [e] at hvars ⊢
    have hnext : u.sets.next = u.pointers.next := congrArg Handle.mk hu.sizes
    refine ⟨?_, fun h hh => ?_, fun h f hmem => ?_, hvars⟩
    · rw [Table.size_push, Table.size_push, hu.sizes]
    · refine Outcome.ofRow_eq_ok.2 ((Table.get?_push ..).trans ?_)
      rw [hnext, setAfter_concat]
      split
      · -- nothing has been done to the new pointer yet
        rename_i hnew
        subst hnew
        exact congrArg some (hu.setAfter_of_new (Nat.lt_irrefl _)).symm
      · rename_i hold
        refine Outcome.ofRow_eq_ok.1 (hu.sets h ?_)
        exact (Table.has_push.1 hh).resolve_right hold
    · rcases List.mem_append.1 hmem with hmem | hmem
      · exact Table.has_push.2 (Or.inl (hu.changed h f hmem))
      · exact nomatch List.mem_singleton.1 hmem

/-- A change at a pointer reaches its own set only. -/
theorem Accompanied.change (hu : u.Accompanied requests) {h : PointerId} {f : PointsTo → PointsTo}
    (e : (Request.change h f).serve u = .ok u') : u'.Accompanied (requests ++ [.change h f]) := by
  obtain ⟨set, hset, e⟩ := Outcome.bind_eq_ok.1 e
  obtain rfl := Outcome.pure_eq_ok.1 e
  have hh : u.pointers.Has h :=
    (has_sets_iff hu.sizes).1 (Table.has_of_get? (Outcome.ofRow_eq_ok.1 hset))
  refine ⟨?_, fun h' hh' => ?_, fun h' f' hmem => ?_, hu.vars⟩
  · exact (Table.size_modify ..).trans hu.sizes
  · have hold := hu.sets h' hh'
    refine Outcome.ofRow_eq_ok.2 ((Table.get?_modify ..).trans ?_)
    rw [setAfter_concat, Request.changeAt?]
    -- only the history of the changed pointer grows
    by_cases heq : h' = h
    · subst heq
      obtain rfl := Except.ok.inj (hset.symm.trans hold)
      simp [Outcome.ofRow_eq_ok.1 hset]
    · rw [if_neg heq, if_neg (Ne.symm heq)]
      exact Outcome.ofRow_eq_ok.1 hold
  · rcases List.mem_append.1 hmem with hmem | hmem
    · exact hu.changed h' f' hmem
    · cases List.mem_singleton.1 hmem
      exact hh

theorem Accompanied.serve (hu : u.Accompanied requests) (e : r.serve u = .ok u') :
    u'.Accompanied (requests ++ [r]) := by
  cases r with
  | pointer key => exact Outcome.pure_eq_ok.1 e ▸ hu.pointer key
  | change h f => exact hu.change e
  | _ =>
    obtain rfl := Outcome.pure_eq_ok.1 e
    exact hu.frame nofun rfl rfl rfl

/-! ## What is recorded -/

/-- A universe records some requests: its tables number the keys that were requested of them, and
the tables beside that of the pointers are in step with it. -/
structure Records (u : Universe) (requests : List Request) : Prop where
  objs : u.objs.Numbers (requests.filterMap Request.obj?)
  sites : u.sites.Numbers (requests.filterMap Request.site?)
  methods : u.methods.Numbers (requests.filterMap Request.method?)
  pointers : u.pointers.Numbers (requests.filterMap Request.pointer?)
  accompanied : u.Accompanied requests

theorem records_empty : ({} : Universe).Records [] :=
  ⟨Table.numbers_nil, Table.numbers_nil, Table.numbers_nil, Table.numbers_nil, accompanied_empty⟩

/-- A request that is served is recorded after the others. -/
theorem Records.serve (hu : u.Records requests) (e : r.serve u = .ok u') :
    u'.Records (requests ++ [r]) := by
  obtain ⟨hobjs, hsites, hmethods, hpointers, -⟩ := tables_of_serve e
  exact ⟨hobjs ▸ numbers_concat hu.objs r, hsites ▸ numbers_concat hu.sites r,
    hmethods ▸ numbers_concat hu.methods r, hpointers ▸ numbers_concat hu.pointers r,
    hu.accompanied.serve e⟩

theorem Records.after (hu : u.Records requests) {later : List Request} (e : u.after later = .ok u') :
    u'.Records (requests ++ later) := by
  induction later generalizing u requests with
  | nil => simpa using Except.ok.inj e ▸ hu
  | cons r later ih =>
    rw [Universe.after, List.foldlM_cons] at e
    obtain ⟨u₁, h₁, e⟩ := Outcome.bind_eq_ok.1 e
    simpa using ih (hu.serve h₁) e

/-! ## Answers -/

/-- What a universe answers.  A known key has its handle and nothing is written; a new key gets a
handle that means just this key.  A new pointer has an empty set, and no other set changes. -/
structure Answers (u : Universe) : Prop where
  obj : ∀ q, (u.obj q).2.objAt (u.obj q).1 = .ok q ∧
    ∀ h, u.findObj? q = some h → u.obj q = (h, u)
  site : ∀ q, (u.site q).2.siteAt (u.site q).1 = .ok q ∧
    ∀ h, u.siteAt h = .ok q → u.site q = (h, u)
  method : ∀ q, (u.method q).2.methodAt (u.method q).1 = .ok q ∧
    ∀ h, u.findMethod? q = some h → u.method q = (h, u)
  pointer : ∀ key, (u.pointer key).2.pointerAt (u.pointer key).1 = .ok key ∧
    ∀ h, u.findPointer? key = some h → u.pointer key = (h, u)
  fresh : ∀ key, u.findPointer? key = none →
    (u.pointer key).2.setOf (u.pointer key).1 = .ok .empty
  others : ∀ key h, u.pointers.Has h → (u.pointer key).2.setOf h = u.setOf h
  /-- The pointers of a variable under any context are listed in the order of their handles. -/
  pointersOf : ∀ v, (u.pointersOf v).Pairwise (· < ·) ∧
    ∀ h, h ∈ u.pointersOf v ↔ ∃ c, u.pointerAt h = .ok (.var c v)

/-- What a universe records decides what it answers. -/
theorem Records.answers (hu : u.Records requests) : u.Answers where
  obj q := by
    refine ⟨Outcome.ofRow_eq_ok.2 (Table.get?_intern u.objs q), fun h hh => ?_⟩
    rw [obj, Table.intern_eq_of_get? hu.objs.distinct ((hu.objs.find?_iff q h).1 hh)]
  site q := by
    refine ⟨Outcome.ofRow_eq_ok.2 (Table.get?_intern u.sites q), fun h hh => ?_⟩
    rw [site, Table.intern_eq_of_get? hu.sites.distinct (Outcome.ofRow_eq_ok.1 hh)]
  method q := by
    refine ⟨Outcome.ofRow_eq_ok.2 (Table.get?_intern u.methods q), fun h hh => ?_⟩
    rw [method, Table.intern_eq_of_get? hu.methods.distinct ((hu.methods.find?_iff q h).1 hh)]
  pointer key := by
    refine ⟨Outcome.ofRow_eq_ok.2 (u.get?_pointer key), fun h hh => ?_⟩
    rw [pointer, hh]
  fresh key hnew := by
    rcases u.pointer_cases key with ⟨h, hh, -⟩ | ⟨-, e⟩
    · exact nomatch hnew.symm.trans ((hu.pointers.find?_iff key h).2 hh)
    · -- a pointer and its set get the same handle, since both tables have the same size
      have hnext : u.pointers.next = u.sets.next := congrArg Handle.mk hu.accompanied.sizes.symm
      rw [e, hnext]
      exact Outcome.ofRow_eq_ok.2 ((Table.get?_push ..).trans (if_pos rfl))
  others key h hh := by
    have hset := (hu.accompanied.pointer key).sets h ((u.extends_pointer key).pointers.has hh)
    rw [hset, setAfter_concat, hu.accompanied.sets h hh]
    rfl
  pointersOf v := by
    refine ⟨hu.accompanied.vars.ascending v, fun h => ?_⟩
    simp only [pointerAt, Outcome.ofRow_eq_ok]
    exact hu.accompanied.vars.mem

/-- A universe records the requests it has served, and answers any others.  Whatever is requested
later, its handles keep their meaning, and the set of a pointer stays the same until the pointer is
changed. -/
theorem records_of_after (requests : List Request) (h : ({} : Universe).after requests = .ok u) :
    u.Records requests ∧ u.Answers ∧
      (∀ r : Request, (∃ u', r.serve u = .ok u') ↔ ∀ h f, r = .change h f → u.pointers.Has h) ∧
      ∀ later u', u.after later = .ok u' → u.Extends u' ∧ ∀ h, u.pointers.Has h →
        (∀ f, Request.change h f ∉ later) → u'.setOf h = u.setOf h := by
  have hu : u.Records requests := records_empty.after h
  refine ⟨hu, hu.answers, fun r => exists_serve_iff hu.accompanied.sizes, fun later u' e => ?_⟩
  have hext := extends_after e
  refine ⟨hext, fun h hh hnone => ?_⟩
  rw [hu.accompanied.sets h hh, (hu.after e).accompanied.sets h (hext.pointers.has hh),
    setAfter_append_of_unchanged hnone]

/-- A variable is met under two contexts and an object is put into its first pointer; the array that
is met in between has no part in it. -/
theorem records_after_growth :
    ∃ requests u, ({} : Universe).after requests = .ok u ∧ u.pointersOf ⟨3⟩ = [⟨0⟩, ⟨2⟩] ∧
      u.sets.toList = [⟨[⟨0⟩]⟩, ⟨[]⟩, ⟨[]⟩] ∧ u.Records requests := by
  let requests : List Request := [.pointer (.var .empty ⟨3⟩), .obj ⟨.empty, ⟨2⟩⟩,
    .pointer (.arrayElems ⟨0⟩), .pointer (.var ⟨1⟩ ⟨3⟩), .change ⟨0⟩ fun set => (set.insert ⟨0⟩).2,
    .pointer (.var .empty ⟨3⟩)]
  exact ⟨requests, _, rfl, rfl, rfl, (records_of_after requests rfl).1⟩

end PointerAnalysis.Universe
