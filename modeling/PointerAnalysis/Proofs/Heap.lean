import Mathlib.Logic.Function.Basic
import PointerAnalysis.Proofs.Program.Ownership

/-!
# One object for each allocation site

A heap makes an object when its allocation statement is first met, and finds it again whenever the
statement is met later.  To find it, the objects are indexed by their sites; the index and the table
of objects are written one after the other, and a request that fails writes neither.

## Main definitions

- `Heap.Orderly`: objects are numbered, made once for each site, and as the program describes them.
- `siteIndex`: the index of some objects by their sites, in which a later object wins.
- `Store`: objects with their index, as they are kept while requests are made.
- `Store.AnswersRequest`: what a request does to a store.

## Main statements

- `Orderly.objFor_cases`: the object of an allocation is answered, and any other request is denied.
- `Orderly.answer_of`: a store answers as the heap does, and keeps the index in step.
- `Store.answersRequest_after`: requests are answered this way after any sequence of requests.
-/

namespace PointerAnalysis

/-- The object is as the program describes it: it has the type that its site allocates, and belongs
to the method and the class in which the site stands. -/
structure Program.Describes (p : Program) (obj : Obj) : Prop where
  type : p.Allocates obj.site obj.type
  container : p.ownerOf obj.site = .ok obj.container
  containerClass : ∃ decl, p.methodAt obj.container = .ok decl ∧ decl.owner = obj.containerClass

namespace Heap

variable {p : Program} {heap heap' : Heap} {s : StmtId} {o : ObjId}

/-- Objects are numbered, there is one for each site, and each is as the program describes it. -/
structure Orderly (p : Program) (heap : Heap) : Prop where
  ids : ∀ o obj, heap.objects.get? o = some obj → obj.id = o
  sites : heap.objects.KeyedBy Obj.site
  described : heap.objects.All p.Describes

theorem orderly_empty (p : Program) : ({} : Heap).Orderly p where
  ids o obj h := by cases h
  sites := Table.keyedBy_empty _
  described := Table.all_empty _

/-! ## Requests to a heap -/

/-- An object is found if there is one for the site, made if the site is an allocation, and denied
otherwise. -/
theorem objFor_cases_of_wellFormed (wf : p.WellFormed) (heap : Heap) (s : StmtId) :
    (∃ o obj, heap.objects.get? o = some obj ∧ obj.site = s ∧ heap.objFor p s = .ok (o, heap)) ∨
    (∀ o obj, heap.objects.get? o = some obj → obj.site ≠ s) ∧
      ((∃ obj, obj.id = heap.objects.next ∧ obj.site = s ∧ p.Describes obj ∧
          heap.objFor p s = .ok (heap.objects.next, ⟨heap.objects.push obj⟩)) ∨
        (¬ ∃ type, p.Allocates s type) ∧ ∃ e, heap.objFor p s = .error e ∧
          (p.stmts.Has s → e = .error (.malformed (.notAllocation s)))) := by
  unfold objFor
  cases hfind : heap.objects.find? fun o => o.site = s with
  | some o =>
    obtain ⟨obj, hobj, hs⟩ := Table.get?_find? hfind
    exact Or.inl ⟨o, obj, hobj, of_decide_eq_true hs, rfl⟩
  | none =>
    refine Or.inr ⟨fun o obj hobj hs => ?_, ?_⟩
    · simpa [hs] using Table.find?_eq_none hfind hobj
    cases hsite : p.siteAt s with
    | error e =>
      -- the handle names no statement at all
      refine Or.inr ⟨?_, e, rfl, fun hhas => ?_⟩
      · rintro ⟨type, lhs, hstmt⟩
        rw [Program.stmtAt, hsite] at hstmt
        cases hstmt
      · obtain ⟨site, h⟩ := Program.exists_siteAt hhas
        rw [h] at hsite
        cases hsite
    | ok site =>
      have hstmt : p.stmtAt s = .ok site.stmt := by rw [Program.stmtAt, hsite]; rfl
      cases e : site.stmt with
      | alloc lhs type =>
        obtain ⟨decl, hdecl⟩ :=
          Program.exists_methodAt (wf.stmtMethod s site (Outcome.ofRow_eq_ok.1 hsite))
        refine Or.inl ⟨⟨heap.objects.next, s, type, site.method, decl.owner⟩, rfl, rfl,
          ⟨⟨lhs, e ▸ hstmt⟩, ?_, decl, hdecl, rfl⟩, ?_⟩
        · exact Program.ownerOf_eq_ok.2 ⟨site, Outcome.ofRow_eq_ok.1 hsite, rfl⟩
        · simp only [bind, Except.bind, e, hdecl]
          rfl
      | _ =>
        refine Or.inr ⟨?_, _, by simp only [bind, Except.bind, e]; rfl, fun _ => rfl⟩
        rintro ⟨type, lhs, h⟩
        rw [h, e] at hstmt
        cases hstmt

theorem extends_objFor (h : heap.objFor p s = .ok (o, heap')) :
    heap.objects.Extends heap'.objects := by
  unfold objFor at h
  split at h
  · obtain ⟨-, rfl⟩ := Prod.mk.inj (Outcome.pure_eq_ok.1 h)
    exact .refl _
  · obtain ⟨site, -, h⟩ := Outcome.bind_eq_ok.1 h
    split at h
    · obtain ⟨decl, -, h⟩ := Outcome.bind_eq_ok.1 h
      obtain ⟨-, rfl⟩ := Prod.mk.inj (Outcome.pure_eq_ok.1 h)
      exact Table.extends_push _ _
    · exact absurd h Outcome.defect_ne_ok

/-- An orderly heap stays so when an object is requested. -/
theorem Orderly.objFor (wf : p.WellFormed) (h : heap.Orderly p)
    (e : heap.objFor p s = .ok (o, heap')) : heap'.Orderly p := by
  rcases objFor_cases_of_wellFormed wf heap s with ⟨o', obj, -, -, e'⟩ |
    ⟨hnew, ⟨obj, hid, rfl, hd, e'⟩ | ⟨-, err, e', -⟩⟩
  · obtain ⟨-, rfl⟩ := Prod.mk.inj (Except.ok.inj (e.symm.trans e'))
    exact h
  · obtain ⟨-, rfl⟩ := Prod.mk.inj (Except.ok.inj (e.symm.trans e'))
    refine ⟨fun i row hrow => ?_, h.sites.push hnew, h.described.push hd⟩
    rcases Table.get?_push_cases hrow with hrow | ⟨rfl, rfl⟩
    · exact h.ids i row hrow
    · exact hid
  · cases e.symm.trans e'

/-- The object of an allocation is answered, and any other request is denied. -/
theorem Orderly.objFor_cases (wf : p.WellFormed) (h : heap.Orderly p) (s : StmtId) :
    (∃ o heap' obj, heap.objFor p s = .ok (o, heap') ∧ heap'.Orderly p ∧
      heap'.objects.get? o = some obj ∧ obj.site = s) ∨
    (¬ ∃ type, p.Allocates s type) ∧ ∃ e, heap.objFor p s = .error e ∧
      (p.stmts.Has s → e = .error (.malformed (.notAllocation s))) := by
  rcases objFor_cases_of_wellFormed wf heap s with ⟨o, obj, hobj, hs, e⟩ |
    ⟨-, ⟨obj, -, hs, -, e⟩ | hdenied⟩
  · exact Or.inl ⟨o, heap, obj, e, h, hobj, hs⟩
  · refine Or.inl ⟨_, _, obj, e, h.objFor wf e, ?_, hs⟩
    rw [Table.get?_push, if_pos rfl]
  · exact Or.inr hdenied

/-! ## The index by sites -/

/-- The index of some objects by their sites, in which a later object wins. -/
def siteIndex (objects : List Obj) : StmtId → Option ObjId :=
  objects.foldl (fun index obj => Function.update index obj.site (some obj.id)) fun _ => none

theorem siteIndex_concat (objects : List Obj) (obj : Obj) :
    siteIndex (objects ++ [obj]) =
      Function.update (siteIndex objects) obj.site (some obj.id) := by
  simp [siteIndex]

/-- The index finds one of the objects with a site, if there are any. -/
theorem siteIndex_cases (objects : List Obj) (s : StmtId) :
    (siteIndex objects s = none ∧ ∀ obj ∈ objects, obj.site ≠ s) ∨
      ∃ obj ∈ objects, obj.site = s ∧ siteIndex objects s = some obj.id := by
  -- the last object is looked at first
  induction objects using List.reverseRecOn with
  | nil => exact Or.inl ⟨rfl, fun obj h => absurd h List.not_mem_nil⟩
  | append_singleton objects obj ih =>
    rw [siteIndex_concat]
    by_cases hs : s = obj.site
    · subst hs
      exact Or.inr ⟨obj, by simp, rfl, Function.update_self ..⟩
    · rw [Function.update_of_ne hs]
      rcases ih with ⟨hnone, hne⟩ | ⟨obj', hmem, hsite, hsome⟩
      · refine Or.inl ⟨hnone, fun obj' hmem => ?_⟩
        rcases List.mem_append.1 hmem with hmem | hmem
        · exact hne obj' hmem
        · rw [List.mem_singleton.1 hmem]
          exact Ne.symm hs
      · exact Or.inr ⟨obj', List.mem_append_left _ hmem, hsite, hsome⟩

/-- In an orderly heap the index finds just the object of the site. -/
theorem Orderly.siteIndex_eq_some (h : heap.Orderly p) :
    siteIndex heap.objects.toList s = some o ↔
      ∃ obj, heap.objects.get? o = some obj ∧ obj.site = s := by
  rcases siteIndex_cases heap.objects.toList s with ⟨hnone, hne⟩ | ⟨obj, hobj, rfl, hsome⟩
  · rw [hnone]
    constructor
    · intro e
      cases e
    · rintro ⟨obj, hobj, hs⟩
      exact absurd hs (hne obj (Table.mem_toList.2 ⟨o, hobj⟩))
  · obtain ⟨i, hi⟩ := Table.mem_toList.1 hobj
    rw [hsome, h.ids i obj hi]
    constructor
    · intro e
      obtain rfl := Option.some.inj e
      exact ⟨obj, hi, rfl⟩
    · rintro ⟨obj', hobj', hs⟩
      -- there is one object for each site, so it is the one that was found
      exact congrArg some (h.sites i o obj obj' hi hobj' hs.symm)

/-- A search through the objects finds what the index finds. -/
theorem Orderly.find?_eq_siteIndex (h : heap.Orderly p) (s : StmtId) :
    heap.objects.find? (fun obj => obj.site = s) = siteIndex heap.objects.toList s := by
  cases hfind : heap.objects.find? fun obj => obj.site = s with
  | some o =>
    obtain ⟨obj, hobj, hs⟩ := Table.get?_find? hfind
    exact (h.siteIndex_eq_some.2 ⟨obj, hobj, of_decide_eq_true hs⟩).symm
  | none =>
    cases hindex : siteIndex heap.objects.toList s with
    | none => rfl
    | some o =>
      obtain ⟨obj, hobj, hs⟩ := h.siteIndex_eq_some.1 hindex
      simpa [hs] using Table.find?_eq_none hfind hobj

end Heap

/-! ## Stores -/

/-- Objects with an index by their sites. -/
structure Store where
  objects : Table .obj Obj := {}
  bySite : StmtId → Option ObjId := fun _ => none

namespace Store

/-- Answers a request for the object of a statement.  A request that fails leaves the store as it
is. -/
def answer (p : Program) (store : Store) (s : StmtId) : Outcome ObjId × Store :=
  match store.bySite s with
  | some o => (.ok o, store)
  | none =>
    match p.siteAt s with
    | .error e => (.error e, store)
    | .ok site =>
      match site.stmt with
      | .alloc _ type =>
        match p.methodAt site.method with
        | .error e => (.error e, store)
        | .ok decl =>
          let id := store.objects.next
          let obj : Obj :=
            { id, site := s, type, container := site.method, containerClass := decl.owner }
          (.ok id, ⟨store.objects.push obj, Function.update store.bySite s (some id)⟩)
      | _ => (.error (.error (.malformed (.notAllocation s))), store)

/-- The store after a sequence of requests, whatever their answers. -/
def after (p : Program) (store : Store) (requests : List StmtId) : Store :=
  requests.foldl (fun store s => (store.answer p s).2) store

/-- The objects of a heap with their index. -/
def of (heap : Heap) : Store where
  objects := heap.objects
  bySite := Heap.siteIndex heap.objects.toList

end Store

section Requests

variable {p : Program} {heap : Heap} {s : StmtId}

theorem Store.of_push {heap : Heap} {obj : Obj} :
    Store.of ⟨heap.objects.push obj⟩ = ⟨heap.objects.push obj,
      Function.update (Heap.siteIndex heap.objects.toList) obj.site (some obj.id)⟩ := by
  rw [Store.of, Table.toList_push, Heap.siteIndex_concat]

/-- A store answers as the heap does, and keeps the index in step with the objects. -/
theorem Heap.Orderly.answer_of (h : heap.Orderly p) (s : StmtId) :
    (Store.of heap).answer p s =
      match heap.objFor p s with
      | .ok (o, heap') => (.ok o, Store.of heap')
      | .error e => (.error e, Store.of heap) := by
  unfold Heap.objFor Store.answer
  -- the index by sites finds what a search of the table finds
  rw [h.find?_eq_siteIndex s]
  show (match siteIndex heap.objects.toList s with | some o => _ | none => _) = _
  cases siteIndex heap.objects.toList s with
  | some o => rfl
  | none =>
    cases p.siteAt s with
    | error e => rfl
    | ok site =>
      obtain ⟨stmt, m⟩ := site
      cases stmt with
      | alloc lhs type =>
        dsimp only [bind, Except.bind]
        cases p.methodAt m with
        | error e => rfl
        | ok decl => exact congrArg (Prod.mk _) Store.of_push.symm
      | _ => rfl

/-- A heap from which objects are requested grows, whatever the answers. -/
theorem Heap.Orderly.exists_after (wf : p.WellFormed) (h : heap.Orderly p)
    (requests : List StmtId) :
    ∃ heap', (Store.of heap).after p requests = Store.of heap' ∧ heap'.Orderly p ∧
      heap.objects.Extends heap'.objects := by
  induction requests generalizing heap with
  | nil => exact ⟨heap, rfl, h, .refl _⟩
  | cons s requests ih =>
    rw [Store.after, List.foldl_cons, h.answer_of s]
    cases e : heap.objFor p s with
    | error err => exact ih h
    | ok r =>
      obtain ⟨o, heap₁⟩ := r
      obtain ⟨heap', hfold, h', hext⟩ := ih (h.objFor wf e)
      exact ⟨heap', hfold, h', (Heap.extends_objFor e).trans hext⟩

/-- What a request does to a store.  It fails for any statement but an allocation, and then nothing
changes.  The answer to an allocation is its object, and stays so whatever is requested next. -/
structure Store.AnswersRequest (p : Program) (store : Store) (s : StmtId) : Prop where
  fails_iff : (∃ e, (store.answer p s).1 = .error e) ↔ ¬ ∃ type, p.Allocates s type
  denied : p.stmts.Has s → ∀ e, (store.answer p s).1 = .error e →
    e = .error (.malformed (.notAllocation s))
  unchanged : ∀ e, (store.answer p s).1 = .error e → (store.answer p s).2 = store
  object : ∀ o, (store.answer p s).1 = .ok o → ∃ obj,
    (store.answer p s).2.objects.get? o = some obj ∧ obj.id = o ∧ obj.site = s ∧ p.Describes obj
  repeated : ∀ o, (store.answer p s).1 = .ok o → ∀ later,
    ((store.answer p s).2.after p later).answer p s =
      (.ok o, (store.answer p s).2.after p later)

/-- The object of a site is answered for as long as the heap grows. -/
theorem Heap.Orderly.answer_of_get? (h : heap.Orderly p) {o : ObjId} {obj : Obj}
    (hobj : heap.objects.get? o = some obj) :
    (Store.of heap).answer p obj.site = (.ok o, Store.of heap) := by
  have hindex : (Store.of heap).bySite obj.site = some o := h.siteIndex_eq_some.2 ⟨obj, hobj, rfl⟩
  rw [Store.answer, hindex]

/-- The store of an orderly heap answers requests as it should. -/
theorem Heap.Orderly.answersRequest (wf : p.WellFormed) (h : heap.Orderly p) (s : StmtId) :
    (Store.of heap).AnswersRequest p s := by
  have hanswer := h.answer_of s
  rcases h.objFor_cases wf s with ⟨o, heap', obj, e, h', hobj, hs⟩ | ⟨hnone, err, e, hdenied⟩
  · -- an answer is given, so nothing is to be shown about failures
    rw [e] at hanswer
    have hne : ∀ err, ((Store.of heap).answer p s).1 ≠ .error err := by
      intro err he
      rw [hanswer] at he
      cases he
    have hd := h'.described o obj hobj
    refine
      { fails_iff := ?_
        denied := fun _ err he => absurd he (hne err)
        unchanged := fun err he => absurd he (hne err)
        object := fun o' ho' => ?_
        repeated := fun o' ho' later => ?_ }
    · constructor
      · intro hfails
        obtain ⟨err, he⟩ := hfails
        exact absurd he (hne err)
      · exact fun hnone => absurd ⟨_, hs ▸ hd.type⟩ hnone
    · rw [hanswer] at ho' ⊢
      obtain rfl := Except.ok.inj ho'
      exact ⟨obj, hobj, h'.ids o obj hobj, hs, hd⟩
    · rw [hanswer] at ho' ⊢
      obtain rfl := Except.ok.inj ho'
      -- whatever is requested next, the object stays
      obtain ⟨heap₂, hafter, h₂, hext⟩ := h'.exists_after wf later
      rw [hafter, ← hs]
      exact h₂.answer_of_get? (hext.get? hobj)
  · rw [e] at hanswer
    have hno : ∀ o, ((Store.of heap).answer p s).1 ≠ .ok o := by
      intro o ho
      rw [hanswer] at ho
      cases ho
    refine
      { fails_iff := ⟨fun _ => hnone, fun _ => ⟨err, by rw [hanswer]⟩⟩
        denied := fun hhas err' he => ?_
        unchanged := fun _ _ => by rw [hanswer]
        object := fun o ho => absurd ho (hno o)
        repeated := fun o ho => absurd ho (hno o) }
    rw [hanswer] at he
    rw [← Except.error.inj he]
    exact hdenied hhas

/-- After any sequence of requests the index finds just the objects of the sites, and the next
request is answered as it should be. -/
theorem Store.answersRequest_after (wf : p.WellFormed) (requests : List StmtId) (s : StmtId) :
    (∀ i o, (Store.after p {} requests).bySite i = some o ↔
      ∃ obj, (Store.after p {} requests).objects.get? o = some obj ∧ obj.site = i) ∧
      (Store.after p {} requests).AnswersRequest p s := by
  obtain ⟨heap, hafter, h, -⟩ := (Heap.orderly_empty p).exists_after wf requests
  rw [show ({} : Store) = Store.of {} from rfl, hafter]
  exact ⟨fun i o => h.siteIndex_eq_some, h.answersRequest wf s⟩

end Requests

end PointerAnalysis
