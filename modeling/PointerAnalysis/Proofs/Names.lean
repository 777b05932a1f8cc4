import PointerAnalysis.Solver.State
import PointerAnalysis.Proofs.Universe

/-!
# Names

The handles of a run depend on the order in which things are met.  Their names do not: a context is
named by the sequence of its elements, an abstract object by its allocation statement, and all else
by what it is made of.

## Main definitions

- `ContextName`, `ObjName`, `PointerName`: what handles denote.
- `Universe.contextName?` and so on: the names of handles and of keys in a universe.
- `Universe.Faithful`: no two handles have the same name.

## Main statements

- `contextName?_mono`, `pointerName?_mono` and so on: handles keep their names while tables grow.
- `Faithful.context_inj`, `Faithful.pointer_inj` and so on: names determine handles.
-/

namespace PointerAnalysis

/-! ## Names -/

/-- An element of a context, objects being named by their allocation statements. -/
inductive ElemName where
  | site (s : StmtId)
  | object (s : StmtId)
  | cls (c : ClassId)
deriving DecidableEq

/-- A context is named by the sequence of its elements. -/
abbrev ContextName := List ElemName

/-- An abstract object under a heap context. -/
structure ObjName where
  context : ContextName
  site : StmtId
deriving DecidableEq

/-- A location that can hold references. -/
inductive PointerName where
  | var (context : ContextName) (v : VarId)
  | staticField (f : FieldId)
  | instanceField (base : ObjName) (f : FieldId)
  | arrayElems (base : ObjName)
deriving DecidableEq

/-! ## Names of keys and handles -/

/-- The name of an element of a context. -/
def Heap.elemName? (heap : Heap) : ContextElem → Option ElemName
  | .site s => some (.site s)
  | .object o => (heap.objects.get? o).map fun obj => .object obj.site
  | .cls c => some (.cls c)

/-- The name of a sequence of elements. -/
def Heap.elemNames? (heap : Heap) : List ContextElem → Option ContextName
  | [] => some []
  | e :: es => do return (← heap.elemName? e) :: (← heap.elemNames? es)

namespace Universe

/-- The name of a context. -/
def contextName? (u : Universe) (heap : Heap) (c : ContextId) : Option ContextName :=
  (u.contexts.table.get? c).bind heap.elemNames?

/-- The name of an object under a heap context. -/
def objKeyName? (u : Universe) (heap : Heap) (q : Qualified ObjId) : Option ObjName := do
  return ⟨← u.contextName? heap q.context, (← heap.objects.get? q.entity).site⟩

/-- The name of the object a handle denotes. -/
def objName? (u : Universe) (heap : Heap) (h : QObjId) : Option ObjName :=
  (u.objs.get? h).bind (u.objKeyName? heap)

/-- The name of a location. -/
def pointerKeyName? (u : Universe) (heap : Heap) : Pointer → Option PointerName
  | .var c v => (u.contextName? heap c).map (.var · v)
  | .staticField f => some (.staticField f)
  | .instanceField base f => (u.objName? heap base).map (.instanceField · f)
  | .arrayElems base => (u.objName? heap base).map .arrayElems

/-- The name of the location a handle denotes. -/
def pointerName? (u : Universe) (heap : Heap) (h : PointerId) : Option PointerName :=
  (u.pointers.get? h).bind (u.pointerKeyName? heap)

/-- A context and an entity under it, by name. -/
def keyName? {α : Type} (u : Universe) (heap : Heap) (q : Qualified α) :
    Option (ContextName × α) :=
  (u.contextName? heap q.context).map (·, q.entity)

/-- The name of the method a handle denotes. -/
def methodName? (u : Universe) (heap : Heap) (h : QMethodId) : Option (ContextName × MethodId) :=
  (u.methods.get? h).bind (u.keyName? heap)

/-- The name of the call site a handle denotes. -/
def siteName? (u : Universe) (heap : Heap) (h : QSiteId) : Option (ContextName × StmtId) :=
  (u.sites.get? h).bind (u.keyName? heap)

end Universe

section Mono

variable {u u' : Universe} {heap heap' : Heap}

theorem Heap.elemName?_eq_site {e : ContextElem} {s : StmtId} :
    heap.elemName? e = some (.site s) ↔ e = .site s := by
  cases e <;> simp [elemName?]

theorem Heap.elemName?_eq_cls {e : ContextElem} {c : ClassId} :
    heap.elemName? e = some (.cls c) ↔ e = .cls c := by
  cases e <;> simp [elemName?]

/-- Only an object that the heap has is named by its allocation statement; the other elements name
themselves. -/
theorem Heap.elemName?_eq_object {e : ContextElem} {s : StmtId} :
    heap.elemName? e = some (.object s) ↔
      ∃ o obj, e = .object o ∧ heap.objects.get? o = some obj ∧ obj.site = s := by
  cases e <;> simp [elemName?]

/-- An element keeps its name while objects are added to the heap. -/
theorem Heap.elemName?_mono (hh : heap.objects.Extends heap'.objects) {e : ContextElem}
    {n : ElemName} (h : heap.elemName? e = some n) : heap'.elemName? e = some n := by
  cases e with
  | site s => exact h
  | cls c => exact h
  | object o =>
    -- the name is the statement in a row of the heap, and rows stay
    obtain ⟨obj, ho, rfl⟩ := Option.map_eq_some_iff.1 h
    exact Option.map_eq_some_iff.2 ⟨obj, hh.get? ho, rfl⟩

/-- A sequence has a name if each of its elements has one. -/
theorem Heap.elemNames?_cons_eq_some {e : ContextElem} {es : List ContextElem} {t : ContextName} :
    heap.elemNames? (e :: es) = some t ↔
      ∃ n t', heap.elemName? e = some n ∧ heap.elemNames? es = some t' ∧ t = n :: t' := by
  cases he : heap.elemName? e <;> cases hes : heap.elemNames? es <;>
    simp [elemNames?, he, hes, eq_comm]

/-- A sequence of elements keeps its name while objects are added to the heap. -/
theorem Heap.elemNames?_mono (hh : heap.objects.Extends heap'.objects) {es : List ContextElem}
    {t : ContextName} (h : heap.elemNames? es = some t) : heap'.elemNames? es = some t := by
  induction es generalizing t with
  | nil => exact h
  | cons e es ih =>
    obtain ⟨n, t', hn, ht, rfl⟩ := elemNames?_cons_eq_some.1 h
    exact elemNames?_cons_eq_some.2 ⟨n, t', elemName?_mono hh hn, ih ht, rfl⟩

namespace Universe

/-- An object under a heap context is named by the name of the context and its allocation statement.
-/
theorem objKeyName?_eq_some {q : Qualified ObjId} {o : ObjName} :
    u.objKeyName? heap q = some o ↔ u.contextName? heap q.context = some o.context ∧
      ∃ obj, heap.objects.get? q.entity = some obj ∧ obj.site = o.site := by
  obtain ⟨t, s⟩ := o
  cases hc : u.contextName? heap q.context <;> cases ho : heap.objects.get? q.entity <;>
    simp [objKeyName?, hc, ho]

theorem keyName?_eq_some {α : Type} {q : Qualified α} {t : ContextName} {a : α} :
    u.keyName? heap q = some (t, a) ↔ u.contextName? heap q.context = some t ∧ q.entity = a := by
  simp [keyName?]

/-- A name of a variable belongs to the variable itself, under a context with the name given. -/
theorem pointerKeyName?_eq_var {key : Pointer} {t : ContextName} {v : VarId} :
    u.pointerKeyName? heap key = some (.var t v) ↔
      ∃ c, key = .var c v ∧ u.contextName? heap c = some t := by
  cases key <;> simp [pointerKeyName?, and_comm, eq_comm]

theorem pointerKeyName?_eq_staticField {key : Pointer} {f : FieldId} :
    u.pointerKeyName? heap key = some (.staticField f) ↔ key = .staticField f := by
  cases key <;> simp [pointerKeyName?]

/-- A name of an instance field belongs to that field of an object with the name given. -/
theorem pointerKeyName?_eq_instanceField {key : Pointer} {o : ObjName} {f : FieldId} :
    u.pointerKeyName? heap key = some (.instanceField o f) ↔
      ∃ b, key = .instanceField b f ∧ u.objName? heap b = some o := by
  cases key <;> simp [pointerKeyName?, and_comm, eq_comm]

theorem pointerKeyName?_eq_arrayElems {key : Pointer} {o : ObjName} :
    u.pointerKeyName? heap key = some (.arrayElems o) ↔
      ∃ b, key = .arrayElems b ∧ u.objName? heap b = some o := by
  cases key <;> simp [pointerKeyName?]

variable (hu : u.Extends u') (hh : heap.objects.Extends heap'.objects)
include hu hh

/-- A context keeps its name while a universe and a heap grow. -/
theorem contextName?_mono {c : ContextId} {t : ContextName}
    (h : u.contextName? heap c = some t) : u'.contextName? heap' c = some t := by
  obtain ⟨es, hes, ht⟩ := Option.bind_eq_some_iff.1 h
  exact Option.bind_eq_some_iff.2 ⟨es, hu.contexts.get? hes, Heap.elemNames?_mono hh ht⟩

theorem objKeyName?_mono {q : Qualified ObjId} {o : ObjName}
    (h : u.objKeyName? heap q = some o) : u'.objKeyName? heap' q = some o := by
  obtain ⟨hc, obj, ho, hs⟩ := objKeyName?_eq_some.1 h
  exact objKeyName?_eq_some.2 ⟨contextName?_mono hu hh hc, obj, hh.get? ho, hs⟩

/-- An object keeps its name while a universe and a heap grow. -/
theorem objName?_mono {h : QObjId} {o : ObjName}
    (e : u.objName? heap h = some o) : u'.objName? heap' h = some o := by
  obtain ⟨q, hq, ho⟩ := Option.bind_eq_some_iff.1 e
  exact Option.bind_eq_some_iff.2 ⟨q, hu.objs.get? hq, objKeyName?_mono hu hh ho⟩

/-- A location keeps its name while a universe and a heap grow. -/
theorem pointerKeyName?_mono {key : Pointer} {x : PointerName}
    (e : u.pointerKeyName? heap key = some x) : u'.pointerKeyName? heap' key = some x := by
  cases key with
  -- a static field is named without a look at any table
  | staticField f => exact e
  | var c v =>
    obtain ⟨t, ht, rfl⟩ := Option.map_eq_some_iff.1 e
    exact Option.map_eq_some_iff.2 ⟨t, contextName?_mono hu hh ht, rfl⟩
  | instanceField base f =>
    obtain ⟨o, ho, rfl⟩ := Option.map_eq_some_iff.1 e
    exact Option.map_eq_some_iff.2 ⟨o, objName?_mono hu hh ho, rfl⟩
  | arrayElems base =>
    obtain ⟨o, ho, rfl⟩ := Option.map_eq_some_iff.1 e
    exact Option.map_eq_some_iff.2 ⟨o, objName?_mono hu hh ho, rfl⟩

/-- A pointer keeps its name while a universe and a heap grow. -/
theorem pointerName?_mono {h : PointerId} {x : PointerName}
    (e : u.pointerName? heap h = some x) : u'.pointerName? heap' h = some x := by
  obtain ⟨key, hk, hx⟩ := Option.bind_eq_some_iff.1 e
  exact Option.bind_eq_some_iff.2 ⟨key, hu.pointers.get? hk, pointerKeyName?_mono hu hh hx⟩

theorem keyName?_mono {α : Type} {q : Qualified α} {n : ContextName × α}
    (e : u.keyName? heap q = some n) : u'.keyName? heap' q = some n := by
  obtain ⟨t, ht, rfl⟩ := Option.map_eq_some_iff.1 e
  exact Option.map_eq_some_iff.2 ⟨t, contextName?_mono hu hh ht, rfl⟩

/-- A method under a context keeps its name while a universe and a heap grow. -/
theorem methodName?_mono {h : QMethodId} {n : ContextName × MethodId}
    (e : u.methodName? heap h = some n) : u'.methodName? heap' h = some n := by
  obtain ⟨q, hq, hn⟩ := Option.bind_eq_some_iff.1 e
  exact Option.bind_eq_some_iff.2 ⟨q, hu.methods.get? hq, keyName?_mono hu hh hn⟩

/-- A call site under a context keeps its name while a universe and a heap grow. -/
theorem siteName?_mono {h : QSiteId} {n : ContextName × StmtId}
    (e : u.siteName? heap h = some n) : u'.siteName? heap' h = some n := by
  obtain ⟨q, hq, hn⟩ := Option.bind_eq_some_iff.1 e
  exact Option.bind_eq_some_iff.2 ⟨q, hu.sites.get? hq, keyName?_mono hu hh hn⟩

end Universe

end Mono

/-! ## Faithful numberings -/

namespace Universe

/-- Every table of a universe holds each value once, and a heap holds one object for each
allocation statement. -/
structure Faithful (u : Universe) (heap : Heap) : Prop where
  contexts : u.contexts.table.Distinct
  objs : u.objs.Distinct
  sites : u.sites.Distinct
  methods : u.methods.Distinct
  pointers : u.pointers.Distinct
  heap : ∀ h h' o o', heap.objects.get? h = some o → heap.objects.get? h' = some o' →
    o.site = o'.site → h = h'

namespace Faithful

variable {u : Universe} {heap : Heap} (hf : u.Faithful heap)
include hf

/-- Elements with one name are one element, because no allocation statement has two objects. -/
theorem elem_inj {e e' : ContextElem} {n : ElemName} (h : heap.elemName? e = some n)
    (h' : heap.elemName? e' = some n) : e = e' := by
  cases n with
  | site s => rw [Heap.elemName?_eq_site.1 h, Heap.elemName?_eq_site.1 h']
  | cls c => rw [Heap.elemName?_eq_cls.1 h, Heap.elemName?_eq_cls.1 h']
  | object s =>
    obtain ⟨o, obj, rfl, ho, hs⟩ := Heap.elemName?_eq_object.1 h
    obtain ⟨o', obj', rfl, ho', hs'⟩ := Heap.elemName?_eq_object.1 h'
    -- two rows with one allocation statement are one row
    rw [hf.heap _ _ _ _ ho ho' (hs.trans hs'.symm)]

/-- Sequences of elements with one name are one sequence. -/
theorem elems_inj {es es' : List ContextElem} {t : ContextName}
    (h : heap.elemNames? es = some t) (h' : heap.elemNames? es' = some t) : es = es' := by
  -- both sequences are taken apart together, since a name tells how long its sequence is
  induction es generalizing es' t with
  | nil =>
    cases es' with
    | nil => rfl
    | cons e' es' =>
      obtain ⟨n, t', -, -, rfl⟩ := Heap.elemNames?_cons_eq_some.1 h'
      cases h
  | cons e es ih =>
    obtain ⟨n, t', hn, ht, rfl⟩ := Heap.elemNames?_cons_eq_some.1 h
    cases es' with
    | nil => cases h'
    | cons e' es' =>
      obtain ⟨n', t'', hn', ht', e⟩ := Heap.elemNames?_cons_eq_some.1 h'
      obtain ⟨rfl, rfl⟩ := List.cons.inj e
      rw [hf.elem_inj hn hn', ih ht ht']

/-- Contexts with one name have one handle. -/
theorem context_inj {c c' : ContextId} {t : ContextName} (h : u.contextName? heap c = some t)
    (h' : u.contextName? heap c' = some t) : c = c' := by
  obtain ⟨es, hes, ht⟩ := Option.bind_eq_some_iff.1 h
  obtain ⟨es', hes', ht'⟩ := Option.bind_eq_some_iff.1 h'
  obtain rfl := hf.elems_inj ht ht'
  exact hf.contexts _ _ _ hes hes'

/-- A context and an entity under it are determined by their names. -/
theorem key_inj {α : Type} {q q' : Qualified α} {n : ContextName × α}
    (h : u.keyName? heap q = some n) (h' : u.keyName? heap q' = some n) : q = q' := by
  obtain ⟨t, a⟩ := n
  obtain ⟨hc, ha⟩ := keyName?_eq_some.1 h
  obtain ⟨hc', ha'⟩ := keyName?_eq_some.1 h'
  obtain ⟨c, b⟩ := q
  obtain ⟨c', b'⟩ := q'
  obtain rfl := hf.context_inj hc hc'
  exact congrArg _ (ha.trans ha'.symm)

/-- A heap context and an object are determined by their name. -/
theorem objKey_inj {q q' : Qualified ObjId} {o : ObjName} (h : u.objKeyName? heap q = some o)
    (h' : u.objKeyName? heap q' = some o) : q = q' := by
  obtain ⟨hc, obj, ho, hs⟩ := objKeyName?_eq_some.1 h
  obtain ⟨hc', obj', ho', hs'⟩ := objKeyName?_eq_some.1 h'
  obtain ⟨c, a⟩ := q
  obtain ⟨c', a'⟩ := q'
  obtain rfl := hf.context_inj hc hc'
  obtain rfl := hf.heap _ _ _ _ ho ho' (hs.trans hs'.symm)
  rfl

/-- Objects with one name have one handle. -/
theorem obj_inj {h h' : QObjId} {o : ObjName} (e : u.objName? heap h = some o)
    (e' : u.objName? heap h' = some o) : h = h' := by
  obtain ⟨q, hq, ho⟩ := Option.bind_eq_some_iff.1 e
  obtain ⟨q', hq', ho'⟩ := Option.bind_eq_some_iff.1 e'
  obtain rfl := hf.objKey_inj ho ho'
  exact hf.objs _ _ _ hq hq'

/-- Locations with one name are one location. -/
theorem pointerKey_inj {key key' : Pointer} {x : PointerName}
    (e : u.pointerKeyName? heap key = some x) (e' : u.pointerKeyName? heap key' = some x) :
    key = key' := by
  -- the name tells of which sort the key is
  cases x with
  | var t v =>
    obtain ⟨c, rfl, hc⟩ := pointerKeyName?_eq_var.1 e
    obtain ⟨c', rfl, hc'⟩ := pointerKeyName?_eq_var.1 e'
    rw [hf.context_inj hc hc']
  | staticField f =>
    rw [pointerKeyName?_eq_staticField.1 e, pointerKeyName?_eq_staticField.1 e']
  | instanceField o f =>
    obtain ⟨b, rfl, hb⟩ := pointerKeyName?_eq_instanceField.1 e
    obtain ⟨b', rfl, hb'⟩ := pointerKeyName?_eq_instanceField.1 e'
    rw [hf.obj_inj hb hb']
  | arrayElems o =>
    obtain ⟨b, rfl, hb⟩ := pointerKeyName?_eq_arrayElems.1 e
    obtain ⟨b', rfl, hb'⟩ := pointerKeyName?_eq_arrayElems.1 e'
    rw [hf.obj_inj hb hb']

/-- Pointers with one name have one handle. -/
theorem pointer_inj {h h' : PointerId} {x : PointerName} (e : u.pointerName? heap h = some x)
    (e' : u.pointerName? heap h' = some x) : h = h' := by
  obtain ⟨key, hk, hx⟩ := Option.bind_eq_some_iff.1 e
  obtain ⟨key', hk', hx'⟩ := Option.bind_eq_some_iff.1 e'
  obtain rfl := hf.pointerKey_inj hx hx'
  exact hf.pointers _ _ _ hk hk'

/-- The row of a pointer is the key with its name. -/
theorem get?_pointer {h : PointerId} {key : Pointer} {x : PointerName}
    (e : u.pointerName? heap h = some x) (hkey : u.pointerKeyName? heap key = some x) :
    u.pointers.get? h = some key := by
  obtain ⟨key', hget, hkey'⟩ := Option.bind_eq_some_iff.1 e
  rw [hget, hf.pointerKey_inj hkey' hkey]

/-- The row of a call site is the key with its name. -/
theorem get?_site {h : QSiteId} {q : Qualified StmtId} {n : ContextName × StmtId}
    (e : u.siteName? heap h = some n) (hq : u.keyName? heap q = some n) :
    u.sites.get? h = some q := by
  obtain ⟨q', hget, hq'⟩ := Option.bind_eq_some_iff.1 e
  rw [hget, hf.key_inj hq' hq]

end Faithful

end Universe

end PointerAnalysis
