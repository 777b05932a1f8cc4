import Mathlib.Data.List.TakeWhile
import Mathlib.Logic.Relation
import PointerAnalysis.Proofs.Hierarchy.Total

/-!
# Walks visit what can be reached

A walk has room for every class that exists, and passes over none that its links lead to, so it
visits exactly the classes that can be reached.  Links to supertypes and links to subtypes are
inverse to each other, and so are the walks along them.

## Main definitions

- `Program.LinksTo`: a link leads from one class to another.
- `Program.Reaches`: any number of links.

## Main statements

- `mem_walk_iff`: a walk visits what can be reached.
- `linksTo_subtypeLinks_iff`: links to subtypes are links to supertypes turned round.
- `mem_subtypes_iff`: the subtypes of a class are the classes whose supertype it is.
-/

namespace PointerAnalysis.Program

variable {p : Program} {links : ClassId → Outcome (List ClassId)}

/-- A link leads from `c` to `d`. -/
def LinksTo (links : ClassId → Outcome (List ClassId)) (c d : ClassId) : Prop :=
  ∃ ds, links c = .ok ds ∧ d ∈ ds

/-- Any number of links lead from one class to another. -/
abbrev Reaches (links : ClassId → Outcome (List ClassId)) : ClassId → ClassId → Prop :=
  Relation.ReflTransGen (LinksTo links)

/-! ## Steps of a walk -/

/-- A walk that has room is at its end when all that waits has been seen.  Otherwise it passes over
what has been seen and visits the first class that has not. -/
theorem walk_cases {room : Nat} {queue seen cs : List ClassId}
    (h : walk links (room + 1) queue seen = .ok cs) :
    (cs = [] ∧ ∀ c ∈ queue, c ∈ seen) ∨
      ∃ passed c rest found later, queue = passed ++ c :: rest ∧ (∀ d ∈ passed, d ∈ seen) ∧
        c ∉ seen ∧ links c = .ok found ∧ walk links room (rest ++ found) (c :: seen) = .ok later ∧
        cs = c :: later := by
  -- the walk drops what it has seen from the front of the queue, and goes on with what is left
  have hsplit := List.takeWhile_append_dropWhile (p := fun c => decide (c ∈ seen)) (l := queue)
  have hpassed : ∀ d ∈ queue.takeWhile fun c => decide (c ∈ seen), d ∈ seen := by
    intro d hd
    simpa using List.mem_takeWhile_imp hd
  rw [walk] at h
  cases hdrop : queue.dropWhile fun c => decide (c ∈ seen) with
  | nil =>
    rw [hdrop] at h hsplit
    refine Or.inl ⟨(Except.ok.inj h).symm, fun c hc => hpassed c ?_⟩
    rwa [← hsplit, List.append_nil] at hc
  | cons c rest =>
    rw [hdrop] at h hsplit
    obtain ⟨found, hfound, h⟩ := Outcome.bind_eq_ok.1 h
    obtain ⟨later, hlater, h⟩ := Outcome.bind_eq_ok.1 h
    obtain rfl := Outcome.pure_eq_ok.1 h
    refine Or.inr ⟨_, c, rest, found, later, hsplit.symm, hpassed, ?_, hfound, hlater, rfl⟩
    have hfirst := List.head_dropWhile_not (fun c => decide (c ∈ seen)) (l := queue)
      (by simp [hdrop])
    simpa [hdrop] using hfirst

/-! ## Walks -/

/-- A walk visits nothing but what its links lead to. -/
theorem exists_reaches_of_mem_walk {room : Nat} {queue seen cs : List ClassId}
    (h : walk links room queue seen = .ok cs) {d : ClassId} (hd : d ∈ cs) :
    ∃ c ∈ queue, Reaches links c d := by
  induction room generalizing queue seen cs with
  | zero =>
    obtain rfl := Except.ok.inj h
    cases hd
  | succ room ih =>
    rcases walk_cases h with
      ⟨rfl, -⟩ | ⟨passed, c, rest, found, later, rfl, -, -, hfound, hlater, rfl⟩
    · cases hd
    · have hc : c ∈ passed ++ c :: rest := List.mem_append_right _ (List.mem_cons_self ..)
      rcases List.mem_cons.1 hd with rfl | hd
      · exact ⟨d, hc, .refl⟩
      · obtain ⟨c', hc', hreach⟩ := ih hlater hd
        -- what waited before goes on waiting, and the rest is linked to `c`
        rcases List.mem_append.1 hc' with hc' | hc'
        · exact ⟨c', List.mem_append_right _ (List.mem_cons_of_mem _ hc'), hreach⟩
        · exact ⟨c, hc, .head ⟨found, hfound, hc'⟩ hreach⟩

/-- Classes are visited once, and not at all if they have been seen before. -/
theorem nodup_walk {room : Nat} {queue seen cs : List ClassId}
    (h : walk links room queue seen = .ok cs) : cs.Nodup ∧ ∀ c ∈ cs, c ∉ seen := by
  induction room generalizing queue seen cs with
  | zero =>
    obtain rfl := Except.ok.inj h
    exact ⟨List.nodup_nil, by simp⟩
  | succ room ih =>
    rcases walk_cases h with
      ⟨rfl, -⟩ | ⟨passed, c, rest, found, later, rfl, -, hnew, -, hlater, rfl⟩
    · exact ⟨List.nodup_nil, by simp⟩
    · obtain ⟨hnodup, hlaterNew⟩ := ih hlater
      refine ⟨List.nodup_cons.2 ⟨fun hc => ?_, hnodup⟩, fun d hd => ?_⟩
      · exact hlaterNew c hc (List.mem_cons_self ..)
      · rcases List.mem_cons.1 hd with rfl | hd
        · exact hnew
        · exact fun hs => hlaterNew d hd (List.mem_cons_of_mem _ hs)

/-- The links of every class that is visited are followed. -/
theorem exists_links_of_mem_walk {room : Nat} {queue seen cs : List ClassId}
    (h : walk links room queue seen = .ok cs) {d : ClassId} (hd : d ∈ cs) :
    ∃ ds, links d = .ok ds := by
  induction room generalizing queue seen cs with
  | zero =>
    obtain rfl := Except.ok.inj h
    cases hd
  | succ room ih =>
    rcases walk_cases h with ⟨rfl, -⟩ | ⟨_, c, _, found, later, -, -, -, hfound, hlater, rfl⟩
    · cases hd
    · rcases List.mem_cons.1 hd with rfl | hd
      · exact ⟨found, hfound⟩
      · exact ih hlater hd

/-- If as many classes have been seen as there are, all have been seen. -/
theorem mem_of_size_le {seen : List ClassId} (hnodup : seen.Nodup)
    (hseen : ∀ c ∈ seen, p.classes.Has c) (hsize : p.classes.size ≤ seen.length) {c : ClassId}
    (hc : p.classes.Has c) : c ∈ seen := by
  by_contra hnew
  have hle := Table.length_le_of_nodup (List.nodup_cons.2 ⟨hnew, hnodup⟩)
    (List.forall_mem_cons.2 ⟨hc, hseen⟩)
  rw [List.length_cons] at hle
  omega

/-- With room for all classes, a walk visits all that waits, and leaves out no link of a class that
it has come to. -/
theorem closed_walk (hl : p.Leads links) {room : Nat} {queue seen cs : List ClassId}
    (h : walk links room queue seen = .ok cs) (hqueue : ∀ c ∈ queue, p.classes.Has c)
    (hnodup : seen.Nodup) (hseen : ∀ c ∈ seen, p.classes.Has c)
    (hroom : p.classes.size ≤ room + seen.length)
    (hclosed : ∀ c ∈ seen, ∀ d, LinksTo links c d → d ∈ seen ∨ d ∈ queue) :
    (∀ c ∈ queue, c ∈ seen ++ cs) ∧
      ∀ c ∈ seen ++ cs, ∀ d, LinksTo links c d → d ∈ seen ++ cs := by
  induction room generalizing queue seen cs with
  | zero =>
    -- without room, everything has been seen
    obtain rfl := Except.ok.inj h
    have hall : ∀ {c}, p.classes.Has c → c ∈ seen :=
      mem_of_size_le hnodup hseen (by simpa using hroom)
    rw [List.append_nil]
    exact ⟨fun c hc => hall (hqueue c hc), fun c hc d hcd =>
      (hclosed c hc d hcd).elim id fun hd => hall (hqueue d hd)⟩
  | succ room ih =>
    rcases walk_cases h with
      ⟨rfl, hall⟩ | ⟨passed, c, rest, found, later, rfl, hpassed, hnew, hfound, hlater, rfl⟩
    · rw [List.append_nil]
      exact ⟨hall, fun c hc d hcd => (hclosed c hc d hcd).elim id (hall d)⟩
    · have hc : p.classes.Has c := hqueue c (List.mem_append_right _ (List.mem_cons_self ..))
      obtain ⟨found', hfound', hhas⟩ := hl c hc
      obtain rfl := Except.ok.inj (hfound.symm.trans hfound')
      -- the links of `c` join what waits
      obtain ⟨hvisits, hleaves⟩ := ih hlater
        (fun d hd => (List.mem_append.1 hd).elim
          (fun hd => hqueue d (List.mem_append_right _ (List.mem_cons_of_mem _ hd))) (hhas d))
        (List.nodup_cons.2 ⟨hnew, hnodup⟩) (List.forall_mem_cons.2 ⟨hc, hseen⟩)
        (by rw [List.length_cons]; omega)
        (fun c' hc' d hcd => by
          rcases List.mem_cons.1 hc' with rfl | hc'
          · obtain ⟨ds, hds, hd⟩ := hcd
            obtain rfl := Except.ok.inj (hfound.symm.trans hds)
            exact Or.inr (List.mem_append_right _ hd)
          · rcases hclosed c' hc' d hcd with hd | hd
            · exact Or.inl (List.mem_cons_of_mem _ hd)
            · rcases List.mem_append.1 hd with hd | hd
              · exact Or.inl (List.mem_cons_of_mem _ (hpassed d hd))
              · rcases List.mem_cons.1 hd with rfl | hd
                · exact Or.inl (List.mem_cons_self ..)
                · exact Or.inr (List.mem_append_left _ hd))
      have hmem : ∀ {d}, d ∈ seen ++ c :: later ↔ d ∈ (c :: seen) ++ later := by
        intro d
        simp only [List.mem_append, List.mem_cons]
        tauto
      refine ⟨fun d hd => ?_, fun d hd d' hdd => ?_⟩
      · rcases List.mem_append.1 hd with hd | hd
        · exact List.mem_append_left _ (hpassed d hd)
        · rcases List.mem_cons.1 hd with rfl | hd
          · exact List.mem_append_right _ (List.mem_cons_self ..)
          · exact hmem.2 (hvisits d (List.mem_append_left _ hd))
      · exact hmem.2 (hleaves d (hmem.1 hd) d' hdd)

/-- A walk from one class visits what can be reached from it. -/
theorem mem_walk_iff (hl : p.Leads links) {c : ClassId} (hc : p.classes.Has c) {cs : List ClassId}
    (h : walk links p.classes.size [c] [] = .ok cs) {d : ClassId} :
    d ∈ cs ↔ Reaches links c d := by
  constructor
  · intro hd
    obtain ⟨c', hc', hreach⟩ := exists_reaches_of_mem_walk h hd
    rwa [List.mem_singleton.1 hc'] at hreach
  · intro hreach
    obtain ⟨hvisits, hleaves⟩ := closed_walk hl h (by simpa using hc) List.nodup_nil (by simp)
      (by simp) (by simp)
    rw [List.nil_append] at hvisits hleaves
    -- one link after the other
    induction hreach with
    | refl => exact hvisits c (List.mem_singleton_self c)
    | tail _ hlink ih => exact hleaves _ ih _ hlink

/-! ## Supertypes and subtypes -/

section Links

theorem linksTo_supertypeLinks_iff {c d : ClassId} :
    LinksTo p.supertypeLinks c d ↔
      ∃ decl, p.classes.get? c = some decl ∧ (decl.superclass = some d ∨ d ∈ decl.interfaces) := by
  constructor
  · intro h
    obtain ⟨ds, hds, hd⟩ := h
    obtain ⟨decl, hdecl, h⟩ := Outcome.bind_eq_ok.1 hds
    obtain rfl := Outcome.pure_eq_ok.1 h
    refine ⟨decl, Outcome.ofRow_eq_ok.1 hdecl, ?_⟩
    simpa using hd
  · intro h
    obtain ⟨decl, hdecl, hd⟩ := h
    refine ⟨_, Outcome.bind_eq_ok.2 ⟨decl, Outcome.ofRow_eq_ok.2 hdecl, rfl⟩, ?_⟩
    simpa using hd

/-- Only from classes that exist links lead up. -/
theorem has_of_supertypeLinks {c d : ClassId} (h : LinksTo p.supertypeLinks c d) :
    p.classes.Has c :=
  (linksTo_supertypeLinks_iff.1 h).elim fun _ h => Table.has_of_get? h.1

/-- Only classes that exist have links down. -/
theorem has_of_subtypeLinks {c : ClassId} {ds : List ClassId} (h : p.subtypeLinks c = .ok ds) :
    p.classes.Has c := by
  obtain ⟨subclasses, hsubclasses, -⟩ := Outcome.bind_eq_ok.1 h
  obtain ⟨decl, hdecl, -⟩ := Outcome.bind_eq_ok.1 hsubclasses
  exact Table.has_of_get? (Outcome.ofRow_eq_ok.1 hdecl)

/-- The classes found for an interface are those that list it. -/
theorem mem_listingInterface {c d : ClassId} {test : ClassDecl → Bool} {ds : List ClassId}
    (h : p.listingInterface c test = .ok ds) :
    d ∈ ds ↔ ∃ decl, p.classes.get? d = some decl ∧ test decl = true ∧ c ∈ decl.interfaces := by
  obtain ⟨_, -, h⟩ := Outcome.bind_eq_ok.1 h
  obtain rfl := Outcome.pure_eq_ok.1 h
  simp only [List.mem_flatMap, Prod.exists, Table.mem_entries]
  -- a class that lists the interface several times is found as often
  constructor
  · intro hd
    obtain ⟨d', decl, hdecl, hd⟩ := hd
    split at hd
    · obtain ⟨hcount, rfl⟩ := List.mem_replicate.1 hd
      exact ⟨decl, hdecl, ‹_›, List.count_pos_iff.1 (Nat.pos_of_ne_zero hcount)⟩
    · cases hd
  · intro hd
    obtain ⟨decl, hdecl, htest, hc⟩ := hd
    refine ⟨d, decl, hdecl, ?_⟩
    rw [if_pos htest]
    exact List.mem_replicate.2 ⟨(List.count_pos_iff.2 hc).ne', rfl⟩

/-- Every class has links to its subtypes. -/
theorem exists_subtypeLinks {c : ClassId} (hc : p.classes.Has c) :
    ∃ ds, p.subtypeLinks c = .ok ds ∧ ∀ d, d ∈ ds ↔
      ∃ decl, p.classes.get? d = some decl ∧ (decl.superclass = some c ∨ c ∈ decl.interfaces) := by
  obtain ⟨decl, hdecl⟩ := exists_classAt hc
  have hlisting : ∀ test, ∃ ds, p.listingInterface c test = .ok ds := fun test =>
    ⟨_, Outcome.bind_eq_ok.2 ⟨decl, hdecl, rfl⟩⟩
  obtain ⟨interfaces, hinterfaces⟩ := hlisting fun decl => decl.isInterface
  obtain ⟨implementors, himplementors⟩ := hlisting fun decl => !decl.isInterface
  refine ⟨_, Outcome.bind_eq_ok.2 ⟨_, Outcome.bind_eq_ok.2 ⟨decl, hdecl, rfl⟩,
    Outcome.bind_eq_ok.2 ⟨interfaces, hinterfaces,
      Outcome.bind_eq_ok.2 ⟨implementors, himplementors, rfl⟩⟩⟩, fun d => ?_⟩
  simp only [List.mem_append, mem_listingInterface hinterfaces, mem_listingInterface himplementors,
    List.mem_filterMap, Prod.exists, Table.mem_entries]
  constructor
  · intro hd
    rcases hd with (⟨d', decl, hdecl, hd⟩ | ⟨decl, hdecl, -, hd⟩) | ⟨decl, hdecl, -, hd⟩
    · split at hd
      · obtain rfl := Option.some.inj hd
        exact ⟨decl, hdecl, Or.inl ‹_›⟩
      · cases hd
    · exact ⟨decl, hdecl, Or.inr hd⟩
    · exact ⟨decl, hdecl, Or.inr hd⟩
  · intro hd
    obtain ⟨decl, hdecl, hd | hd⟩ := hd
    · exact Or.inl (Or.inl ⟨d, decl, hdecl, if_pos hd⟩)
    · -- interfaces extend, and classes implement
      cases hi : decl.isInterface with
      | true => exact Or.inl (Or.inr ⟨decl, hdecl, hi, hd⟩)
      | false => exact Or.inr ⟨decl, hdecl, by rw [hi]; rfl, hd⟩

theorem leads_subtypeLinks : p.Leads p.subtypeLinks := by
  intro c hc
  obtain ⟨ds, hds, hmem⟩ := exists_subtypeLinks hc
  exact ⟨ds, hds, fun d hd => ((hmem d).1 hd).elim fun _ h => Table.has_of_get? h.1⟩

theorem WellFormed.leads_supertypeLinks (wf : p.WellFormed) : p.Leads p.supertypeLinks := by
  intro c hc
  obtain ⟨decl, hdecl⟩ := exists_classAt hc
  refine ⟨_, Outcome.bind_eq_ok.2 ⟨decl, hdecl, rfl⟩, fun d hd => ?_⟩
  have hdecl := Outcome.ofRow_eq_ok.1 hdecl
  rcases List.mem_append.1 hd with hd | hd
  · exact wf.superclass c decl hdecl d (by simpa using hd)
  · exact wf.interfaces c decl hdecl d hd

/-- Links to subtypes are links to supertypes turned round. -/
theorem linksTo_subtypeLinks_iff {c d : ClassId} (hc : p.classes.Has c) :
    LinksTo p.subtypeLinks c d ↔ LinksTo p.supertypeLinks d c := by
  obtain ⟨ds, hds, hmem⟩ := exists_subtypeLinks hc
  rw [linksTo_supertypeLinks_iff, ← hmem]
  constructor
  · intro h
    obtain ⟨ds', hds', hd⟩ := h
    obtain rfl := Except.ok.inj (hds.symm.trans hds')
    exact hd
  · exact fun hd => ⟨ds, hds, hd⟩

end Links

section Subtypes

theorem exists_subtypes {c : ClassId} (hc : p.classes.Has c) :
    ∃ cs, p.subtypes c = .ok cs ∧ ∀ d ∈ cs, p.classes.Has d :=
  exists_walk leads_subtypeLinks p.classes.size [] (by simpa using hc)

/-- What is listed as a subtype is a class that exists. -/
theorem has_of_mem_subtypes {c d : ClassId} {cs : List ClassId} (h : p.subtypes c = .ok cs)
    (hd : d ∈ cs) : p.classes.Has d :=
  (exists_links_of_mem_walk h hd).elim fun _ => has_of_subtypeLinks

/-- What reaches a class that exists is a class that exists. -/
theorem has_of_reaches_has {c d : ClassId} (hd : p.classes.Has d)
    (h : Reaches p.supertypeLinks c d) : p.classes.Has c := by
  obtain rfl | ⟨_, hlink, -⟩ := h.cases_head
  · exact hd
  · exact has_of_supertypeLinks hlink

/-- What counts as a subtype of a class that exists is a class that exists. -/
theorem has_of_isSubtype {c d : ClassId} (hd : p.classes.Has d) (h : p.isSubtype c d = .ok true) :
    p.classes.Has c := by
  unfold isSubtype at h
  by_cases e : c = d
  · exact e ▸ hd
  · rw [if_neg e] at h
    obtain ⟨cs, hcs, hmem⟩ := Outcome.bind_eq_ok.1 h
    have hmem : d ∈ cs := of_decide_eq_true (Outcome.pure_eq_ok.1 hmem)
    obtain ⟨c', hc', hreach⟩ := exists_reaches_of_mem_walk hcs hmem
    obtain rfl := List.mem_singleton.1 hc'
    exact has_of_reaches_has hd hreach

variable (wf : p.WellFormed)
include wf

/-- Links between classes that exist lead to classes that exist. -/
theorem WellFormed.has_of_reaches {c d : ClassId} (hc : p.classes.Has c)
    (h : Reaches p.supertypeLinks c d) : p.classes.Has d := by
  induction h with
  | refl => exact hc
  | tail _ hlink ih =>
    obtain ⟨ds, hds, hd⟩ := hlink
    obtain ⟨ds', hds', hhas⟩ := wf.leads_supertypeLinks _ ih
    obtain rfl := Except.ok.inj (hds.symm.trans hds')
    exact hhas _ hd

/-- What a class reaches downwards reaches it upwards, and the other way round. -/
theorem reaches_subtypeLinks_iff {c d : ClassId} (hc : p.classes.Has c) (hd : p.classes.Has d) :
    Reaches p.subtypeLinks c d ↔ Reaches p.supertypeLinks d c := by
  constructor
  · intro h
    induction h using Relation.ReflTransGen.head_induction_on with
    | refl => exact .refl
    | head hlink _ ih =>
      obtain ⟨ds, hds, hmem⟩ := id hlink
      obtain ⟨ds', hds', hhas⟩ := leads_subtypeLinks _ hc
      obtain rfl := Except.ok.inj (hds.symm.trans hds')
      exact (ih (hhas _ hmem)).tail ((linksTo_subtypeLinks_iff hc).1 hlink)
  · intro h
    induction h with
    | refl => exact .refl
    | tail hreach hlink ih =>
      exact .head ((linksTo_subtypeLinks_iff hc).2 hlink) (ih (wf.has_of_reaches hd hreach))

/-- Whether a class counts as a subtype of another one is whether that is met on the way up. -/
theorem isSubtype_eq_decide {c d : ClassId} (hd : p.classes.Has d) {above : List ClassId}
    (h : walk p.supertypeLinks p.classes.size [d] [] = .ok above) :
    p.isSubtype d c = .ok (decide (c ∈ above)) := by
  unfold isSubtype
  by_cases e : d = c
  · subst e
    rw [if_pos rfl, decide_eq_true ((mem_walk_iff wf.leads_supertypeLinks hd h).2 .refl)]
    rfl
  · rw [if_neg e, h]
    rfl

/-- A class counts as a subtype of those it reaches upwards. -/
theorem isSubtype_iff {c d : ClassId} (hd : p.classes.Has d) :
    p.isSubtype d c = .ok true ↔ Reaches p.supertypeLinks d c := by
  obtain ⟨above, habove, -⟩ := exists_walk wf.leads_supertypeLinks p.classes.size []
    (List.forall_mem_singleton.2 hd)
  rw [isSubtype_eq_decide wf hd habove, Except.ok.injEq, decide_eq_true_iff,
    mem_walk_iff wf.leads_supertypeLinks hd habove]

/-- The subtypes of a class are the classes that count as subtypes of it. -/
theorem mem_subtypes_iff {c d : ClassId} (hc : p.classes.Has c) (hd : p.classes.Has d)
    {cs : List ClassId} (h : p.subtypes c = .ok cs) : d ∈ cs ↔ p.isSubtype d c = .ok true := by
  rw [mem_walk_iff leads_subtypeLinks hc h, isSubtype_iff wf hd, reaches_subtypeLinks_iff wf hc hd]

end Subtypes

end PointerAnalysis.Program
