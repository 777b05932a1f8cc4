import Mathlib.Logic.Function.Iterate
import PointerAnalysis.Proofs.Hierarchy.Reachability

/-!
# Breadth-first order

A walk is bounded by the room that it has.  With room for all classes the bound is never met, and
the walk is a search that runs until nothing waits.

What such a search finds first does not depend on the classes that it passes over.  If every class
is followed each time that it is met, the classes come in layers: those that wait at the beginning,
those linked to these, and so on, with repetitions.  A search finds what is first in the first layer
that has anything to be found.

## Main definitions

- `Program.Search`: a breadth-first search without a bound comes to its end.
- `Program.layer`: the classes a number of links away, as often as links lead to them.
- `Program.FirstAnswer`: what is found first in layers.
- `Program.Precedes`: a class is met in layers before another.
- `Program.Underway`: a search that has found nothing so far.

## Main statements

- `search_of_walk`: a walk with room for all classes is a search without a bound.
- `Underway.findSome?_iff`: a search finds what is first in layers.
- `FirstAnswer.exists_precedes`: the class where it is found precedes all others that have an answer.
- `Search.pairwise_precedes`: a search meets its classes in the order of layers.
-/

namespace PointerAnalysis.Program

variable {α β : Type} {next : α → List α}

/-! ## Search without a bound -/

/-- A breadth-first search comes to its end.  The first that waits is passed over if it has been
seen; otherwise it is visited, and its links wait after all others. -/
inductive Search (next : α → List α) : (queue seen visited : List α) → Prop where
  | done (seen : List α) : Search next [] seen []
  | pass {c : α} {queue seen visited : List α} (hc : c ∈ seen)
      (h : Search next queue seen visited) : Search next (c :: queue) seen visited
  | visit {c : α} {queue seen visited : List α} (hc : c ∉ seen)
      (h : Search next (queue ++ next c) (c :: seen) visited) :
      Search next (c :: queue) seen (c :: visited)

theorem Search.passed {passed queue seen visited : List α} (hpassed : ∀ c ∈ passed, c ∈ seen)
    (h : Search next queue seen visited) : Search next (passed ++ queue) seen visited := by
  induction passed with
  | nil => exact h
  | cons c passed ih =>
    obtain ⟨hc, hpassed⟩ := List.forall_mem_cons.1 hpassed
    exact .pass hc (ih hpassed)

theorem search_of_seen {queue seen : List α} (hall : ∀ c ∈ queue, c ∈ seen) :
    Search next queue seen [] := by
  simpa using Search.passed hall (.done seen)

/-- With room for all classes the bound on a walk is never met. -/
theorem search_of_walk {p : Program} {links : ClassId → Outcome (List ClassId)}
    {next : ClassId → List ClassId} (hl : p.Leads links)
    (hnext : ∀ c, p.classes.Has c → links c = .ok (next c)) {room : Nat}
    {queue seen cs : List ClassId} (h : walk links room queue seen = .ok cs)
    (hqueue : ∀ c ∈ queue, p.classes.Has c) (hnodup : seen.Nodup)
    (hseen : ∀ c ∈ seen, p.classes.Has c) (hroom : p.classes.size ≤ room + seen.length) :
    Search next queue seen cs := by
  induction room generalizing queue seen cs with
  | zero =>
    -- without room, everything has been seen
    obtain rfl := Except.ok.inj h
    exact search_of_seen fun c hc =>
      mem_of_size_le hnodup hseen (by simpa using hroom) (hqueue c hc)
  | succ room ih =>
    rcases walk_cases h with
      ⟨rfl, hall⟩ | ⟨passed, c, rest, found, later, rfl, hpassed, hnew, hfound, hlater, rfl⟩
    · exact search_of_seen hall
    · have hc : p.classes.Has c := hqueue c (List.mem_append_right _ (List.mem_cons_self ..))
      obtain ⟨found', hfound', hhas⟩ := hl c hc
      obtain rfl := Except.ok.inj (hfound.symm.trans hfound')
      obtain rfl := Except.ok.inj (hfound.symm.trans (hnext c hc))
      refine .passed hpassed (.visit hnew (ih hlater ?_ (List.nodup_cons.2 ⟨hnew, hnodup⟩)
        (List.forall_mem_cons.2 ⟨hc, hseen⟩) ?_))
      · intro d hd
        rcases List.mem_append.1 hd with hd | hd
        · exact hqueue d (List.mem_append_right _ (List.mem_cons_of_mem _ hd))
        · exact hhas d hd
      · rw [List.length_cons]
        omega

/-- A walk with room for all classes that begins with nothing seen is a search without a bound. -/
theorem search_of_fresh_walk {p : Program} {links : ClassId → Outcome (List ClassId)}
    {next : ClassId → List ClassId} (hl : p.Leads links)
    (hnext : ∀ c, p.classes.Has c → links c = .ok (next c)) {queue cs : List ClassId}
    (h : walk links p.classes.size queue [] = .ok cs) (hqueue : ∀ c ∈ queue, p.classes.Has c) :
    Search next queue [] cs :=
  search_of_walk hl hnext h hqueue List.nodup_nil (by simp) (by simp)

/-- What waits first is visited first, if nothing has been seen. -/
theorem Search.head?_eq {c : α} {queue visited : List α}
    (h : Search next (c :: queue) [] visited) : visited.head? = some c := by
  cases h with
  | pass hc => cases hc
  | visit => rfl

/-- What a search visits depends on what waits and on which classes have been seen, but not on when
these were. -/
theorem Search.unique {queue seen seen' visited visited' : List α}
    (h : Search next queue seen visited) (h' : Search next queue seen' visited')
    (hseen : ∀ c, c ∈ seen ↔ c ∈ seen') : visited = visited' := by
  induction h generalizing seen' visited' with
  | done =>
    cases h'
    rfl
  | pass hc _ ih =>
    cases h' with
    | pass _ h' => exact ih h' hseen
    | visit hc' => exact absurd ((hseen _).1 hc) hc'
  | visit hc _ ih =>
    cases h' with
    | pass hc' => exact absurd ((hseen _).2 hc') hc
    | visit _ h' => rw [ih h' fun d => by simp only [List.mem_cons, hseen d]]

/-- Different classes that wait first and have not been seen are visited first, and then their links
wait behind all others. -/
theorem Search.exists_after {first queue seen visited : List α}
    (h : Search next (first ++ queue) seen visited) (hnodup : first.Nodup)
    (hnew : ∀ c ∈ first, c ∉ seen) :
    ∃ later, visited = first ++ later ∧
      Search next (queue ++ first.flatMap next) (first.reverse ++ seen) later := by
  induction first generalizing queue seen visited with
  | nil => exact ⟨visited, rfl, by simpa using h⟩
  | cons c first ih =>
    obtain ⟨hc, hnodup⟩ := List.nodup_cons.1 hnodup
    obtain ⟨hnewc, hnew⟩ := List.forall_mem_cons.1 hnew
    cases h with
    | pass hseen => exact absurd hseen hnewc
    | visit _ h =>
      rw [List.append_eq, List.append_assoc] at h
      obtain ⟨later, rfl, hlater⟩ := ih h hnodup fun d hd hmem =>
        (List.mem_cons.1 hmem).elim (fun e => hc (e ▸ hd)) (hnew d hd)
      exact ⟨later, rfl, by simpa using hlater⟩

/-! ## What waits to no effect -/

/-- It makes no difference if something waits that has been seen, or that waits already. -/
theorem Search.insert {before queue seen visited : List α}
    (h : Search next (before ++ queue) seen visited) {d : α} (hd : d ∈ seen ∨ d ∈ before) :
    Search next (before ++ d :: queue) seen visited := by
  induction before generalizing queue seen visited with
  | nil => exact .pass (hd.resolve_right List.not_mem_nil) h
  | cons c before ih =>
    -- what waits behind `c` is seen later, or `c` is it
    have hlater : ∀ {seen' : List α}, c ∈ seen' → seen ⊆ seen' → d ∈ seen' ∨ d ∈ before := by
      intro seen' hc hsub
      rcases hd with hd | hd
      · exact Or.inl (hsub hd)
      · rcases List.mem_cons.1 hd with rfl | hd
        · exact Or.inl hc
        · exact Or.inr hd
    cases h with
    | pass hc h => exact .pass hc (ih h (hlater hc (List.Subset.refl _)))
    | visit hc h =>
      rw [List.append_eq, List.append_assoc] at h
      refine .visit hc ?_
      rw [List.append_eq, List.append_assoc]
      exact ih h (hlater (List.mem_cons_self ..) (List.subset_cons_self ..))

theorem Search.append {queue extra seen visited : List α} (h : Search next queue seen visited)
    (hextra : ∀ d ∈ extra, d ∈ seen ∨ d ∈ queue) : Search next (queue ++ extra) seen visited := by
  induction extra generalizing queue with
  | nil => rwa [List.append_nil]
  | cons d extra ih =>
    obtain ⟨hd, hextra⟩ := List.forall_mem_cons.1 hextra
    have h : Search next (queue ++ [d]) seen visited := .insert (by rwa [List.append_nil]) hd
    rw [List.append_cons]
    exact ih h fun e he => (hextra e he).imp_right (List.mem_append_left _)

/-! ## Layers -/

/-- The classes that links lead to in `n` steps from those given, as often as they do and in the
order of the links. -/
def layer (next : α → List α) (start : List α) (n : Nat) : List α :=
  (List.flatMap next)^[n] start

/-- The answer that is found first in layers. -/
def FirstAnswer (next : α → List α) (start : List α) (g : α → Option β) (b : β) : Prop :=
  ∃ n, (∀ k < n, (layer next start k).findSome? g = none) ∧
    (layer next start n).findSome? g = some b

/-- In layers `c` is met before `d`, if `d` is met at all. -/
def Precedes (next : α → List α) (start : List α) (c d : α) : Prop :=
  ∃ n before after, layer next start n = before ++ c :: after ∧ d ∉ before ∧
    ∀ k < n, d ∉ layer next start k

@[simp] theorem layer_zero (start : List α) : layer next start 0 = start := rfl

theorem layer_succ (start : List α) (n : Nat) :
    layer next start (n + 1) = layer next (start.flatMap next) n :=
  Function.iterate_succ_apply ..

theorem mem_layer_append {xs ys : List α} {n : Nat} {c : α} :
    c ∈ layer next (xs ++ ys) n ↔ c ∈ layer next xs n ∨ c ∈ layer next ys n := by
  induction n generalizing xs ys with
  | zero => simp
  | succ n ih => simp only [layer_succ, List.flatMap_append, ih]

theorem mem_layer_cons {x : α} {ys : List α} {n : Nat} {c : α} :
    c ∈ layer next (x :: ys) n ↔ c ∈ layer next [x] n ∨ c ∈ layer next ys n := by
  rw [← List.singleton_append, mem_layer_append]

/-- What is found first in layers is found at a class that precedes all others that have an
answer. -/
theorem FirstAnswer.exists_precedes {start : List α} {g : α → Option β} {b : β}
    (h : FirstAnswer next start g b) :
    ∃ c, g c = some b ∧ ∀ d, g d ≠ none → Precedes next start c d := by
  obtain ⟨n, hnone, hsome⟩ := h
  obtain ⟨before, c, after, hlayer, hc, hbefore⟩ := List.findSome?_eq_some_iff.1 hsome
  refine ⟨c, hc, fun d hd => ⟨n, before, after, hlayer, fun hmem => hd (hbefore d hmem), ?_⟩⟩
  exact fun k hk hmem => hd (List.findSome?_eq_none_iff.1 (hnone k hk) d hmem)

/-! ## What a search finds -/

section Found

variable {queue seen visited : List α}

/-- What is visited is in some layer. -/
theorem Search.exists_mem_layer (h : Search next queue seen visited) {d : α} (hd : d ∈ visited) :
    ∃ n, d ∈ layer next queue n := by
  induction h with
  | done => cases hd
  | pass _ _ ih =>
    obtain ⟨n, hn⟩ := ih hd
    exact ⟨n, mem_layer_cons.2 (Or.inr hn)⟩
  | @visit c _ _ _ _ _ ih =>
    rcases List.mem_cons.1 hd with rfl | hd
    · exact ⟨0, List.mem_cons_self ..⟩
    · obtain ⟨n, hn⟩ := ih hd
      rcases mem_layer_append.1 hn with hn | hn
      · exact ⟨n, mem_layer_cons.2 (Or.inr hn)⟩
      · refine ⟨n + 1, mem_layer_cons.2 (Or.inl ?_)⟩
        rwa [layer_succ, List.flatMap_singleton]

variable {g : α → Option β} {b : β}

/-- A search has found nothing so far.  What has been seen has been followed: its links have been
seen too, or they wait. -/
structure Underway (next : α → List α) (g : α → Option β) (queue seen visited : List α) :
    Prop where
  search : Search next queue seen visited
  followed : ∀ c ∈ seen, ∀ d ∈ next c, d ∈ seen ∨ d ∈ queue
  unfound : ∀ c ∈ seen, g c = none

/-- What is found first among those that wait is what the search finds. -/
theorem Search.findSome?_of_queue (h : Search next queue seen visited)
    (hseen : ∀ c ∈ seen, g c = none) (hfound : queue.findSome? g = some b) :
    visited.findSome? g = some b := by
  induction h with
  | done => cases hfound
  | pass hc _ ih =>
    rw [List.findSome?_cons, hseen _ hc] at hfound
    exact ih hseen hfound
  | @visit c queue _ _ _ _ ih =>
    rw [List.findSome?_cons] at hfound ⊢
    cases hc : g c with
    | some b' => rwa [hc] at hfound
    | none =>
      rw [hc] at hfound
      have hfound : queue.findSome? g = some b := hfound
      exact ih (List.forall_mem_cons.2 ⟨hc, hseen⟩) (by rw [List.findSome?_append, hfound]; rfl)

/-- If nothing is found at the first that waits, the search goes on with its links at the end of the
queue.  This is so also if it was seen before, since its links are known then. -/
theorem Underway.step {c : α} (h : Underway next g (c :: queue) seen visited) (hc : g c = none) :
    ∃ seen' later, Underway next g (queue ++ next c) seen' later ∧
      visited.findSome? g = later.findSome? g := by
  obtain ⟨hsearch, hfollowed, hunfound⟩ := h
  -- `c` itself no longer waits
  have hwaits : ∀ {seen'}, c ∈ seen' → seen ⊆ seen' → ∀ e ∈ seen, ∀ d ∈ next e,
      d ∈ seen' ∨ d ∈ queue := by
    intro seen' hc hsub e he d hd
    rcases hfollowed e he d hd with hd | hd
    · exact Or.inl (hsub hd)
    · rcases List.mem_cons.1 hd with rfl | hd
      · exact Or.inl hc
      · exact Or.inr hd
  cases hsearch with
  | pass hseen hsearch =>
    have hwaits := hwaits hseen (List.Subset.refl _)
    refine ⟨seen, visited, ⟨hsearch.append (hwaits c hseen), ?_, hunfound⟩, rfl⟩
    exact fun e he d hd => (hwaits e he d hd).imp_right (List.mem_append_left _)
  | @visit _ _ _ later hnew hsearch =>
    refine ⟨c :: seen, later, ⟨hsearch, ?_, List.forall_mem_cons.2 ⟨hc, hunfound⟩⟩, ?_⟩
    · intro e he d hd
      rcases List.mem_cons.1 he with rfl | he
      · exact Or.inr (List.mem_append_right _ hd)
      · exact (hwaits (List.mem_cons_self ..) (List.subset_cons_self ..) e he d hd).imp_right
          (List.mem_append_left _)
    · rw [List.findSome?_cons, hc]

/-- If nothing is found at the first that wait, the search goes on with all that is linked to
them. -/
theorem Underway.steps {first : List α} (h : Underway next g (first ++ queue) seen visited)
    (hfirst : ∀ c ∈ first, g c = none) :
    ∃ seen' later, Underway next g (queue ++ first.flatMap next) seen' later ∧
      visited.findSome? g = later.findSome? g := by
  induction first generalizing queue seen visited with
  | nil => exact ⟨seen, visited, by simpa using h, rfl⟩
  | cons c first ih =>
    obtain ⟨hc, hfirst⟩ := List.forall_mem_cons.1 hfirst
    obtain ⟨seen₁, later₁, h₁, e₁⟩ := h.step hc
    rw [List.append_eq, List.append_assoc] at h₁
    obtain ⟨seen₂, later₂, h₂, e₂⟩ := ih h₁ hfirst
    rw [List.append_assoc] at h₂
    exact ⟨seen₂, later₂, h₂, e₁.trans e₂⟩

/-- What is first in layers is found. -/
theorem Underway.findSome?_of_firstAnswer (h : Underway next g queue seen visited)
    (hfound : FirstAnswer next queue g b) : visited.findSome? g = some b := by
  obtain ⟨n, hnone, hsome⟩ := hfound
  -- layer after layer waits
  induction n generalizing queue seen visited with
  | zero => exact h.search.findSome?_of_queue h.unfound hsome
  | succ n ih =>
    have h : Underway next g (queue ++ []) seen visited := by rwa [List.append_nil]
    obtain ⟨seen', later, h', e⟩ := h.steps (List.findSome?_eq_none_iff.1 (hnone 0 n.succ_pos))
    rw [e]
    refine ih h' (fun k hk => ?_) hsome
    exact hnone (k + 1) (Nat.succ_lt_succ hk)

/-- If one layer has something to be found, then something is first. -/
theorem exists_firstAnswer {start : List α} {n : Nat} {c : α} (hmem : c ∈ layer next start n)
    (hc : g c ≠ none) : ∃ b, FirstAnswer next start g b := by
  have hex : ∃ n, (layer next start n).findSome? g ≠ none :=
    ⟨n, fun hnone => hc (List.findSome?_eq_none_iff.1 hnone c hmem)⟩
  classical
  obtain ⟨b, hb⟩ := Option.ne_none_iff_exists'.1 (Nat.find_spec hex)
  exact ⟨b, Nat.find hex, fun k hk => not_not.1 (Nat.find_min hex hk), hb⟩

/-- A search finds what is first in layers. -/
theorem Underway.findSome?_iff (h : Underway next g queue seen visited) :
    visited.findSome? g = some b ↔ FirstAnswer next queue g b := by
  refine ⟨fun hb => ?_, h.findSome?_of_firstAnswer⟩
  obtain ⟨c, hc, hcb⟩ := List.exists_of_findSome?_eq_some hb
  obtain ⟨n, hn⟩ := h.search.exists_mem_layer hc
  obtain ⟨b', hb'⟩ := exists_firstAnswer hn (g := g) (by rw [hcb]; exact Option.some_ne_none b)
  obtain rfl := Option.some.inj (hb.symm.trans (h.findSome?_of_firstAnswer hb'))
  exact hb'

/-- A class that is met by a search precedes those that are not met before it. -/
theorem Search.precedes {c d : α} {before after : List α}
    (h : Search next queue [] (before ++ c :: after)) (hc : c ∉ before) (hd : d ∉ before) :
    Precedes next queue c d := by
  classical
  -- of these two, `c` is found first
  have hbefore : ∀ e ∈ before, Option.guard (fun e => e = c ∨ e = d) e = none := by
    intro e he
    have hne : e ≠ c ∧ e ≠ d := ⟨ne_of_mem_of_not_mem he hc, ne_of_mem_of_not_mem he hd⟩
    simp [hne]
  have hfound : (before ++ c :: after).findSome? (Option.guard fun e => e = c ∨ e = d) = some c :=
    List.findSome?_eq_some_iff.2 ⟨before, c, after, rfl, by simp, hbefore⟩
  have hunderway : Underway next (Option.guard fun e => e = c ∨ e = d) queue []
      (before ++ c :: after) :=
    ⟨h, by simp, by simp⟩
  obtain ⟨c', hc', hprecedes⟩ := (hunderway.findSome?_iff.1 hfound).exists_precedes
  obtain rfl := (Option.guard_eq_some_iff.1 hc').1
  exact hprecedes d (by simp)

/-- A search that begins with nothing seen meets its classes in the order in which layers do. -/
theorem Search.pairwise_precedes (h : Search next queue [] visited) (hnodup : visited.Nodup) :
    visited.Pairwise (Precedes next queue) := by
  rw [List.pairwise_iff_forall_sublist]
  intro c d hsub
  obtain ⟨first, last, rfl, hc, hd⟩ := List.cons_sublist_iff.1 hsub
  obtain ⟨before, after, rfl⟩ := List.append_of_mem hc
  have hd : d ∈ last := List.singleton_sublist.1 hd
  rw [List.append_assoc, List.nodup_append] at hnodup
  rw [List.append_assoc] at h
  -- what stands before `c` is neither `c` nor `d`
  exact h.precedes (fun he => hnodup.2.2 c he c (by simp) rfl)
    fun he => hnodup.2.2 d he d (by simp [hd]) rfl

end Found

end PointerAnalysis.Program
