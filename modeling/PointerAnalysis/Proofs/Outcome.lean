import PointerAnalysis.Failure

/-!
# Reasoning about outcomes

Outcomes of composed computations, taken apart into the outcomes of their parts.
-/

namespace PointerAnalysis.Outcome

variable {α β : Type}

theorem bind_eq_ok {x : Outcome α} {f : α → Outcome β} {b : β} :
    (x >>= f) = .ok b ↔ ∃ a, x = .ok a ∧ f a = .ok b := by
  cases x <;> simp [bind, Except.bind]

theorem pure_eq_ok {a b : α} : (pure a : Outcome α) = .ok b ↔ a = b := by
  simp [pure, Except.pure]

theorem map_eq_ok {x : Outcome α} {f : α → β} {b : β} :
    (f <$> x) = .ok b ↔ ∃ a, x = .ok a ∧ f a = b := by
  cases x <;> simp [Functor.map, Except.map]

theorem defect_ne_ok {d : Defect} {a : α} : (defect d : Outcome α) ≠ .ok a := by
  simp [defect]

theorem exists_eq_ok {x : Outcome α} (h : x.isOk = true) : ∃ a, x = .ok a := by
  cases x with
  | ok a => exact ⟨a, rfl⟩
  | error e => cases h

/-- A computation gives an answer if something is known of its answer. -/
theorem exists_of_toOption_map {x : Outcome α} {f : α → β} {b : β}
    (h : (x.map f).toOption = some b) : ∃ a, x = .ok a ∧ f a = b := by
  cases x with
  | ok a => exact ⟨a, rfl, Option.some.inj h⟩
  | error e => cases h

/-- A list of checks passes when each of them does. -/
theorem forM_eq_ok {xs : List α} {f : α → Outcome Unit} :
    xs.forM f = .ok () ↔ ∀ x ∈ xs, f x = .ok () := by
  induction xs with
  | nil => simp [pure, Except.pure]
  | cons x xs ih =>
    rw [List.forM_eq_forM] at ih ⊢
    rw [List.forM_cons, bind_eq_ok, List.forall_mem_cons, ← ih]
    exact ⟨fun ⟨_, h, h'⟩ => ⟨h, h'⟩, fun ⟨h, h'⟩ => ⟨(), h, h'⟩⟩

instance {x : Outcome α} {P : α → Prop} [DecidablePred P] : Decidable (∀ a, x = .ok a → P a) :=
  match x with
  | .ok a => decidable_of_iff (P a) ⟨fun h _ e => Except.ok.inj e ▸ h, fun h => h a rfl⟩
  | .error _ => isTrue fun _ e => by cases e

theorem exists_mapM_eq_ok {xs : List α} {f : α → Outcome β} {P : β → Prop}
    (h : ∀ x ∈ xs, ∃ b, f x = .ok b ∧ P b) : ∃ bs, xs.mapM f = .ok bs ∧ ∀ b ∈ bs, P b := by
  induction xs with
  | nil => exact ⟨[], rfl, by simp⟩
  | cons x xs ih =>
    obtain ⟨b, hb, hP⟩ := h x (List.mem_cons_self ..)
    obtain ⟨bs, hbs, hPs⟩ := ih fun y hy => h y (List.mem_cons_of_mem _ hy)
    refine ⟨b :: bs, ?_, List.forall_mem_cons.2 ⟨hP, hPs⟩⟩
    rw [List.mapM_cons, hb, hbs]
    rfl

theorem exists_mapM {xs : List α} {f : α → Outcome β} (h : ∀ x ∈ xs, ∃ b, f x = .ok b) :
    ∃ bs, xs.mapM f = .ok bs := by
  obtain ⟨bs, hbs, -⟩ := exists_mapM_eq_ok (P := fun _ => True) fun x hx =>
    (h x hx).imp fun _ hb => ⟨hb, trivial⟩
  exact ⟨bs, hbs⟩

/-- If it is known what each element is mapped to, it is known what the list is mapped to. -/
theorem mapM_eq_ok_map {f : α → Outcome β} {g : α → β} {xs : List α}
    (h : ∀ x ∈ xs, f x = .ok (g x)) : xs.mapM f = .ok (xs.map g) := by
  induction xs with
  | nil => rfl
  | cons x xs ih =>
    obtain ⟨hx, hxs⟩ := List.forall_mem_cons.1 h
    rw [List.mapM_cons, hx, ih hxs]
    rfl

/-! ## Passes over lists -/

/-- A pass over a list succeeds if every step does.  What holds of the part that is done holds of
the whole list in the end. -/
theorem exists_foldlM_eq_ok {f : β → α → Outcome β} {P : List α → β → Prop} {xs : List α} {b : β}
    (h : P [] b)
    (hstep : ∀ done x b, x ∈ xs → P done b → ∃ b', f b x = .ok b' ∧ P (done ++ [x]) b') :
    ∃ b', xs.foldlM f b = .ok b' ∧ P xs b' := by
  -- the list is split into what is done and what is left, and the induction is on the latter
  have hrest : ∀ rest done b, rest ⊆ xs → P done b →
      ∃ b', rest.foldlM f b = .ok b' ∧ P (done ++ rest) b' := by
    intro rest
    induction rest with
    | nil => exact fun done b _ hb => ⟨b, rfl, by simpa using hb⟩
    | cons x rest ih =>
      intro done b hsub hb
      obtain ⟨hx, hrest⟩ := List.cons_subset.1 hsub
      obtain ⟨b₁, hb₁, hP₁⟩ := hstep done x b hx hb
      obtain ⟨b₂, hb₂, hP₂⟩ := ih (done ++ [x]) b₁ hrest hP₁
      refine ⟨b₂, ?_, by simpa using hP₂⟩
      rw [List.foldlM_cons, hb₁]
      exact hb₂
  simpa using hrest xs [] b (List.Subset.refl _) h

/-- What every step of a pass preserves, the pass preserves. -/
theorem foldlM_preserves {P : β → Prop} {f : β → α → Outcome β}
    (hf : ∀ b x b', f b x = .ok b' → P b → P b') {xs : List α} {b b' : β}
    (h : xs.foldlM f b = .ok b') (hb : P b) : P b' := by
  induction xs generalizing b with
  | nil => exact Except.ok.inj h ▸ hb
  | cons x xs ih =>
    rw [List.foldlM_cons] at h
    obtain ⟨b₁, hb₁, h⟩ := bind_eq_ok.1 h
    exact ih h (hf b x b₁ hb₁ hb)

/-- What every step of a pass keeps, the pass keeps. -/
theorem foldlM_keeps {γ : Type} (view : β → γ) {f : β → α → Outcome β}
    (hf : ∀ b x b', f b x = .ok b' → view b' = view b) {xs : List α} {b b' : β}
    (h : xs.foldlM f b = .ok b') : view b' = view b :=
  foldlM_preserves (P := fun b' => view b' = view b) (fun b x b' hb => (hf b x b' hb).trans) h rfl

/-- A pass that looks every element up and goes on with what it finds is a pass over what is found. -/
theorem foldlM_eq_of_mapM {γ : Type} {look : α → Outcome γ} {f : β → γ → β} {xs : List α}
    {ys : List γ} (h : xs.mapM look = .ok ys) (b : β) :
    xs.foldlM (fun b x => do return f b (← look x)) b = .ok (ys.foldl f b) := by
  induction xs generalizing ys b with
  | nil =>
    obtain rfl := Except.ok.inj h
    rfl
  | cons x xs ih =>
    rw [List.mapM_cons] at h
    obtain ⟨y, hy, h⟩ := bind_eq_ok.1 h
    obtain ⟨ys, hys, h⟩ := bind_eq_ok.1 h
    obtain rfl := pure_eq_ok.1 h
    rw [List.foldlM_cons, hy]
    exact ih hys (f b y)

/-- The answers for a list are the answers for its elements. -/
theorem mem_of_mapM_eq_ok {f : α → Outcome β} {xs : List α} {bs : List β}
    (h : xs.mapM f = .ok bs) {b : β} : b ∈ bs ↔ ∃ x ∈ xs, f x = .ok b := by
  induction xs generalizing bs with
  | nil =>
    obtain rfl := Except.ok.inj h
    simp
  | cons x xs ih =>
    rw [List.mapM_cons] at h
    obtain ⟨b₁, hb₁, h⟩ := bind_eq_ok.1 h
    obtain ⟨bs', hbs', h⟩ := bind_eq_ok.1 h
    obtain rfl := pure_eq_ok.1 h
    simp only [List.mem_cons, ih hbs', exists_eq_or_imp, hb₁, Except.ok.injEq]
    exact or_congr_left eq_comm

end PointerAnalysis.Outcome
