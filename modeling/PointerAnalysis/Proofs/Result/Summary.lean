import PointerAnalysis.Proofs.Result.Labels

/-!
# What a summary shows of points-to sets

A summary lists objects under the names of variables.  A variable is met once for each of its
contexts, and a name that has an entry is passed over, so that nothing is listed twice.  Names of
variables need not differ, though: of several variables of one name, the first one that refers to
anything is shown, and what the others refer to is not.

## Main definitions

- `Result.varsInUse`: the variables of a result, in the order of their pointers.
- `Result.shownAs`: what a variable has to show under a name.

## Main statements

- `lookup_summary`: the entry of a name is that of the first variable that has something to show.
- `summary_pointsTo`: what entries hold, and which variables have one.
- `twinVars_summary`: a points-to fact that a summary leaves out.
-/

namespace PointerAnalysis

open Solver

/-! ## Lists by name -/

namespace NamedLists

theorem lookup_cons (key name : String) (texts : List String) (lists : NamedLists) :
    List.lookup key ((name, texts) :: lists) =
      if key = name then some texts else lists.lookup key := by
  rw [List.lookup_cons]
  by_cases e : key = name
  · rw [if_pos e, e, beq_self_eq_true]
  · rw [if_neg e, beq_eq_false_iff_ne.2 e]

/-- Putting a list under a name changes the entry of that name, and no other. -/
theorem lookup_put (key name : String) (texts : List String) (lists : NamedLists) :
    (put name texts lists).lookup key = if key = name then some texts else lists.lookup key := by
  induction lists with
  | nil => exact lookup_cons key name texts []
  | cons entry rest ih =>
    obtain ⟨head, old⟩ := entry
    unfold put
    split
    · -- the name comes later, so the head has another one
      rename_i hlt
      rw [lookup_cons, lookup_cons, ih]
      by_cases e : key = head
      · rw [if_pos e, if_pos e, if_neg (e ▸ (String.ne_of_lt hlt))]
      · rw [if_neg e, if_neg e]
    · split
      · exact lookup_cons key name texts _
      · rename_i hle hge
        -- neither comes before the other
        obtain rfl : head = name := String.le_antisymm hge hle
        rw [lookup_cons, lookup_cons]
        split <;> rfl

end NamedLists

namespace Result

variable {r : Result} {p : Program}

/-! ## Entries -/

/-- The labels of a variable are the labels of the objects it refers to. -/
theorem mem_labelsOf {v : VarId} {os : AscendingSet ObjId} {labels : List String}
    (hos : r.pointsTo v = .ok os) (h : r.labelsOf p v = .ok labels) {label : String} :
    label ∈ labels ↔ ∃ o ∈ os, r.objLabel p o = .ok label := by
  obtain ⟨os', hos', hmap⟩ := Outcome.bind_eq_ok.1 h
  obtain rfl := Except.ok.inj (hos.symm.trans hos')
  exact Outcome.mem_of_mapM_eq_ok hmap

/-- The variables of a result, in the order of their pointers. -/
def varsInUse (r : Result) : List VarId :=
  r.output.world.pointers.toList.filterMap fun key => key.var?.map Prod.snd

/-- What a variable has to show under a name: its labels, if the name is its own and there are
any. -/
def shownAs (r : Result) (p : Program) (name : String) (v : VarId) : Option (List String) :=
  match p.varName v, r.labelsOf p v with
  | .ok own, .ok labels => if own = name ∧ labels ≠ [] then some labels else none
  | _, _ => none

theorem shownAs_eq {name own : String} {v : VarId} {labels : List String}
    (hown : p.varName v = .ok own) (hlabels : r.labelsOf p v = .ok labels) :
    r.shownAs p name v = if own = name ∧ labels ≠ [] then some labels else none := by
  rw [shownAs, hown, hlabels]

/-- A variable is shown under its own name, unless it refers to nothing. -/
theorem shownAs_eq_some {name : String} {v : VarId} {labels : List String} :
    r.shownAs p name v = some labels ↔
      p.varName v = .ok name ∧ r.labelsOf p v = .ok labels ∧ labels ≠ [] := by
  unfold shownAs
  cases hname : p.varName v with
  | error e => simp
  | ok own =>
    cases hlabels : r.labelsOf p v with
    | error e => simp
    | ok ls =>
      simp only [Option.ite_none_right_eq_some, Option.some.injEq, Except.ok.injEq]
      constructor
      · intro h
        obtain ⟨⟨rfl, hne⟩, rfl⟩ := h
        exact ⟨rfl, rfl, hne⟩
      · intro h
        obtain ⟨rfl, rfl, hne⟩ := h
        exact ⟨⟨rfl, hne⟩, rfl⟩

/-- A variable adds its labels to the lists, unless it has none or its name is taken. -/
theorem addPointsTo_eq {lists : NamedLists} {v : VarId} {name : String} {labels : List String}
    (hname : p.varName v = .ok name) (hlabels : r.labelsOf p v = .ok labels) :
    r.addPointsTo p lists v =
      .ok (if (lists.lookup name).isSome ∨ labels = [] then lists
        else NamedLists.put name labels lists) := by
  obtain ⟨os, hos, hmap⟩ := Outcome.bind_eq_ok.1 hlabels
  unfold addPointsTo
  rw [hname]
  show (if (lists.lookup name).isSome then pure lists else _ : Outcome NamedLists) = _
  -- a name that is taken is skipped before the objects are looked at
  by_cases htaken : (lists.lookup name).isSome
  · rw [if_pos htaken, if_pos (Or.inl htaken)]
    rfl
  · rw [if_neg htaken, hos]
    show (os.toList.mapM (r.objLabel p) >>= _) = _
    rw [hmap]
    show (if labels.isEmpty then pure lists else pure (NamedLists.put name labels lists) :
      Outcome NamedLists) = _
    by_cases hempty : labels = []
    · rw [if_pos (Or.inr hempty), if_pos (List.isEmpty_iff.2 hempty)]
      rfl
    · rw [if_neg (not_or.2 ⟨htaken, hempty⟩), if_neg (mt List.isEmpty_iff.1 hempty)]
      rfl

/-- The pass over the variables gives each name the list of the first variable that has something to
show under it. -/
theorem exists_foldlM_addPointsTo {vs : List VarId}
    (hvs : ∀ v ∈ vs, ∃ name labels, p.varName v = .ok name ∧ r.labelsOf p v = .ok labels) :
    ∃ lists : NamedLists, vs.foldlM (r.addPointsTo p) [] = .ok lists ∧
      ∀ name, lists.lookup name = vs.findSome? (r.shownAs p name) := by
  refine Outcome.exists_foldlM_eq_ok
    (P := fun (done : List VarId) (lists : NamedLists) =>
      ∀ name, lists.lookup name = done.findSome? (r.shownAs p name)) (fun name => rfl) ?_
  intro done v lists hv hlists
  obtain ⟨own, labels, hown, hlabels⟩ := hvs v hv
  refine ⟨_, addPointsTo_eq hown hlabels, fun name => ?_⟩
  rw [List.findSome?_append, ← hlists, List.findSome?_cons, List.findSome?_nil,
    shownAs_eq hown hlabels]
  by_cases e : own = name
  · subst e
    by_cases hempty : labels = []
    · simp [hempty]
    · cases htaken : lists.lookup own with
      | none => simp [hempty, NamedLists.lookup_put]
      | some ls => simp [htaken]
  · -- under other names there is nothing new, neither in the lists nor to show
    have hnone : (if own = name ∧ labels ≠ [] then some labels else none) = none :=
      if_neg fun h => e h.1
    rw [hnone, Option.or_none]
    split
    · rfl
    · rw [NamedLists.lookup_put, if_neg (Ne.symm e)]

/-! ## Summaries -/

theorem mem_varsInUse {v : VarId} :
    v ∈ r.varsInUse ↔ ∃ h c, r.output.world.pointers.get? h = some (.var c v) := by
  simp only [varsInUse, List.mem_filterMap, Table.get?_eq_toList]
  constructor
  · intro hv
    obtain ⟨key, hkey, e⟩ := hv
    obtain ⟨i, hi⟩ := List.mem_iff_getElem?.1 hkey
    cases key with
    | var c w =>
      obtain rfl : w = v := by simpa [Pointer.var?] using e
      exact ⟨⟨i⟩, c, hi⟩
    | _ => simp [Pointer.var?] at e
  · intro hv
    obtain ⟨h, c, hh⟩ := hv
    exact ⟨.var c v, List.mem_of_getElem? hh, rfl⟩

namespace Presentable

variable (hr : r.Presentable p)
include hr

/-- A presentable result has a summary.  Under each name it shows the first variable that has
something to show. -/
theorem lookup_summary :
    ∃ S, r.summary p = .ok S ∧
      ∀ name, S.pointsTo.lookup name = r.varsInUse.findSome? (r.shownAs p name) := by
  obtain ⟨g, hg, hreachable, hedges⟩ := hr.exists_namedCallGraph
  obtain ⟨methods, hmethods⟩ := Outcome.exists_mapM hreachable
  obtain ⟨calls, hcalls⟩ := Outcome.exists_mapM (f := callSummary p) fun e he => by
    obtain ⟨⟨caller, howner, signature, hs⟩, callee, hc⟩ := hedges e he
    exact ⟨_, Outcome.bind_eq_ok.2 ⟨caller, howner, Outcome.bind_eq_ok.2 ⟨signature, hs,
      Outcome.bind_eq_ok.2 ⟨callee, hc, rfl⟩⟩⟩⟩
  obtain ⟨lists, hlists, hlookup⟩ := exists_foldlM_addPointsTo (r := r) (p := p) fun v hv => by
    obtain ⟨h, c, hh⟩ := mem_varsInUse.1 hv
    obtain ⟨name, hname⟩ := hr.vars h c v hh
    obtain ⟨labels, hlabels⟩ := hr.exists_labelsOf v
    exact ⟨name, labels, hname, hlabels⟩
  refine ⟨_, Outcome.bind_eq_ok.2 ⟨g, hg, Outcome.bind_eq_ok.2 ⟨methods, hmethods,
    Outcome.bind_eq_ok.2 ⟨calls, hcalls, Outcome.bind_eq_ok.2 ⟨lists, hlists, rfl⟩⟩⟩⟩, hlookup⟩

/-- A variable that refers to an object is in use, and has something to show under its name. -/
theorem exists_shownAs {v : VarId} {os : AscendingSet ObjId} (hos : r.pointsTo v = .ok os)
    {o : ObjId} (ho : o ∈ os) :
    v ∈ r.varsInUse ∧ ∃ name labels, r.shownAs p name v = some labels := by
  obtain ⟨os', hos', hmem⟩ := hr.readable.exists_projectAll (r.output.world.pointersOf v)
    fun h hh => by
      obtain ⟨c, hc⟩ := hr.readable.varsIndexed.mem.1 hh
      exact Table.has_of_get? hc
  obtain rfl := Except.ok.inj (hos.symm.trans hos')
  obtain ⟨h, hh, -⟩ := (hmem o).1 ho
  obtain ⟨c, hc⟩ := hr.readable.varsIndexed.mem.1 hh
  obtain ⟨name, hname⟩ := hr.vars h c v hc
  obtain ⟨labels, hlabels⟩ := hr.exists_labelsOf v
  refine ⟨mem_varsInUse.2 ⟨h, c, hc⟩, name, labels, shownAs_eq_some.2 ⟨hname, hlabels, ?_⟩⟩
  -- the object has a label, so there are some
  rintro rfl
  obtain ⟨os', hos', hlabel⟩ := hr.exists_label_of_collects (hr.readable.pointsTo v)
  obtain rfl := Except.ok.inj (hos.symm.trans hos')
  obtain ⟨label, hlabel⟩ := hlabel o ho
  cases (mem_labelsOf hos hlabels).2 ⟨o, ho, hlabel⟩

end Presentable

end Result

/-! ## Main statements -/

section Main

variable {p : Program} {σ : Sensitivity} {order : Order} {budget : Option Nat} {out : Output}
  {label : String} {r : Result}

/-- The result of a run on a built program has a summary.  Every entry lists the labels of what one
variable of that name refers to, namely the first that refers to anything.  Every variable that
refers to something has an entry under its name, and if no other variable of that name refers to
anything, the entry lists all that it refers to. -/
theorem summary_pointsTo (hp : p.Built) (h : solve p σ order budget = .ok out)
    (hr : Result.ofOutput label out = .ok r) :
    ∃ S, r.summary p = .ok S ∧
      (∀ name, S.pointsTo.lookup name = r.varsInUse.findSome? (r.shownAs p name)) ∧
      (∀ name labels, S.pointsTo.lookup name = some labels →
        ∃ v os, p.varName v = .ok name ∧ r.pointsTo v = .ok os ∧
          ∀ label, label ∈ labels ↔ ∃ o ∈ os, r.objLabel p o = .ok label) ∧
      ∀ v os, r.pointsTo v = .ok os → os.isEmpty = false →
        ∃ name labels, p.varName v = .ok name ∧ S.pointsTo.lookup name = some labels ∧
          ((∀ w os', p.varName w = .ok name → r.pointsTo w = .ok os' → os'.isEmpty = false → w = v) →
            ∀ o ∈ os, ∃ label ∈ labels, r.objLabel p o = .ok label) := by
  have hpresentable := presentable_of_solve hp h hr
  obtain ⟨S, hS, hlookup⟩ := hpresentable.lookup_summary
  have hentry : ∀ name labels, S.pointsTo.lookup name = some labels →
      ∃ v, r.shownAs p name v = some labels := by
    intro name labels hlabels
    rw [hlookup] at hlabels
    exact (List.exists_of_findSome?_eq_some hlabels).imp fun _ h => h.2
  refine ⟨S, hS, hlookup, fun name labels hlabels => ?_, fun v os hos hne => ?_⟩
  · obtain ⟨v, hv⟩ := hentry name labels hlabels
    obtain ⟨hname, hlabels, -⟩ := Result.shownAs_eq_some.1 hv
    obtain ⟨os, hos, -⟩ := Outcome.bind_eq_ok.1 hlabels
    exact ⟨v, os, hname, hos, fun _ => Result.mem_labelsOf hos hlabels⟩
  · obtain ⟨o, ho⟩ := AscendingSet.isEmpty_eq_false_iff.1 hne
    obtain ⟨hv, name, own, hown⟩ := hpresentable.exists_shownAs hos ho
    -- there is an entry, since the variable has something to show
    obtain ⟨labels, hlabels⟩ : ∃ labels, S.pointsTo.lookup name = some labels := by
      rw [hlookup, ← Option.isSome_iff_exists, List.findSome?_isSome_iff]
      exact ⟨v, hv, by rw [hown]; rfl⟩
    refine ⟨name, labels, (Result.shownAs_eq_some.1 hown).1, hlabels, fun hunique o ho => ?_⟩
    obtain ⟨w, hw⟩ := hentry name labels hlabels
    obtain ⟨hname, hlist, hsome⟩ := Result.shownAs_eq_some.1 hw
    obtain ⟨os', hos', hmap⟩ := Outcome.bind_eq_ok.1 hlist
    -- the variable that is shown refers to something, so it is the only one
    obtain ⟨x, hx⟩ := List.exists_mem_of_ne_nil _ hsome
    obtain ⟨o', ho', -⟩ := (Result.mem_labelsOf hos' hlist).1 hx
    obtain rfl := hunique w os' hname hos' (AscendingSet.isEmpty_eq_false_iff.2 ⟨o', ho'⟩)
    obtain ⟨os₁, hos₁, hlabel⟩ :=
      hpresentable.exists_label_of_collects (hpresentable.readable.pointsTo w)
    obtain rfl := Except.ok.inj (hos.symm.trans hos₁)
    obtain ⟨label, hlabel⟩ := hlabel o ho
    exact ⟨label, (Result.mem_labelsOf hos hlist).2 ⟨o, ho, hlabel⟩, hlabel⟩

/-- In the summary for the box program the variable `x` has an entry. -/
theorem boxProgram_summary :
    ∃ out r S labels, boxProgram.Built ∧ solve boxProgram (.object 1) .fifo none = .ok out ∧
      Result.ofOutput (Sensitivity.object 1).label out = .ok r ∧ r.summary boxProgram = .ok S ∧
      S.pointsTo.lookup "<Box: void main()>/x" = some labels := by
  have hrun : (do
      let out ← solve boxProgram (.object 1) .fifo none
      let r ← Result.ofOutput (Sensitivity.object 1).label out
      let os ← r.pointsTo ⟨2⟩
      return os.isEmpty) = Except.ok false := by decide +kernel
  have hname : boxProgram.varName ⟨2⟩ = .ok "<Box: void main()>/x" := by decide +kernel
  obtain ⟨out, hout, hrun⟩ := Outcome.bind_eq_ok.1 hrun
  obtain ⟨r, hr, hrun⟩ := Outcome.bind_eq_ok.1 hrun
  obtain ⟨os, hos, hrun⟩ := Outcome.bind_eq_ok.1 hrun
  obtain ⟨S, hS, -, -, hcovers⟩ := summary_pointsTo boxProgram_built hout hr
  obtain ⟨name, labels, hname', hlabels, -⟩ := hcovers ⟨2⟩ os hos (Outcome.pure_eq_ok.1 hrun)
  obtain rfl := Except.ok.inj (hname.symm.trans hname')
  exact ⟨out, r, S, labels, boxProgram_built, hout, hr, hS, hlabels⟩

/-- The steps of a program in which two variables of one name refer to one object each. -/
def twinVarsSteps : List Draft.Step :=
  [.declareClass "A" none, .declareMethod ⟨0⟩ ⟨"void main()"⟩ .static, .setEntry ⟨0⟩,
    .declareVar ⟨0⟩ "x", .declareVar ⟨0⟩ "x", .append ⟨0⟩ (.alloc ⟨0⟩ (.cls ⟨0⟩)),
    .append ⟨0⟩ (.alloc ⟨1⟩ (.cls ⟨0⟩))]

/-- Of two variables of one name the summary shows the first.  What the second refers to is left
out. -/
theorem twinVars_summary :
    ∃ p out r S os, p.Built ∧ solve p .insensitive .fifo none = .ok out ∧
      Result.ofOutput Sensitivity.insensitive.label out = .ok r ∧ r.summary p = .ok S ∧
      r.pointsTo ⟨1⟩ = .ok os ∧ os.toList = [⟨1⟩] ∧ r.objLabel p ⟨1⟩ = .ok "A@s1" ∧
      p.varName ⟨1⟩ = .ok "<A: void main()>/x" ∧
      S.pointsTo.lookup "<A: void main()>/x" = some ["A@s0"] := by
  have hrun : (do
      let p ← (Draft.ofSteps twinVarsSteps).build
      let out ← solve p .insensitive .fifo none
      let r ← Result.ofOutput Sensitivity.insensitive.label out
      let S ← r.summary p
      let os ← r.pointsTo ⟨1⟩
      return (os.toList, r.objLabel p ⟨1⟩, p.varName ⟨1⟩,
        S.pointsTo.lookup "<A: void main()>/x")) =
      Except.ok ([⟨1⟩], .ok "A@s1", .ok "<A: void main()>/x", some ["A@s0"]) := by
    decide +kernel
  obtain ⟨p, hp, hrun⟩ := Outcome.bind_eq_ok.1 hrun
  obtain ⟨out, hout, hrun⟩ := Outcome.bind_eq_ok.1 hrun
  obtain ⟨r, hr, hrun⟩ := Outcome.bind_eq_ok.1 hrun
  obtain ⟨S, hS, hrun⟩ := Outcome.bind_eq_ok.1 hrun
  obtain ⟨os, hos, hrun⟩ := Outcome.bind_eq_ok.1 hrun
  simp only [Outcome.pure_eq_ok, Prod.mk.injEq] at hrun
  obtain ⟨hlist, hlabel, hname, hentry⟩ := hrun
  exact ⟨p, out, r, S, os, ⟨_, hp⟩, hout, hr, hS, hos, hlist, hlabel, hname, hentry⟩

end Main

end PointerAnalysis
