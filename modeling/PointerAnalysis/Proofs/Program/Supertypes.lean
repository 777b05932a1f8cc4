import PointerAnalysis.Proofs.Program.Build

/-!
# Supertypes of classes and of interfaces

In a built program classes extend classes, and what is listed as an interface is one.  Interfaces
extend interfaces only, so from an interface no chain of supertypes leads back to a class.  There may
be cycles all the same, of classes as well as of interfaces.

## Main definitions

- `Program.InterfacesApart`: supertypes are of the sort that their place demands.

## Main statements

- `rootless_ofSteps`: no step of a draft gives an interface a superclass.
- `Program.Built.interfacesApart`: in built programs interfaces are apart from classes.
-/

namespace PointerAnalysis

namespace Program

/-- Classes extend classes, only interfaces are listed as interfaces, and interfaces have no
superclass. -/
structure InterfacesApart (p : Program) : Prop where
  superclass : ∀ c decl d sup, p.classes.get? c = some decl → decl.superclass = some d →
    p.classes.get? d = some sup → sup.isInterface = false
  interfaces : ∀ c decl d sup, p.classes.get? c = some decl → d ∈ decl.interfaces →
    p.classes.get? d = some sup → sup.isInterface = true
  noSuperclass : p.classes.All fun decl => decl.isInterface = true → decl.superclass = none

end Program

namespace Draft

variable {d : Draft}

/-! ## Interfaces in a draft -/

theorem classes_changeClass (d : Draft) (c : ClassId) (defect : Defect)
    (f : ClassDecl → ClassDecl) :
    (d.changeClass c defect f).classes = d.classes ∨
      (d.changeClass c defect f).classes = d.classes.modify c f := by
  unfold changeClass
  split
  · exact Or.inr rfl
  · exact Or.inl rfl

theorem classes_changeBody (d : Draft) (m : MethodId) (defect : Defect) (f : Body → Body) :
    (d.changeBody m defect f).classes = d.classes := by
  unfold changeBody
  split
  · rfl
  · rfl

theorem classes_declareField (d : Draft) (c : ClassId) (name : String) (isStatic : Bool) :
    (d.declareField c name isStatic).2.classes = d.classes := by
  unfold declareField
  cases d.classes.get? c with
  | none => rfl
  | some decl => cases d.fields.find? fun f => f.owner = c && f.name = name <;> rfl

theorem classes_declareMethod (d : Draft) (c : ClassId) (s : Subsignature) (kind : MethodKind) :
    (d.declareMethod c s kind).2.classes = d.classes := by
  unfold declareMethod
  -- a mistake that is noted changes no table
  cases d.classes.get? c with
  | none => cases kind <;> rfl
  | some decl =>
    cases d.methods.find? fun m => m.owner = c && m.subsignature = s <;> cases kind <;> rfl

/-- An interface has no superclass. -/
def Rootless (decl : ClassDecl) : Prop := decl.isInterface = true → decl.superclass = none

/-- A change of a class that keeps its superclass and its sort keeps interfaces rootless. -/
theorem rootless_changeClass (h : d.classes.All Rootless) (c : ClassId) (defect : Defect)
    {f : ClassDecl → ClassDecl}
    (hf : ∀ decl, (f decl).superclass = decl.superclass ∧ (f decl).isInterface = decl.isInterface) :
    (d.changeClass c defect f).classes.All Rootless := by
  rcases classes_changeClass d c defect f with e | e
  · rw [e]
    exact h
  · rw [e]
    refine h.modify c fun old hold => ?_
    obtain ⟨hsuper, hsort⟩ := hf old
    unfold Rootless
    rw [hsuper, hsort]
    exact hold

/-- A step declares no interface with a superclass, and gives none to one that is there. -/
theorem rootless_step (h : d.classes.All Rootless) (s : Step) :
    (d.step s).2.classes.All Rootless := by
  cases s with
  | declareClass name superclass => exact h.push fun hsort => by cases hsort
  | declareInterface name supers => exact h.push fun _ => rfl
  | implement c interface => exact rootless_changeClass h c _ fun _ => ⟨rfl, rfl⟩
  | markAbstract c => exact rootless_changeClass h c _ fun _ => ⟨rfl, rfl⟩
  | declareField c name isStatic =>
    show (d.declareField c name isStatic).2.classes.All Rootless
    rw [classes_declareField]
    exact h
  | declareMethod c sub kind =>
    show (d.declareMethod c sub kind).2.classes.All Rootless
    rw [classes_declareMethod]
    exact h
  | declareParam m name =>
    simp only [step, step.numbered, declareParam, classes_changeBody]
    exact h
  | append m stmt =>
    simp only [step, step.numbered, append, classes_changeBody]
    exact h
  | declareVar m name => exact h
  | setEntry m => exact h
  | setRoot c => exact h

/-- No draft has an interface with a superclass, whatever the steps. -/
theorem rootless_ofSteps (steps : List Step) :
    (ofSteps steps).classes.All Rootless := by
  induction steps using List.reverseRecOn with
  | nil => exact Table.all_empty _
  | append_singleton steps s ih =>
    rw [ofSteps_concat]
    exact rootless_step ih s

end Draft

/-- In built programs interfaces are apart from classes. -/
theorem Program.Built.interfacesApart {p : Program} (h : p.Built) : p.InterfacesApart := by
  obtain ⟨steps, h⟩ := h
  obtain ⟨entry, hchecked, rfl⟩ := Draft.build_eq_ok h
  exact
    { superclass := fun c decl d sup hc hd hsup => by
        obtain ⟨sup', hsup', hsort⟩ := (hchecked.supertypes_of_get? hc).1 d hd
        obtain rfl := Option.some.inj (hsup.symm.trans hsup')
        exact hsort
      interfaces := fun c decl d sup hc hd hsup => by
        obtain ⟨sup', hsup', hsort⟩ := (hchecked.supertypes_of_get? hc).2 d hd
        obtain rfl := Option.some.inj (hsup.symm.trans hsup')
        exact hsort
      noSuperclass := Draft.rootless_ofSteps steps }

end PointerAnalysis
