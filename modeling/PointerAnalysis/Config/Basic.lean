import PointerAnalysis.Config.Error
import PointerAnalysis.Context.Sensitivity
import PointerAnalysis.WorkList

/-!
# Configurations

A configuration chooses the context sensitivity, the order of the work list and the budget of an
analysis.  Presets are ready-made configurations.  Not every configuration makes sense: a context
depth has to lie between one and `maxContextDepth`, and a budget must not be zero.
-/

namespace PointerAnalysis

/-! ## Checks -/

/-- Values that can be refused. -/
class Checkable (α : Type) where
  /-- What the value is called in messages. -/
  name : String := "config"
  check : α → Except ConfigError Unit

/-- The value itself, unless it is refused. -/
def checked {α : Type} [Checkable α] (a : α) : Except ConfigError α := do
  Checkable.check a
  return a

/-- A number has to lie between two bounds, both of which are allowed. -/
def checkRange (config field : String) (value low high : Nat) (hint : String) :
    Except ConfigError Unit :=
  if low ≤ value ∧ value ≤ high then pure ()
  else .error (.range config field value low high hint)

/-! ## Presets -/

/-- The ready-made configurations. -/
inductive Preset where
  /-- Without contexts, for quick checks. -/
  | fast
  /-- With one receiver object as context. -/
  | balanced
  /-- With two receiver objects as context. -/
  | thorough
  /-- A plain one to start from. -/
  | custom
deriving DecidableEq, Repr

namespace Preset

instance : Inhabited Preset := ⟨balanced⟩

/-- All presets. -/
def all : List Preset := [fast, balanced, thorough, custom]

/-- The name of a preset. -/
def text : Preset → String
  | fast => "fast"
  | balanced => "balanced"
  | thorough => "thorough"
  | custom => "custom"

/-- The preset of a name, in which the case of letters does not matter.

No letter beyond ASCII has one of the letters of these names as its small form, so it is enough to
lower those of ASCII. -/
def ofText (name : String) : Except ConfigError Preset :=
  match all.find? fun preset => preset.text.toList = name.toList.map Char.toLower with
  | some preset => pure preset
  | none => .error (.unknownPreset name)

end Preset

/-! ## Configurations -/

/-- The greatest depth a configured context may have. -/
def maxContextDepth : Nat := 5

/-- The settings of an analysis. -/
structure Config where
  sensitivity : Sensitivity
  order : Order
  /-- How many deliveries may be processed; without a number there is no limit. -/
  budget : Option Nat
deriving DecidableEq, Repr

instance : Inhabited Order := ⟨.fifo⟩

namespace Config

/-- The configuration of a preset. -/
def ofPreset : Preset → Config
  | .fast => ⟨.insensitive, .fifo, some 5000000⟩
  | .balanced => ⟨.object 1, .fifo, none⟩
  | .thorough => ⟨.object 2, .fifo, none⟩
  | .custom => ⟨.insensitive, .fifo, none⟩

instance : Inhabited Config := ⟨ofPreset default⟩

/-- The plain configuration without contexts. -/
def insensitive : Config := ofPreset .custom

/-- The name of a configuration in messages. -/
def name : String := "PtaConfig"

/-- Refuses context depths out of range and an empty budget. -/
def check (c : Config) : Except ConfigError Unit := do
  if c.sensitivity ≠ .insensitive then
    checkRange name "sensitivity.k" c.sensitivity.depth 1 maxContextDepth
      "use `insensitive` for k = 0; deeper contexts explode the pointer universe"
  if c.budget = some 0 then
    .error (.meaningless name
      "max_worklist_entries must be positive, or absent for no limit")

instance : Checkable Config where
  name := name
  check := check

end Config

end PointerAnalysis
