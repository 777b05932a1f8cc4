/-!
# Configuration errors

Why a configuration is refused, and the message that says so.
-/

namespace PointerAnalysis

/-- The reasons to refuse a configuration. -/
inductive ConfigError where
  /-- A number outside its range, both ends of which are allowed. -/
  | range (config field : String) (value low high : Nat) (hint : String)
  /-- A name that is no preset. -/
  | unknownPreset (name : String)
  /-- A document that can not be read as text. -/
  | unreadable
  /-- A text that is no configuration document. -/
  | malformed
  /-- A value of the right type without a meaning. -/
  | meaningless (config reason : String)
deriving DecidableEq, Repr

/-- The message of a configuration error. -/
def ConfigError.message : ConfigError → String
  | range config field value low high hint =>
    s!"{config}.{field} = {value} is outside {low}..={high}: {hint}"
  | unknownPreset name =>
    s!"Unknown preset '{name}' (expected fast, balanced, thorough or custom)"
  | unreadable => "Cannot read config file"
  | malformed => "Invalid YAML config"
  | meaningless config reason => s!"Invalid {config}: {reason}"

end PointerAnalysis
