import PointerAnalysis.Result.Summary

/-!
# Analyzers

An analyzer is a configuration that has passed its checks.  It analyzes programs with the
sensitivity of the configuration, or with another one that need not obey the limits for configured
ones.
-/

namespace PointerAnalysis

/-- A configuration that is not refused. -/
structure Analyzer where
  config : Config
  checked : config.check = .ok ()

namespace Analyzer

/-- The analyzer of a configuration, unless the configuration is refused. -/
def ofConfig (config : Config) : Outcome Analyzer :=
  match h : config.check with
  | .ok () => pure ⟨config, h⟩
  | .error e => .error (.error (.config e))

/-- The analyzer of a preset. -/
def ofPreset (preset : Preset) : Outcome Analyzer := ofConfig (.ofPreset preset)

/-- Analyzes a program with a sensitivity of its own. -/
def analyzeWith (a : Analyzer) (p : Program) (σ : Sensitivity) : Outcome Result := do
  Result.ofOutput σ.label (← Solver.solve p σ a.config.order a.config.budget)

/-- Analyzes a program. -/
def analyze (a : Analyzer) (p : Program) : Outcome Result :=
  a.analyzeWith p a.config.sensitivity

end Analyzer

end PointerAnalysis
