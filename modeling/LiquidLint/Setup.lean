import LiquidLint.Analyzer
import LiquidLint.Config

/-!
# Setting up an analyzer

What an analyzer is made of: a configuration, checks and a theme, each of which may be left out.
Checks named by hand take the place of those that the configuration enables, while the severities it
sets apply to them as well.
-/

namespace LiquidLint

/-- What an analyzer is made of. -/
structure Setup where
  config : Option Config := none
  /-- A theme that needs no loading. -/
  theme : Option Theme := none
  /-- The directory of the theme, in place of the configured one. -/
  root : Option Path := none
  /-- Checks in place of the configured ones, if there are any. -/
  checks : List Check := []
  autoCorrect : Bool := false

namespace Setup

/-- The directory of the theme. -/
def themeRoot (s : Setup) : Path := (s.root.or (s.config.map (·.root))).getD ⟨"."⟩

/-- The patterns of files to skip. -/
def ignore (s : Setup) : List String := (s.config.map (·.ignore)).getD []

/-- The theme, loaded unless it is given. -/
def loadTheme (s : Setup) (tree : FileTree) : Except ThemeError Theme :=
  match s.theme with
  | some theme => .ok theme
  | none => Theme.load tree s.themeRoot s.ignore

/-- The checks that run. -/
def activeChecks (s : Setup) : List Check :=
  match s.config with
  | some c => if s.checks.isEmpty then c.enabledChecks else s.checks
  | none => s.checks

/-- The severity that the configuration sets for a check. -/
def severity? (s : Setup) (name : String) : Option Severity :=
  s.config.bind (·.severity? name)

/-- The analyzer. -/
def analyzer (s : Setup) (tree : FileTree) : Except ThemeError Analyzer :=
  (s.loadTheme tree).map fun theme =>
    Analyzer.new theme s.activeChecks s.severity? s.autoCorrect

end Setup

end LiquidLint
