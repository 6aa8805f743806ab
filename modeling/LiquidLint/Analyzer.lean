import LiquidLint.Check.Basic
import LiquidLint.Directive
import LiquidLint.Report.Basic
import LiquidLint.Theme.Load

/-!
# Analysing themes

An analyzer holds a theme and the checks that look at it. `analyze` shows every check the events of
the theme, drops what comments turn off and sorts what is left. `correct` applies the edits of the
offenses found and writes the changed templates. The trees of the templates are kept from one call to
the next in their cells, which an analysis fills and a correction empties.
-/

namespace LiquidLint

/-- A check in use: the severity of its offenses and those it has reported. -/
structure Instance where
  name : String
  severity : Severity
  check : Check
  offenses : List Offense

namespace Instance

/-- A check with its own severity that has reported nothing. -/
def ofCheck (c : Check) : Instance := ⟨c.name, c.defaultSeverity, c, []⟩

/-- A finding as an offense. -/
def offense (i : Instance) (f : Finding) : Offense :=
  ⟨i.name, i.severity, f.location, f.message, f.correction⟩

/-- Shows the check some events; its offenses are those reported now. -/
def run (i : Instance) (events : List Event) : Instance :=
  let (check, findings) := i.check.run events
  { i with check, offenses := findings.map i.offense }

/-- Sets the severity of the first check with each name, where `severity?` gives one. -/
def override (severity? : String → Option Severity) (done : List String) :
    List Instance → List Instance
  | [] => []
  | i :: is =>
    if done.contains i.name then i :: override severity? done is
    else { i with severity := (severity? i.name).getD i.severity } ::
      override severity? (i.name :: done) is

end Instance

/-- Why corrections cannot be applied. -/
inductive AnalyzerError where
  /-- A file cannot be read or written. -/
  | theme (error : ThemeError)
  /-- The analyzer was not made to correct anything. -/
  | autoCorrectDisabled
deriving DecidableEq, Repr

/-- The error as one line. -/
def AnalyzerError.message : AnalyzerError → String
  | .theme error => error.message
  | .autoCorrectDisabled => "Auto-correct is not enabled for this analyzer"

/-- What a round of corrections did. -/
structure CorrectionSummary where
  filesWritten : Nat
  applied : Nat
  skipped : Nat
deriving DecidableEq, Repr

/-- A theme and the checks that look at it. -/
structure Analyzer extends CachedTheme where
  instances : List Instance
  /-- Whether corrections may be applied. -/
  autoCorrect : Bool
  /-- The offenses of the last analysis that have not been mended. -/
  offenses : List Offense

namespace Analyzer

/-- An analyzer for a theme with the given checks, whose severities may be overridden. -/
def new (theme : Theme) (checks : List Check) (severity? : String → Option Severity)
    (autoCorrect : Bool) : Analyzer :=
  { toCachedTheme := .ofTheme theme
    instances := Instance.override severity? [] (checks.map .ofCheck)
    autoCorrect
    offenses := [] }

/-- The first check in use with a given name. -/
def instance? (a : Analyzer) (name : String) : Option Instance :=
  a.instances.find? (·.name == name)

/-! ### Analysis -/

/-- The parts of each template where checks are off, for templates that have such parts. -/
def disabledRangesOf (parsed : List (Template × ParseResult)) : List (Path × DisabledRanges) :=
  parsed.filterMap fun (t, tree) =>
    match tree with
    | .ok root =>
      let ranges := DisabledRanges.ofTemplate root t.source
      if ranges.isEmpty then none else some (t.relativePath, ranges)
    | .error _ => none

/-- Whether comments turn an offense off. Of templates with the same path the last one counts. -/
def isDisabled (a : Analyzer) (disabled : List (Path × DisabledRanges)) (o : Offense) : Bool :=
  match disabled.reverse.find? fun (path, _) => path.same o.location.path with
  | none => false
  | some (_, ranges) =>
    let canDisable := match a.instance? o.check with
      | some i => i.check.canDisable
      | none => true
    canDisable && ranges.isDisabled o.check o.location.start

/-- Looks at every file of the theme with every check. The visits fill the cells, and the comments are
then those of the trees in the cells. -/
def analyze (a : Analyzer) : Analyzer :=
  let events := a.theme.eventsOf a.parsed
  let ran : Analyzer :=
    { a with toCachedTheme := a.fill, instances := a.instances.map fun i => i.run events }
  let disabled := disabledRangesOf ran.parsed
  let found := ran.instances.flatMap fun i => i.offenses
  { ran with offenses := (found.filter (!ran.isDisabled disabled ·)).mergeSort Offense.le }

/-- The offenses of the last analysis as a report. -/
def report (a : Analyzer) : Report := ⟨a.offenses, a.theme.templates.length⟩

/-! ### Correction -/

/-- The edit for an offense, if its check has one. -/
def correction? (a : Analyzer) (o : Offense) : Option Correction :=
  match a.instance? o.check with
  | some i => if i.check.canCorrect then i.check.correct o else none
  | none => none

/-- Adds an edit to those of its path, in a list sorted by path. -/
def addEdit (path : Path) (c : Correction) :
    List (Path × List Correction) → List (Path × List Correction)
  | [] => [(path, [c])]
  | (p, cs) :: rest =>
    match path.compare p with
    | .lt => (path, [c]) :: (p, cs) :: rest
    | .eq => (p, cs ++ [c]) :: rest
    | .gt => (p, cs) :: addEdit path c rest

/-- The edits for the offenses of the last analysis, by path. -/
def edits (a : Analyzer) : List (Path × List Correction) :=
  a.offenses.foldl
    (fun edits o =>
      match a.correction? o with
      | some c => addEdit o.location.path c edits
      | none => edits)
    []

/-- The offenses of the last analysis that have no edit. -/
def uncorrectable (a : Analyzer) : List Offense := a.offenses.filter (a.correction? · |>.isNone)

/-- Applies edits path by path and writes each changed template, until a file cannot be written. -/
def applyEdits (c : CachedTheme) (tree : FileTree) (summary : CorrectionSummary) :
    List (Path × List Correction) → CachedTheme × FileTree × Except ThemeError CorrectionSummary
  | [] => (c, tree, .ok summary)
  | (path, corrections) :: rest =>
    match c.theme.templateAt? path with
    | none => applyEdits c tree summary rest
    | some template =>
      let patch := Correction.applyAll template.source corrections
      let summary :=
        { summary with
          applied := summary.applied + patch.applied
          skipped := summary.skipped + patch.skipped }
      if patch.applied = 0 then applyEdits c tree summary rest
      else
        let c := c.setSource path patch.text
        match tree.write template.path patch.text with
        | .error e => (c, tree, .error (.io template.path e))
        | .ok tree =>
          applyEdits c tree { summary with filesWritten := summary.filesWritten + 1 } rest

/-- Applies the edits for the offenses of the last analysis; offenses with an edit are forgotten. -/
def correct (a : Analyzer) (tree : FileTree) :
    Analyzer × FileTree × Except AnalyzerError CorrectionSummary :=
  if a.autoCorrect then
    let (c, tree, result) := applyEdits a.toCachedTheme tree ⟨0, 0, 0⟩ a.edits
    ({ a with toCachedTheme := c, offenses := a.uncorrectable }, tree, result.mapError .theme)
  else (a, tree, .error .autoCorrectDisabled)

end Analyzer

end LiquidLint
