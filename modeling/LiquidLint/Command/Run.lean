import LiquidLint.Command.Output
import LiquidLint.Setup

/-!
# Running commands

A command line turns a file tree into another one, and yields what is printed and the exit code: 0
when all is well, 1 when a command fails or offenses are bad enough, and 2 when the command line is
wrong.
-/

namespace LiquidLint

/-- What a run prints and its exit code. -/
structure Outcome where
  code : Nat
  output : String := ""
  errors : String := ""
deriving DecidableEq, Repr

/-- Why a command fails: what it was doing, and the errors that lie behind it. -/
structure Failure where
  message : String
  causes : List String := []
deriving DecidableEq, Repr

namespace Failure

/-- The numbered lines of several causes. -/
def numbered (causes : List String) : List String :=
  (causes.zipIdx).map fun (cause, i) => "    " ++ toString i ++ ": " ++ cause

/-- The failure over several lines. -/
def render (f : Failure) : String :=
  Command.unlines <| ("Error: " ++ f.message) ::
    match f.causes with
    | [] => []
    | [cause] => ["", "Caused by:", "    " ++ cause]
    | causes => ["", "Caused by:"] ++ numbered causes

/-- An error of a theme that came up in doing something. -/
def ofTheme (message : String) (e : ThemeError) : Failure :=
  ⟨message, e.message :: match e with
    | .io _ error => [error.message]
    | .glob error => [error.message]⟩

/-- An error of an analyzer that came up in doing something. -/
def ofAnalyzer (message : String) : AnalyzerError → Failure
  | .theme e => ofTheme message e
  | e => ⟨message, [e.message]⟩

/-- An error of settings for a start. -/
def ofConfig (start : Path) (e : ConfigError) : Failure :=
  ⟨"Failed to load settings for " ++ start.text, e.message :: e.causes⟩

end Failure

/-- A running command: the files, and what has been printed to the error channel. -/
structure Session where
  tree : FileTree
  errors : String := ""
deriving Repr

namespace Command

/-- A step of a command, which may fail and keeps what it did before. -/
abbrev Step := ExceptT Failure (StateM Session)

/-- Fails with a failure made from an error. -/
def attempt {ε α : Type} (failure : ε → Failure) (result : Except ε α) : Step α :=
  match result with
  | .ok a => pure a
  | .error e => throw (failure e)

/-- The configuration for a start. -/
def loadConfig [RegexEngine] (start : Path) (explicit : Option Path) : Step Config := do
  let tree := (← get).tree
  attempt (.ofConfig start)
    (Config.ofSource tree start (SettingsSource.resolve tree start explicit) .builtin)

/-- An analyzer for a request that has looked at its theme; `purpose` is what it is loaded for. -/
def analyzed [RegexEngine] (r : CheckRequest) (autoCorrect : Bool) (purpose : String) :
    Step Analyzer := do
  let config ← loadConfig r.path r.config
  let setup : Setup := { config := some (config.withFilters r.only r.exclude), autoCorrect }
  let analyzer ← attempt (.ofTheme purpose) (setup.analyzer (← get).tree)
  return analyzer.analyze

/-- Applies the edits of an analyzer and says how many. -/
def correctAll (a : Analyzer) : Step Unit := do
  let (_, tree, result) := a.correct (← get).tree
  modify fun s => { s with tree }
  let summary ← attempt (.ofAnalyzer "Failed to write corrections") result
  let line := "Corrected " ++ toString summary.applied ++ " offense(s) in " ++
    toString summary.filesWritten ++ " file(s)"
  modify fun s => { s with errors := s.errors ++ unlines [line] }

/-- Checks a theme: what is printed, and the exit code. -/
def runCheck [RegexEngine] (r : CheckRequest) : Step (String × Nat) := do
  let first ← analyzed r r.autoCorrect "Failed to load theme"
  let last ← if r.autoCorrect then do
      correctAll first
      analyzed r false "Failed to reload theme"
    else pure first
  let report := last.report
  return (render report last.theme r.format r.failLevel,
    if report.hasOffensesAt r.failLevel then 1 else 0)

/-- Lists the checks. -/
def runListChecks [RegexEngine] (path : Path) (config : Option Path) : Step String :=
  return checkList (← loadConfig path config)

/-- Writes a new settings file. -/
def runInit (path : Path) (force : Bool) : Step String := do
  let file := path.join ⟨SettingsSource.fileName⟩
  let tree := (← get).tree
  if tree.hasEntry file && !force then
    throw ⟨"Settings file already exists at " ++ file.text ++ ". Use --force to overwrite.", []⟩
  let tree ← attempt (fun (e : FileError) => ⟨"Failed to write " ++ file.text, [e.message]⟩)
    (tree.write file newSettings.toList)
  modify fun s => { s with tree }
  return created file

/-- The steps of a command: what is printed, and the exit code. -/
def steps [RegexEngine] : Command → Step (String × Nat)
  | .check r => runCheck r
  | .listChecks path config => return (← runListChecks path config, 0)
  | .init path force => return (← runInit path force, 0)

/-- Runs a command line on a file tree. -/
def run [RegexEngine] (tree : FileTree) (words : List String) : Outcome × FileTree :=
  match parse words with
  | .error .version => ({ code := 0, output := versionLine }, tree)
  | .error .help => ({ code := 0, output := usage }, tree)
  | .error .misuse => ({ code := 2, errors := usage }, tree)
  | .ok command =>
    match (steps command).run.run { tree } with
    | (.ok (output, code), s) => ({ code, output, errors := s.errors }, s.tree)
    | (.error f, s) => ({ code := 1, errors := s.errors ++ f.render }, s.tree)

end Command

end LiquidLint
