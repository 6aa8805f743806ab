import LiquidLint.Command.Arguments
import LiquidLint.Config
import LiquidLint.Json.Print
import LiquidLint.Report.Json
import LiquidLint.Theme.Basic

/-!
# What commands print

Reports in the four formats, the list of checks and the text of new settings files. Every line ends
with a line feed.
-/

namespace LiquidLint.Command

/-- Lines of text, each with its end. -/
def unlines (lines : List String) : String := String.join (lines.map (· ++ "\n"))

/-! ### Reports -/

/-- A text between a colour and the end of all colours. -/
def coloured (colour : Nat) (text : String) : String :=
  "\x1b[" ++ toString colour ++ "m" ++ text ++ "\x1b[0m"

/-- The colour of a severity. -/
def severityColour : Severity → Nat
  | .error => 31
  | .suggestion => 33
  | .style => 34

/-- The counts of a report on one line. -/
def tally (r : Report) : String :=
  toString r.templatesChecked ++ " template(s) inspected, " ++ toString (r.count .error) ++
    " error(s), " ++ toString (r.count .suggestion) ++ " suggestion(s), " ++
    toString (r.count .style) ++ " style offense(s)"

/-- The colour of the counts: red when the command fails, green when there is nothing to report. -/
def tallyColour (r : Report) (failLevel : Severity) : Nat :=
  if r.hasOffensesAt failLevel then 31 else if r.offenses.isEmpty then 32 else 33

/-- Where an offense is. -/
def place (o : Offense) : String :=
  o.location.path.text ++ ":" ++ toString o.location.line ++ ":" ++ toString o.location.column

/-- An offense over several lines, the last of them empty. -/
def textLines (o : Offense) : List String :=
  [o.check ++ " at " ++ place o,
    "  " ++ coloured (severityColour o.severity) o.severity.word ++ ": " ++ o.message] ++
    (if o.isCorrectable then ["  = help: run with --auto-correct to fix"] else []) ++ [""]

/-- An offense with the line of the source where it starts. -/
def prettyLines (theme : Theme) (o : Offense) : List String :=
  let d := o.diagnostic
  let source := (theme.file? o.location.path).map fun f =>
    f.source.slice (f.source.lineSpan o.location.line)
  [d.label ++ ": " ++ d.message, "  --> " ++ place o] ++
    (source.map fun line => "  | " ++ String.ofList line).toList ++
    (d.help.map ("  help: " ++ ·)).toList ++ [""]

/-- A report in a format. -/
def render (r : Report) (theme : Theme) (format : Format) (failLevel : Severity) : String :=
  match format with
  | .text =>
    unlines (r.offenses.flatMap textLines ++ [coloured (tallyColour r failLevel) (tally r)])
  | .json => r.toJson.pretty ++ "\n"
  | .compact => unlines (r.offenses.map (·.display))
  | .pretty => unlines (r.offenses.flatMap (prettyLines theme) ++ [tally r])

/-! ### The list of checks -/

/-- A text filled up with spaces to a width. -/
def padded (width : Nat) (text : String) : String :=
  text ++ String.ofList (List.replicate (width - text.length) ' ')

/-- A check with what the configuration says about it. -/
def checkRow (c : Config) (check : Check) : String :=
  let category := (c.category? check.name).getD check.category
  let severity := (c.severity? check.name).getD check.defaultSeverity
  " ".intercalate
    [padded 25 check.name, category.word, severity.word,
      padded 8 (if c.isEnabled check.name then "yes" else "no"),
      check.description ++ (if check.canCorrect then " (correctable)" else "")]

/-- The list of checks. -/
def checkList (c : Config) : String :=
  unlines <|
    ["Available checks:", "",
      " ".intercalate [padded 25 "Name", padded 12 "Category", padded 11 "Severity",
        padded 8 "Enabled", "Description"],
      String.ofList (List.replicate 90 '-')] ++
    c.registry.allChecks.map (checkRow c) ++
    ["", "Configure checks in .theme-check.yml, e.g.:", "  TemplateLength:", "    max_length: 300"]

/-! ### New settings files -/

/-- The text of a new settings file. -/
def newSettings : String :=
  unlines
    ["# theme-check settings",
      "# Every check is enabled by default; entries here override the built-in",
      "# defaults key by key.",
      "",
      "# Directory of the theme, relative to this file",
      "# root: dist",
      "",
      "# Files of custom checks to load",
      "# require:",
      "#   - checks/no_todo.yml",
      "",
      "# Glob patterns of files to skip",
      "ignore:",
      "  - node_modules/**",
      "",
      "TemplateLength:",
      "  enabled: true",
      "  max_length: 200",
      "",
      "# SpaceInsideBraces:",
      "#   severity: suggestion",
      "",
      "# UnknownFilter:",
      "#   ignore_filters: [my_app_filter]",
      "",
      "# MatchingTranslations:",
      "#   enabled: false"]

/-- What is said when a settings file has been written. -/
def created (file : Path) : String :=
  unlines
    ["Created " ++ file.text,
      "",
      "Next steps:",
      "  1. Edit .theme-check.yml to configure checks",
      "  2. Run: theme-check check"]

/-- The version of the program. -/
def versionLine : String := unlines ["theme-check 0.4.2"]

/-- How the program is used. -/
def usage : String :=
  unlines
    ["Linter for Liquid themes",
      "",
      "Usage: theme-check [OPTIONS] <COMMAND>",
      "",
      "Commands:",
      "  check        Check a theme",
      "  list-checks  List available checks",
      "  init         Create a .theme-check.yml",
      "",
      "Options:",
      "  -v, --verbose          Enable verbose output",
      "  -c, --config <CONFIG>  Path to a settings file (skips .theme-check.yml discovery)",
      "  -h, --help             Print help",
      "  -V, --version          Print version"]

end LiquidLint.Command
