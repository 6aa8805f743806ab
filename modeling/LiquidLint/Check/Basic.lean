import LiquidLint.Check.Assignments
import LiquidLint.Check.Pattern
import LiquidLint.Check.References
import LiquidLint.Check.Scripted
import LiquidLint.Check.Spacing
import LiquidLint.Check.Translations
import LiquidLint.Liquid.Filter

/-!
# Checks

A check is a rule together with what it remembers of the events so far. At an event it reports
`findings` and goes on as `next`; `run` shows it a sequence of events. The rules are the ten built-in
ones, patterns declared by the user, and scripts.
-/

namespace LiquidLint

/-- A rule and its memory. -/
inductive Check where
  /-- Templates that do not parse. -/
  | syntaxError
  /-- Templates with more than `maxLength` lines. -/
  | templateLength (maxLength : Nat)
  /-- Missing or repeated spaces inside delimiters. -/
  | spaceInsideBraces
  /-- Filters that are neither known nor `ignored`. -/
  | unknownFilter (ignored : List String)
  /-- References to templates that are not among the `known` ones. -/
  | missingTemplate (known : List String)
  /-- Snippets that nothing refers to. -/
  | unusedSnippet (uses : References.Uses)
  /-- Variables that are assigned and never looked up. -/
  | unusedAssign (ledger : Assignments.Ledger)
  /-- Outdated `include` tags. -/
  | convertIncludeToRender
  /-- JSON files that do not parse. -/
  | validJson
  /-- Locales that differ from the default one. -/
  | matchingTranslations
  /-- A pattern declared by the user. -/
  | pattern (check : PatternCheck)
  /-- A script. -/
  | scripted (check : ScriptedCheck)

namespace Check

/-- The line limit of templates unless another one is set. -/
def defaultMaxLength : Nat := 200

/-! ### Properties -/

/-- The name of a check. -/
def name : Check → String
  | .syntaxError => "SyntaxError"
  | .templateLength _ => "TemplateLength"
  | .spaceInsideBraces => "SpaceInsideBraces"
  | .unknownFilter _ => "UnknownFilter"
  | .missingTemplate _ => "MissingTemplate"
  | .unusedSnippet _ => "UnusedSnippet"
  | .unusedAssign _ => "UnusedAssign"
  | .convertIncludeToRender => "ConvertIncludeToRender"
  | .validJson => "ValidJson"
  | .matchingTranslations => "MatchingTranslations"
  | .pattern p => p.name
  | .scripted s => s.name

/-- The category of a check. -/
def category : Check → Category
  | .validJson => .json
  | .matchingTranslations => .translation
  | .pattern p => p.category
  | .scripted s => s.category
  | _ => .liquid

/-- The severity of a check's offenses unless settings say otherwise. -/
def defaultSeverity : Check → Severity
  | .syntaxError | .unknownFilter _ | .missingTemplate _ | .validJson => .error
  | .spaceInsideBraces => .style
  | .pattern p => p.severity
  | .scripted s => s.severity
  | _ => .suggestion

/-- What a check looks for, in a sentence. -/
def description : Check → String
  | .syntaxError => "Reports Liquid syntax errors"
  | .templateLength _ => "Reports templates with too many lines"
  | .spaceInsideBraces => "Ensures consistent spacing inside Liquid delimiters"
  | .unknownFilter _ => "Reports use of filters that do not exist"
  | .missingTemplate _ => "Reports references to missing snippets and sections"
  | .unusedSnippet _ => "Reports snippets that are never rendered"
  | .unusedAssign _ => "Reports variables that are assigned but never used"
  | .convertIncludeToRender => "Reports deprecated include tags"
  | .validJson => "Reports JSON files with syntax errors"
  | .matchingTranslations => "Reports translation keys that differ from the default locale"
  | .pattern p => p.description
  | .scripted _ => ""

/-- Whether offenses of a check can be mended. -/
def canCorrect : Check → Bool
  | .spaceInsideBraces | .unusedAssign _ | .convertIncludeToRender => true
  | .scripted s => s.canCorrect
  | _ => false

/-- Whether comments can turn a check off. -/
def canDisable : Check → Bool
  | .syntaxError => false
  | .scripted s => s.canDisable
  | _ => true

/-- The edit that mends an offense of a check. -/
def correct (c : Check) (o : Offense) : Option Correction :=
  match c with
  | .scripted s => s.fix o
  | _ => o.correction

/-! ### Rules -/

/-- The report of a template that does not parse. -/
def syntaxFindings (e : Event) : List Finding :=
  match e with
  | .onError error _ => [e.findingAtLine error.line error.message none]
  | _ => []

/-- The report of a template with more than `maxLength` lines. -/
def lengthFindings (maxLength : Nat) (e : Event) : List Finding :=
  match e with
  | .node .afterType n t =>
    let lines := t.source.lineCount
    if n.typeName == "document" && maxLength < lines then
      [e.findingAtLine 1 s!"Template has too many lines [{lines}/{maxLength}]" none]
    else []
  | _ => []

/-- The report of filters that are neither known nor ignored. -/
def filterFindings (ignored : List String) (e : Event) : List Finding :=
  match e with
  | .node .onType n t =>
    if ["variable", "assign", "echo"].contains n.typeName then
      let unknown := (Liquid.filters (t.source.slice n.markupSpan)).filter fun f =>
        !Liquid.isKnownFilter f.name && !ignored.contains f.name
      unknown.map fun f =>
        let start := n.markupSpan.start + f.offset
        e.findingAt ⟨start, start + f.name.utf8ByteSize⟩ s!"Undefined filter `{f.name}`" none
    else []
  | _ => []

/-- The report of a JSON file that does not parse. -/
def jsonFindings (e : Event) : List Finding :=
  match e with
  | .onJson f =>
    match f.content with
    | .error error => [e.findingAtLine error.line error.message none]
    | .ok _ => []
  | _ => []

/-! ### Events -/

/-- What a check reports at an event. -/
def findings (c : Check) (e : Event) : List Finding :=
  match c with
  | .syntaxError => syntaxFindings e
  | .templateLength maxLength => lengthFindings maxLength e
  | .spaceInsideBraces => Spacing.findings e
  | .unknownFilter ignored => filterFindings ignored e
  | .missingTemplate known => References.missing known e
  | .unusedSnippet uses => References.unused uses e
  | .unusedAssign ledger => Assignments.findings ledger e
  | .convertIncludeToRender => References.outdated e
  | .validJson => jsonFindings e
  | .matchingTranslations => Translations.findings e
  | .pattern p => p.findings e
  | .scripted s => s.findings e

/-- The check with its memory brought up to date by an event. -/
def next (c : Check) (e : Event) : Check :=
  match c with
  | .missingTemplate known =>
    match e with
    | .onTheme theme => .missingTemplate (References.names theme)
    | _ => .missingTemplate known
  | .unusedSnippet uses => .unusedSnippet (uses.next e)
  | .unusedAssign ledger => .unusedAssign (ledger.next e)
  | c => c

/-- Shows a check some events: the check that goes on from there, and its findings in order. -/
def run (c : Check) : List Event → Check × List Finding
  | [] => (c, [])
  | e :: es =>
    let (after, later) := (c.next e).run es
    (after, c.findings e ++ later)

end Check

end LiquidLint
