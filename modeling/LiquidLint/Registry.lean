import LiquidLint.Check.Basic
import LiquidLint.Settings.Basic

/-!
# Registered checks

A registry knows the checks of a run by name, in the order in which they were registered, together
with the options that they have unless settings say otherwise. No two checks have the same name.
-/

namespace LiquidLint

/-- A check that can be made from options. -/
structure Registration where
  name : String
  category : Category
  make : Options → Check

/-- The checks known to a run. -/
structure Registry where
  registrations : List Registration := []
  /-- Default options of checks, sorted by name. -/
  defaults : List (String × Options) := []

namespace Registry

/-! ### Registering -/

/-- The names of the checks, in order. -/
def names (r : Registry) : List String := r.registrations.map (·.name)

/-- The registration with a given name. -/
def find? (r : Registry) (name : String) : Option Registration :=
  r.registrations.find? (·.name == name)

/-- Whether a check is registered. -/
def contains (r : Registry) (name : String) : Bool := r.names.contains name

/-- Adds a check whose name is new. -/
def register (r : Registry) (check : Registration) : Except ConfigError Registry :=
  if r.contains check.name then .error (.duplicateCheck check.name)
  else .ok { r with registrations := r.registrations ++ [check] }

/-- Makes the checks of some settings the default options. -/
def setDefaults (r : Registry) (s : Settings) : Registry := { r with defaults := s.checks }

/-- The category with which a check is registered. -/
def category? (r : Registry) (name : String) : Option Category := (r.find? name).map (·.category)

/-- The default options of a check, if it has some. -/
def defaults? (r : Registry) (name : String) : Option Options := r.defaults.lookup name

/-- Makes a check from options. -/
def instantiate? (r : Registry) (name : String) (o : Options) : Option Check :=
  (r.find? name).map (·.make o)

/-- All checks with their default options. -/
def allChecks (r : Registry) : List Check :=
  r.registrations.map fun c => c.make ((r.defaults? c.name).getD {})

/-- A registry with its names on one line. -/
def describe (r : Registry) : String :=
  let list (names : List String) := "[" ++ ", ".intercalate (names.map YamlValue.quotedText) ++ "]"
  "CheckRegistry \x7b checks: " ++ list r.names ++ ", defaults: " ++
    list (r.defaults.map (·.1)) ++ " \x7d"

/-! ### Declared checks -/

/-- Registers a declared check, which takes no options. -/
def registerPattern (r : Registry) (p : PatternCheck) : Except ConfigError Registry :=
  r.register ⟨p.name, p.category, fun _ => .pattern p⟩

/-- Reads the checks that a file declares. -/
def readChecks [RegexEngine] (tree : FileTree) (path : Path) : Except ConfigError (List PatternCheck) :=
  match tree.read path with
  | .error e => .error (.loadCheck path (.unreadable e))
  | .ok source =>
    match PatternCheck.load source with
    | .error e => .error (.loadCheck path (.rejected e))
    | .ok checks => .ok checks

/-- Registers the checks that a file declares. -/
def registerFile [RegexEngine] (r : Registry) (tree : FileTree) (path : Path) :
    Except ConfigError Registry := do
  (← readChecks tree path).foldlM registerPattern r

/-! ### Built-in checks -/

/-- The line limit that options set: a positive integer. -/
def maxLength (o : Options) : Nat :=
  let n := o.integer "max_length" 0
  if 0 < n then n.toNat else Check.defaultMaxLength

/-- The built-in checks. -/
def builtinChecks : List Registration :=
  let plain (c : Check) : Registration := ⟨c.name, c.category, fun _ => c⟩
  [ plain .syntaxError,
    ⟨"TemplateLength", .liquid, fun o => .templateLength (maxLength o)⟩,
    plain .spaceInsideBraces,
    ⟨"UnknownFilter", .liquid, fun o => .unknownFilter (o.strings "ignore_filters")⟩,
    plain (.missingTemplate []),
    plain (.unusedSnippet .none),
    plain (.unusedAssign .empty),
    plain .convertIncludeToRender,
    plain .validJson,
    plain .matchingTranslations ]

/-- The default options of a built-in check: it is on and keeps its category. -/
def builtinOptions (c : Registration) : Options :=
  let o := (Options.set {} "enabled" (.bool true)).set "category" (.string c.category.word)
  if c.name = "TemplateLength" then o.set "max_length" (.integer Check.defaultMaxLength) else o

/-- The built-in checks with their default options. -/
def builtin : Registry :=
  { registrations := builtinChecks
    defaults := builtinChecks.foldl
      (fun d c => Settings.insertCheck c.name (builtinOptions c) d) [] }

end Registry

end LiquidLint
