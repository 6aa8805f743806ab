import LiquidLint.Settings.Options

/-!
# Settings

What a settings file says: where the theme is, which files declare checks, which files to skip, and
the options of checks. Keys other than `root`, `require` and `ignore` are names of checks. The first
thing that is wrong, in the order of the file, is what is reported.
-/

namespace LiquidLint

/-- What a settings file says. -/
structure Settings where
  /-- The directory of the theme, seen from the settings file. -/
  root : Option Path := none
  /-- Files that declare checks, seen from the settings file. -/
  require : List Path := []
  /-- Patterns of files to skip. -/
  ignore : List String := []
  /-- The options of checks, sorted by name. -/
  checks : List (String × Options) := []
deriving Inhabited, Repr

namespace Settings

/-- Whether nothing is set. -/
def isEmpty (s : Settings) : Bool :=
  s.root.isNone && s.require.isEmpty && s.ignore.isEmpty && s.checks.isEmpty

/-- Puts options among options sorted by name, in place of those of the same check. -/
def insertCheck (name : String) (options : Options) :
    List (String × Options) → List (String × Options)
  | [] => [(name, options)]
  | (n, o) :: rest =>
    if name = n then (name, options) :: rest
    else if name < n then (name, options) :: (n, o) :: rest
    else (n, o) :: insertCheck name options rest

/-- The options of a check. -/
def options? (s : Settings) (name : String) : Option Options := s.checks.lookup name

/-! ### Reading settings -/

/-- A list of strings; a single string stands for itself and null for none. -/
def readStrings (key : String) (v : YamlValue) : Except ConfigError (List String) :=
  let strings? : Option (List String) := match v with
    | .null => some []
    | .string s => some [s]
    | .sequence l => l.mapM (·.string?)
    | _ => none
  match strings? with
  | some l => .ok l
  | none => .error (.invalidValue key "expected a list of strings")

/-- The options of the named check; null stands for none. -/
def readOptions (name : String) (v : YamlValue) : Except ConfigError Options :=
  match v with
  | .null => .ok {}
  | .mapping entries => (Options.validate ⟨entries⟩ name).map fun _ => ⟨entries⟩
  | _ => .error (.invalidValue name "expected a mapping of check options")

/-- Adds what an entry of a settings file says. -/
def addEntry (s : Settings) (key value : YamlValue) : Except ConfigError Settings := do
  match key.string? with
  | none => throw (.invalidValue key.describe "keys must be strings")
  | some "root" =>
    match value.string? with
    | some root => return { s with root := some ⟨root⟩ }
    | none => throw (.invalidValue "root" "expected a path")
  | some "require" => return { s with require := (← readStrings "require" value).map Path.mk }
  | some "ignore" => return { s with ignore := ← readStrings "ignore" value }
  | some name => return { s with checks := insertCheck name (← readOptions name value) s.checks }

/-- The settings that a mapping describes. -/
def ofMapping (entries : List (YamlValue × YamlValue)) : Except ConfigError Settings :=
  entries.foldlM (fun s (k, v) => s.addEntry k v) {}

/-- The settings that a YAML value describes; `origin` says where it comes from. -/
def ofValue (origin : String) : YamlValue → Except ConfigError Settings
  | .null => .ok {}
  | .mapping entries => ofMapping entries
  | _ => .error (.notMapping origin)

/-- The settings that a text describes; `origin` says where it comes from. -/
def parseFrom (origin : String) (source : Text) : Except ConfigError Settings :=
  match YamlValue.parse? source with
  | some v => ofValue origin v
  | none => .error (.malformed origin)

/-- The settings that a text describes. -/
def parse (source : Text) : Except ConfigError Settings := parseFrom "<settings>" source

/-- The settings in a file. -/
def ofFile (tree : FileTree) (path : Path) : Except ConfigError Settings :=
  match tree.read path with
  | .ok source => parseFrom path.text source
  | .error e => .error (.io path e)

end Settings

end LiquidLint
