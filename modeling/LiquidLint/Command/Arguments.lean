import LiquidLint.Path
import LiquidLint.Report.Level

/-!
# Command lines

What the words of a command line ask for. A flag is written long (`--format json`, `--format=json`) or
short (`-f json`, `-fjson`, `-f=json`), short flags can be joined, and after `--` nothing is a flag.
The flags `--verbose` and `--config` may stand before the command or after it; given in both places,
the later one counts. A flag that does not repeat must not be given twice in one place.
-/

namespace LiquidLint

/-- How offenses are printed. -/
inductive Format where
  | text
  | json
  | compact
  | pretty
deriving DecidableEq, Inhabited, Repr

/-- The format with a given word. -/
def Format.ofWord? : String → Option Format
  | "text" => some .text
  | "json" => some .json
  | "compact" => some .compact
  | "pretty" => some .pretty
  | _ => none

/-- What a check of a theme is asked to do. -/
structure CheckRequest where
  path : Path := ⟨"."⟩
  config : Option Path := none
  format : Format := .text
  only : List Category := []
  exclude : List Category := []
  autoCorrect : Bool := false
  /-- Offenses from this severity on make the command fail. -/
  failLevel : Severity := .error
deriving DecidableEq, Repr

/-- A command. -/
inductive Command where
  /-- Check a theme. -/
  | check (request : CheckRequest)
  /-- List the checks. -/
  | listChecks (path : Path) (config : Option Path)
  /-- Write a settings file. -/
  | init (path : Path) (force : Bool)
deriving DecidableEq, Repr

/-- What a command line that names no command to run amounts to. -/
inductive Stop where
  /-- It asks for the version. -/
  | version
  /-- It asks for help. -/
  | help
  /-- It is wrong. -/
  | misuse
deriving DecidableEq, Repr

namespace Command

/-! ### Flags -/

/-- A flag. -/
inductive Flag where
  | verbose
  | config
  | help
  | version
  | format
  | category
  | excludeCategory
  | autoCorrect
  | failLevel
  | force
deriving DecidableEq, Repr

namespace Flag

/-- The long form of a flag. -/
def long : Flag → String
  | .verbose => "verbose"
  | .config => "config"
  | .help => "help"
  | .version => "version"
  | .format => "format"
  | .category => "category"
  | .excludeCategory => "exclude-category"
  | .autoCorrect => "auto-correct"
  | .failLevel => "fail-level"
  | .force => "force"

/-- The short form of a flag. -/
def short? : Flag → Option Char
  | .verbose => some 'v'
  | .config => some 'c'
  | .help => some 'h'
  | .version => some 'V'
  | .format => some 'f'
  | .autoCorrect => some 'a'
  | _ => none

/-- Whether a flag takes a value. -/
def takesValue : Flag → Bool
  | .config | .format | .category | .excludeCategory | .failLevel => true
  | _ => false

/-- Whether a flag may be given several times. -/
def repeats : Flag → Bool
  | .category | .excludeCategory => true
  | _ => false

/-- Whether a flag takes the value given. -/
def accepts (f : Flag) (value : String) : Bool :=
  match f with
  | .config => !value.isEmpty
  | .format => (Format.ofWord? value).isSome
  | .category | .excludeCategory => (Category.ofWord? value).isSome
  | .failLevel => (Severity.ofWord? value).isSome
  | _ => true

end Flag

/-- A place in a command line that has flags of its own. -/
inductive Scope where
  | program
  | check
  | listChecks
  | init
deriving DecidableEq, Repr

namespace Scope

/-- The command with a given word. -/
def ofWord? : String → Option Scope
  | "check" => some .check
  | "list-checks" => some .listChecks
  | "init" => some .init
  | _ => none

/-- The flags of a place. -/
def flags : Scope → List Flag
  | .program => [.verbose, .config, .help, .version]
  | .check =>
    [.verbose, .config, .help, .format, .category, .excludeCategory, .autoCorrect, .failLevel]
  | .listChecks => [.verbose, .config, .help]
  | .init => [.verbose, .config, .help, .force]

end Scope

/-! ### Words -/

/-- What has been given in one place of a command line. -/
structure Given where
  /-- Flags with their values, empty for a flag that takes none. -/
  flags : List (Flag × String) := []
  /-- The words that belong to no flag. -/
  words : List String := []
deriving Repr

namespace Given

/-- The value of a flag. -/
def value? (g : Given) (f : Flag) : Option String := g.flags.lookup f

/-- All values of a flag. -/
def values (g : Given) (f : Flag) : List String :=
  (g.flags.filter (·.1 == f)).map (·.2)

/-- Whether a flag is given. -/
def has (g : Given) (f : Flag) : Bool := (g.value? f).isSome

/-- Adds a flag with its value. -/
def addFlag (g : Given) (f : Flag) (value : String) : Except Stop Given :=
  if f = .help then .error .help
  else if f = .version then .error .version
  else if (g.has f && !f.repeats) || !f.accepts value then .error .misuse
  else .ok { g with flags := g.flags ++ [(f, value)] }

/-- Adds a word that belongs to no flag: a path, of which there is only one. -/
def addWord (g : Given) (word : String) : Except Stop Given :=
  if word.isEmpty || !g.words.isEmpty then .error .misuse else .ok { g with words := [word] }

/-- Reads a long flag after its dashes; yields the flag if its value is still to come. -/
def addLong (scope : Scope) (g : Given) (t : Text) : Except Stop (Given × Option Flag) :=
  let (name, value?) := match Text.cut? ['='] t with
    | some (name, value) => (name, some (String.ofList value))
    | none => (t, none)
  match scope.flags.find? (·.long == String.ofList name) with
  | none => .error .misuse
  | some f =>
    match f.takesValue, value? with
    | true, some v => (g.addFlag f v).map (·, none)
    | true, none => .ok (g, some f)
    | false, some _ => .error .misuse
    | false, none => (g.addFlag f "").map (·, none)

/-- Reads joined short flags after their dash; yields the flag whose value is still to come. -/
def addShort (scope : Scope) (g : Given) : Text → Except Stop (Given × Option Flag)
  | [] => .ok (g, none)
  | c :: cs =>
    match scope.flags.find? (·.short? == some c) with
    | none => .error .misuse
    | some f =>
      if f.takesValue then
        match cs with
        | [] => .ok (g, some f)
        | '=' :: value => (g.addFlag f (String.ofList value)).map (·, none)
        | value => (g.addFlag f (String.ofList value)).map (·, none)
      else
        match g.addFlag f "" with
        | .error e => .error e
        | .ok g => addShort scope g cs

end Given

/-- Whether a word looks like a flag. -/
def looksLikeFlag (word : String) : Bool := word.toList.head? == some '-' && word != "-"

/-- Adds a word that looks like a flag; yields the flag whose value is still to come. -/
def addFlags (scope : Scope) (g : Given) (word : String) : Except Stop (Given × Option Flag) :=
  match word.toList with
  | '-' :: '-' :: t => g.addLong scope t
  | '-' :: t => g.addShort scope t
  | _ => .error .misuse

/-- Reads the words after a command. -/
def readWords (scope : Scope) (g : Given) : List String → Except Stop Given
  | [] => .ok g
  | "--" :: rest => rest.foldlM Given.addWord g
  | word :: rest =>
    if looksLikeFlag word then
      match addFlags scope g word with
      | .error e => .error e
      | .ok (g, none) => readWords scope g rest
      | .ok (g, some f) =>
        match rest with
        | [] => .error .misuse
        | value :: rest =>
          if looksLikeFlag value then .error .misuse
          else
            match g.addFlag f value with
            | .error e => .error e
            | .ok g => readWords scope g rest
    else
      match g.addWord word with
      | .error e => .error e
      | .ok g => readWords scope g rest

/-! ### Commands -/

/-- The command that a place with what is given there asks for; `config` is the settings file named
before the command. -/
def ofGiven (scope : Scope) (config : Option String) (g : Given) : Except Stop Command :=
  let path : Path := ⟨g.words.head?.getD "."⟩
  let config := ((g.value? .config).or config).map Path.mk
  match scope with
  | .program => .error .misuse
  | .check => .ok (.check
      { path, config
        format := ((g.value? .format).bind Format.ofWord?).getD .text
        only := (g.values .category).filterMap Category.ofWord?
        exclude := (g.values .excludeCategory).filterMap Category.ofWord?
        autoCorrect := g.has .autoCorrect
        failLevel := ((g.value? .failLevel).bind Severity.ofWord?).getD .error })
  | .listChecks => .ok (.listChecks path config)
  | .init => .ok (.init path (g.has .force))

/-- Reads the words before a command and hands the rest over to it. -/
def readProgram (g : Given) : List String → Except Stop Command
  | [] => .error .misuse
  | word :: rest =>
    if looksLikeFlag word then
      match addFlags .program g word with
      | .error e => .error e
      | .ok (g, none) => readProgram g rest
      | .ok (g, some f) =>
        match rest with
        | [] => .error .misuse
        | value :: rest =>
          if looksLikeFlag value then .error .misuse
          else
            match g.addFlag f value with
            | .error e => .error e
            | .ok g => readProgram g rest
    else
      match Scope.ofWord? word with
      | some scope => do ofGiven scope (g.value? .config) (← readWords scope {} rest)
      | none => .error (if word = "help" then .help else .misuse)

/-- The command that the words of a command line ask for. -/
def parse (words : List String) : Except Stop Command := readProgram {} words

end Command

end LiquidLint
