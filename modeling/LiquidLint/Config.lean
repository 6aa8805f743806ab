import LiquidLint.Registry
import LiquidLint.Settings.Source

/-!
# Configurations

A configuration is what settings amount to for one run: the directory of the theme, all checks with
the declared ones among them, and the options of each check, where a user's option replaces the
default key by key. `isEnabled` then is a filter by flag and category.
-/

namespace LiquidLint

/-- Settings put to use. -/
structure Config where
  /-- The directory of the theme. -/
  root : Path
  source : SettingsSource
  /-- Patterns of files to skip. -/
  ignore : List String
  registry : Registry
  /-- The options of each registered check. -/
  merged : List (String × Options)
  /-- Categories to which the run is restricted, if there are any. -/
  only : List Category := []
  /-- Categories that are left out. -/
  exclude : List Category := []

namespace Config

/-! ### Building -/

/-- The options of a check: those of the user over the defaults. -/
def mergedOptions (r : Registry) (s : Settings) (name : String) : Options :=
  let defaults := (r.defaults? name).getD {}
  match s.options? name with
  | some o => defaults.merge o
  | none => defaults

/-- Registers the checks declared in some files, seen from the directory `base`. -/
def requireAll [RegexEngine] (tree : FileTree) (base : Path) (r : Registry) (files : List Path) :
    Except ConfigError Registry :=
  files.foldlM (fun r file => r.registerFile tree (base.join file)) r

/-- The configuration for settings whose paths are seen from the directory `base`. -/
def new [RegexEngine] (tree : FileTree) (base : Path) (s : Settings) (r : Registry) :
    Except ConfigError Config := do
  let registry ← requireAll tree base r s.require
  return { root := match s.root with
             | some root => base.join root
             | none => base
           source := .default
           ignore := s.ignore
           registry
           merged := registry.names.map fun n => (n, mergedOptions registry s n) }

/-- The directory from which the paths in a settings file are seen. -/
def baseDirectory (file : Path) : Path :=
  match file.parent? with
  | some d => if d.text.isEmpty then ⟨"."⟩ else d
  | none => ⟨"."⟩

/-- The configuration for the settings from a source. -/
def ofSource [RegexEngine] (tree : FileTree) (start : Path) (source : SettingsSource)
    (r : Registry) : Except ConfigError Config := do
  let config ← match source.path? with
    | some file => do
      let s ← Settings.ofFile tree file
      new tree (baseDirectory file) s r
    | none => new tree start {} r
  return { config with source }

/-! ### Looking up checks -/

/-- The options of a check. -/
def options? (c : Config) (name : String) : Option Options := c.merged.lookup name

/-- The category of a check: the one its options set, else the one it is registered with. -/
def category? (c : Config) (name : String) : Option Category :=
  ((c.options? name).bind (·.category?)).or (c.registry.category? name)

/-- The severity that the options of a check set. -/
def severity? (c : Config) (name : String) : Option Severity :=
  (c.options? name).bind (·.severity?)

/-- Whether the category filters let a category through. -/
def admits (c : Config) (category : Category) : Bool :=
  (c.only.isEmpty || c.only.contains category) && !c.exclude.contains category

/-- Whether a check is switched on and its category is let through. -/
def isEnabled (c : Config) (name : String) : Bool :=
  match c.options? name with
  | none => false
  | some o =>
    o.enabled?.getD true &&
      match c.category? name with
      | none => false
      | some category => c.admits category

/-- The names of the enabled checks, in the order of registration. -/
def enabledNames (c : Config) : List String := c.registry.names.filter c.isEnabled

/-- The enabled checks, made from their options. -/
def enabledChecks (c : Config) : List Check :=
  c.enabledNames.filterMap fun name =>
    (c.options? name).bind (c.registry.instantiate? name)

/-! ### Filters -/

/-- The same configuration with other category filters. -/
def withFilters (c : Config) (only exclude : List Category) : Config := { c with only, exclude }

end Config

end LiquidLint
