import LiquidLint.Check.Definition
import LiquidLint.FileTree

/-!
# Errors of settings

Why settings cannot be read or put to use. `causes` lists the errors that lie behind an error beyond
its own line.
-/

namespace LiquidLint

/-- Why a file of declared checks cannot be loaded. -/
inductive LoadFailure where
  | unreadable (error : FileError)
  | rejected (error : DefinitionError)
deriving Repr

/-- The reason as one line. -/
def LoadFailure.message : LoadFailure → String
  | .unreadable e => e.message
  | .rejected e => e.message

/-- Why settings cannot be used. -/
inductive ConfigError where
  /-- The settings file cannot be read. -/
  | io (path : Path) (error : FileError)
  /-- The settings are not well formed. -/
  | malformed (origin : String)
  /-- The settings are no mapping. -/
  | notMapping (origin : String)
  /-- A key holds another value than expected. -/
  | invalidValue (key expectation : String)
  /-- A file of declared checks cannot be loaded. -/
  | loadCheck (path : Path) (failure : LoadFailure)
  /-- Two checks have the same name. -/
  | duplicateCheck (name : String)
deriving Repr

namespace ConfigError

/-- The error as one line. -/
def message : ConfigError → String
  | .io path e => "Failed to read " ++ path.text ++ ": " ++ e.message
  | .malformed origin => "Failed to parse " ++ origin
  | .notMapping origin => "Failed to parse " ++ origin ++ ": expected a mapping at the top level"
  | .invalidValue key expectation => "Invalid value for `" ++ key ++ "`: " ++ expectation
  | .loadCheck path failure =>
    "Failed to load custom check from " ++ path.text ++ ": " ++ failure.message
  | .duplicateCheck name => "Check `" ++ name ++ "` is already registered"

/-- The errors behind an error. -/
def causes : ConfigError → List String
  | .io _ e => [e.message]
  | _ => []

end ConfigError

end LiquidLint
