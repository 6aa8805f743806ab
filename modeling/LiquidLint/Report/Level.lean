/-!
# Severities and categories

Severities say how bad a finding is, from style over suggestion to error. Categories say what kind of
file a check looks at. Both are written as lower-case words.
-/

namespace LiquidLint

/-- How bad an offense is. -/
inductive Severity where
  /-- A matter of formatting. -/
  | style
  /-- Something that should probably change. -/
  | suggestion
  /-- Something that is broken. -/
  | error
deriving DecidableEq, Inhabited, Repr

namespace Severity

/-- The word for a severity. -/
def word : Severity → String
  | .style => "style"
  | .suggestion => "suggestion"
  | .error => "error"

/-- The severity with a given word. -/
def ofWord? : String → Option Severity
  | "style" => some .style
  | "suggestion" => some .suggestion
  | "error" => some .error
  | _ => none

/-- What is said about a word that names no severity. -/
def unknownMessage (word : String) : String :=
  s!"unknown severity `{word}`, expected: error, suggestion, style"

/-- The place of a severity in the order from mild to bad. -/
def rank : Severity → Nat
  | .style => 0
  | .suggestion => 1
  | .error => 2

/-- Whether a severity is at least as bad as a threshold. -/
def reaches (s threshold : Severity) : Bool := threshold.rank ≤ s.rank

end Severity

/-- The kind of files a check looks at. -/
inductive Category where
  /-- Liquid templates. -/
  | liquid
  /-- JSON files. -/
  | json
  /-- Locale files. -/
  | translation
deriving DecidableEq, Inhabited, Repr

namespace Category

/-- The word for a category. -/
def word : Category → String
  | .liquid => "liquid"
  | .json => "json"
  | .translation => "translation"

/-- The category with a given word. -/
def ofWord? : String → Option Category
  | "liquid" => some .liquid
  | "json" => some .json
  | "translation" => some .translation
  | _ => none

/-- What is said about a word that names no category. -/
def unknownMessage (word : String) : String :=
  s!"unknown category `{word}`, expected: liquid, json, translation"

end Category

end LiquidLint
