import LiquidLint.Json.Parse
import LiquidLint.Liquid.Parse
import LiquidLint.Path

/-!
# Theme files

A theme holds Liquid templates and JSON files. Both are known by their path below the theme root and
have a source text, and what they say is what parsing the source gives.
-/

namespace LiquidLint

/-- A file of a theme that offenses can point into. -/
structure SourceFile where
  /-- The path below the theme root. -/
  relativePath : Path
  source : Text
deriving DecidableEq, Repr

/-- The name of a file: its path without the extension. -/
def SourceFile.name (f : SourceFile) : String := f.relativePath.fileName

/-- A Liquid template. -/
structure Template extends SourceFile where
  /-- The path of the file it is stored in. -/
  path : Path
deriving DecidableEq, Repr

namespace Template

/-- The name of a template, such as `snippets/card`. -/
def name (t : Template) : String := t.toSourceFile.name

/-- Whether a template is a snippet. -/
def isSnippet (t : Template) : Bool := (Text.dropStart? "snippets/".toList t.name.toList).isSome

/-- The syntax tree of a template as it is parsed now, or the reason why it has none. -/
def root (t : Template) : Except Liquid.ParseError Liquid.Node := Liquid.parse t.source

/-- The template with another source. -/
def setSource (t : Template) (source : Text) : Template :=
  { t with toSourceFile := { t.toSourceFile with source := source } }

end Template

/-- A JSON file. -/
structure JsonFile extends SourceFile where
deriving DecidableEq, Repr

namespace JsonFile

/-- The name of a JSON file, such as `locales/en.default`. -/
def name (f : JsonFile) : String := f.toSourceFile.name

/-- The value a JSON file holds, or the reason why it holds none. -/
def content (f : JsonFile) : Except JsonError JsonValue := JsonValue.parse f.source

end JsonFile

end LiquidLint
