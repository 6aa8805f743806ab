import LiquidLint.Theme.File

/-!
# Themes

A theme is the set of templates and JSON files that are analysed together. Templates are kept in the
order of their paths.
-/

namespace LiquidLint

/-- The files analysed as one unit. -/
structure Theme where
  /-- The directory of the theme. -/
  root : Path
  templates : List Template
  jsonFiles : List JsonFile
deriving DecidableEq, Repr

namespace Theme

/-- Whether the path of one file comes before that of another. -/
def fileLe (a b : SourceFile) : Bool := a.relativePath.le b.relativePath

/-- A theme of given files; templates are sorted by path, JSON files stay as given. -/
def ofFiles (root : Path) (templates : List Template) (jsonFiles : List JsonFile) : Theme :=
  { root
    templates := templates.mergeSort fun a b => fileLe a.toSourceFile b.toSourceFile
    jsonFiles }

/-- The template with a given name. -/
def template? (t : Theme) (name : String) : Option Template :=
  t.templates.find? (·.name == name)

/-- The template with a given path. -/
def templateAt? (t : Theme) (path : Path) : Option Template :=
  t.templates.find? (·.relativePath.same path)

/-- The template or JSON file with a given path. -/
def file? (t : Theme) (path : Path) : Option SourceFile :=
  match t.templateAt? path with
  | some template => some template.toSourceFile
  | none => (t.jsonFiles.find? (·.relativePath.same path)).map (·.toSourceFile)

/-- Puts a source in the first template with a given path. -/
def setSourceIn (path : Path) (source : Text) : List Template → List Template
  | [] => []
  | t :: ts =>
    if t.relativePath.same path then t.setSource source :: ts
    else t :: setSourceIn path source ts

/-- The theme with another source for the template with a given path. -/
def setSource (t : Theme) (path : Path) (source : Text) : Theme :=
  { t with templates := setSourceIn path source t.templates }

end Theme

end LiquidLint
