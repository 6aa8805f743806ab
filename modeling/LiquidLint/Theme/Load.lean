import LiquidLint.FileTree
import LiquidLint.Glob
import LiquidLint.Theme.Basic

/-!
# Loading themes

A theme directory holds templates anywhere below it and JSON files below four directories of it.
Files whose path matches an ignore pattern are left out. Everything is listed in the order of paths.
-/

namespace LiquidLint

/-- Why a theme cannot be loaded or written. -/
inductive ThemeError where
  /-- A file cannot be read or written. -/
  | io (path : Path) (error : FileError)
  /-- An ignore pattern is wrong. -/
  | glob (error : Glob.Error)
deriving DecidableEq, Repr

/-- The error as one line. -/
def ThemeError.message : ThemeError → String
  | .io path error => s!"Failed to access {path.text}: {error.message}"
  | .glob error => s!"Invalid glob pattern: {error.message}"

namespace Theme

/-- Directories whose JSON files belong to a theme. -/
def jsonDirectories : List String := ["config", "locales", "sections", "templates"]

/-- Takes the path `p` one step down to `segment`; the working directory leaves no trace in the
result. -/
def descend (tree : FileTree) (p : Path) (segment : Text) : Option Path :=
  let name : Path := ⟨String.ofList segment⟩
  let next := if p.text = "." then name else p.join name
  if segment = ['.'] ∨ segment = ['.', '.'] then
    if tree.isDirectory p then some next else none
  else if tree.hasEntry next then some next else none

/-- The path reached along the segments of a directory's text, from the top when the text starts with
a slash and else from the working directory. -/
def reach (tree : FileTree) : List Text → Option Path
  | [] :: segments => segments.foldlM (descend tree) ⟨"/"⟩
  | segments => segments.foldlM (descend tree) ⟨"."⟩

/-- The files below a directory, given by its text, whose names end with `ending`, in the order of
paths. -/
def list (tree : FileTree) (directory : String) (ending : Text) : List Path :=
  match reach tree (Text.splitOn (· == '/') directory.toList) with
  | none => []
  | some base =>
    match tree.resolve base with
    | .error _ => []
    | .ok key =>
      if tree.isDirectory base then
        let below := (tree.filesBelow key).filter fun k =>
          ((k.getLast?.map String.toList).bind (Text.dropStop? ending)).isSome
        let paths := below.map fun k =>
          let name : Path := ⟨FileTree.keyText k⟩
          if base.text = "." then name else base.join name
        paths.mergeSort Path.le
      else []

/-- Whether a path is described by one of the ignore patterns. -/
def isIgnored (patterns : List (List Glob.Piece)) (path : Path) : Bool :=
  patterns.any fun p => Glob.isMatch p path.text.toList

/-- Reads the file at `path` and names it relative to `root`. -/
def readFile (tree : FileTree) (root path : Path) : Except ThemeError SourceFile :=
  match tree.read path with
  | .ok source => .ok ⟨path.relativeTo root, source⟩
  | .error e => .error (.io path e)

/-- The listed files that are not ignored, read in order. -/
def readAll (tree : FileTree) (root : Path) (patterns : List (List Glob.Piece))
    (paths : List Path) : Except ThemeError (List (Path × SourceFile)) :=
  (paths.filter fun p => !isIgnored patterns (p.relativeTo root)).mapM fun p =>
    (readFile tree root p).map (p, ·)

/-- Loads the theme in the directory `root`, leaving out files that match an ignore pattern. -/
def load (tree : FileTree) (root : Path) (ignore : List String) : Except ThemeError Theme := do
  let patterns ← ignore.mapM fun p =>
    match Glob.parse p.toList with
    | .ok p => .ok p
    | .error e => .error (.glob e)
  let templates ← readAll tree root patterns (list tree root.text ".liquid".toList)
  let json ← jsonDirectories.mapM fun d =>
    readAll tree root patterns (list tree (root.text ++ "/" ++ d) ".json".toList)
  let jsonFiles : List JsonFile := json.flatten.map fun (_, f) => ⟨f⟩
  return { root
           templates := templates.map fun (path, f) => { toSourceFile := f, path }
           jsonFiles := jsonFiles.mergeSort fun a b => fileLe a.toSourceFile b.toSourceFile }

end Theme

end LiquidLint
