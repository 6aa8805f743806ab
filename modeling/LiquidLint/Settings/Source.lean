import LiquidLint.FileTree

/-!
# Finding settings files

Settings are looked for in the directory where a run starts and in the directories above it, as far
as the text of the start goes. A file named by the user is taken unseen.
-/

namespace LiquidLint

/-- Where settings come from. -/
inductive SettingsSource where
  /-- A file named by the user. -/
  | explicit (path : Path)
  /-- A file found near the start. -/
  | discovered (path : Path)
  /-- No file. -/
  | default
deriving DecidableEq, Repr

namespace SettingsSource

/-- The name of settings files. -/
def fileName : String := ".theme-check.yml"

/-- The settings file, if there is one. -/
def path? : SettingsSource → Option Path
  | .explicit p | .discovered p => some p
  | .default => none

/-- Where the settings file of a directory would be. -/
def candidate (directory : Path) : Path := directory.join ⟨fileName⟩

/-- The directory in which the search for a start begins, which may be a file. -/
def startDirectory (isFile : Path → Bool) (start : Path) : Path :=
  if isFile start then start.parent?.getD start else start

/-- The directories that are searched, nearest first. -/
def searched (isFile : Path → Bool) (start : Path) : List Path :=
  (startDirectory isFile start).ancestors

/-- The settings file of the nearest directory that has one. -/
def nearest? (isFile : Path → Bool) (start : Path) : Option Path :=
  ((searched isFile start).map candidate).find? isFile

/-- The source of the settings for a start. -/
def resolve (tree : FileTree) (start : Path) (explicit : Option Path) : SettingsSource :=
  match explicit with
  | some p => .explicit p
  | none =>
    match nearest? tree.isFile start with
    | some p => .discovered p
    | none => .default

end SettingsSource

end LiquidLint
