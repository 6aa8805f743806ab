import LiquidLint.Command.Run
import LiquidLint.Regex.Parse

/-!
# The program

Reads the files below the working directory, runs the command line on them, writes the files that
changed, and prints. Files elsewhere are not read, so for the program they do not exist.
-/

namespace LiquidLint.Program

/-- The files below the directory that a path text names, put into a tree under `key`. -/
partial def readTree (directory : String) (key : List String) (tree : FileTree) : IO FileTree := do
  let mut tree := tree
  for entry in ← (System.mkFilePath [directory]).readDir do
    let path := directory ++ "/" ++ entry.fileName
    let key := key ++ [entry.fileName]
    if ← entry.path.isDir then
      tree ← readTree path key (tree.create key .directory)
    else
      tree := tree.create key (.file (.ofBytes (← IO.FS.readBinFile entry.path).toList))
  return tree

/-- Writes the files of a tree that differ from those of another. -/
def writeChanges (old new : FileTree) : IO Unit := do
  for (key, content) in new.files do
    match content with
    | .text text =>
      if old.entry? key ≠ some (.file content) then
        IO.FS.writeFile ("/" ++ FileTree.keyText key) (String.ofList text)
    | .binary _ => pure ()

end LiquidLint.Program

open LiquidLint in
/-- Runs the words of a command line in the working directory. -/
def main (words : List String) : IO UInt32 := do
  let home := (LiquidLint.Path.mk (← IO.currentDir).toString).components.filterMap (·.name?)
  let tree ← Program.readTree "." home { FileTree.empty with home }
  let (outcome, after) := Command.run tree words
  Program.writeChanges tree after
  (← IO.getStdout).putStr outcome.output
  (← IO.getStderr).putStr outcome.errors
  return outcome.code.toUInt32
