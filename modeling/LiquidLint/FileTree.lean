import LiquidLint.Path
import LiquidLint.Text.Utf8

/-!
# File trees

A file system as a value. Entries are keyed by the names along the way from the top. Paths are read
from a working directory, which may lie anywhere below the top: an absolute path starts at the top,
two dots lead one directory up, and at the top they stay there. Reading and writing fail for the
reasons a file system gives.
-/

namespace LiquidLint

/-- What a file holds. -/
inductive Content where
  /-- Text. -/
  | text (text : Text)
  /-- Bytes that are no text. -/
  | binary (bytes : List UInt8)
deriving DecidableEq, Repr

namespace Content

/-- The content made of some bytes. -/
def ofBytes (bytes : List UInt8) : Content :=
  match Utf8.decode? bytes with
  | some t => .text t
  | none => .binary bytes

/-- The text of a content, with replacement characters where it is none. -/
def toText : Content → Text
  | .text t => t
  | .binary bytes => Utf8.decodeLossy bytes

end Content

/-- A thing in a file tree. -/
inductive Entry where
  | directory
  | file (content : Content)
deriving DecidableEq, Repr

/-- Why a file cannot be read or written. -/
inductive FileError where
  | notFound
  | notDirectory
  | isDirectory
  | notText
deriving DecidableEq, Repr

/-- The wording of a file error. -/
def FileError.message : FileError → String
  | .notFound => "No such file or directory (os error 2)"
  | .notDirectory => "Not a directory (os error 20)"
  | .isDirectory => "Is a directory (os error 21)"
  | .notText => "stream did not contain valid UTF-8"

/-- Files and directories with the directory from which paths are read. -/
structure FileTree where
  entries : List (List String × Entry)
  /-- The key of the working directory. -/
  home : List String := []
deriving Repr

namespace FileTree

/-- No files at all. -/
def empty : FileTree := { entries := [] }

/-- The entry with a key; the working directory and the directories above it always exist. -/
def entry? (t : FileTree) (key : List String) : Option Entry :=
  if key.isPrefixOf t.home then some .directory else t.entries.lookup key

/-- Puts an entry at a key, in place of one that is there. -/
def put (t : FileTree) (key : List String) (e : Entry) : FileTree :=
  if (t.entries.lookup key).isSome then
    { t with entries := t.entries.map fun (k, old) => if k = key then (k, e) else (k, old) }
  else { t with entries := t.entries ++ [(key, e)] }

/-- Puts an entry at a key together with the directories on the way to it. -/
def create (t : FileTree) (key : List String) (e : Entry) : FileTree :=
  let directories := (List.range key.length).map fun n => key.take n
  let t := directories.foldl
    (fun t d => if (t.entry? d).isSome then t else t.put d .directory) t
  t.put key e

/-! ### Resolving paths -/

/-- Follows components from the directory `here` to the key of what they name. Everything on the way has
to be a directory. The directory above the top is the top. -/
def follow (t : FileTree) (here : List String) : List Path.Component → Except FileError (List String)
  | [] => .ok here
  | c :: cs =>
    match t.entry? here with
    | none => .error .notFound
    | some (.file _) => .error .notDirectory
    | some .directory =>
      match c with
      | .root => t.follow [] cs
      | .here => t.follow here cs
      | .up => t.follow here.dropLast cs
      | .name n => t.follow (here ++ [n]) cs

/-- Whether a path can only name a directory, because it ends with a slash or a dot. -/
def namesDirectory (p : Path) : Bool :=
  match p.text.toList.reverse with
  | '/' :: _ => true
  | '.' :: '/' :: _ => true
  | _ => false

/-- The key of what a path names. -/
def resolve (t : FileTree) (p : Path) : Except FileError (List String) :=
  if p.text.isEmpty then .error .notFound
  else
    match t.follow t.home p.components with
    | .error e => .error e
    | .ok key =>
      match t.entry? key with
      | some (.file _) => if namesDirectory p then .error .notDirectory else .ok key
      | _ => .ok key

/-- The entry that a path names. -/
def find (t : FileTree) (p : Path) : Except FileError Entry :=
  match t.resolve p with
  | .error e => .error e
  | .ok key =>
    match t.entry? key with
    | some e => .ok e
    | none => .error .notFound

/-- Whether a path names something. -/
def hasEntry (t : FileTree) (p : Path) : Bool := (t.find p).toOption.isSome

/-- Whether a path names a file. -/
def isFile (t : FileTree) (p : Path) : Bool :=
  match t.find p with
  | .ok (.file _) => true
  | _ => false

/-- Whether a path names a directory. -/
def isDirectory (t : FileTree) (p : Path) : Bool :=
  match t.find p with
  | .ok .directory => true
  | _ => false

/-! ### Reading and writing -/

/-- Reads a file as text. -/
def read (t : FileTree) (p : Path) : Except FileError Text :=
  match t.find p with
  | .error e => .error e
  | .ok .directory => .error .isDirectory
  | .ok (.file (.text text)) => .ok text
  | .ok (.file (.binary _)) => .error .notText

/-- Writes a text to a file, which is created if its directory exists. -/
def write (t : FileTree) (p : Path) (text : Text) : Except FileError FileTree :=
  match t.resolve p with
  | .error e => .error e
  | .ok key =>
    match t.entry? key with
    | some .directory => .error .isDirectory
    | some (.file _) => .ok (t.put key (.file (.text text)))
    | none =>
      match t.entry? key.dropLast with
      | some .directory =>
        if namesDirectory p then .error .isDirectory else .ok (t.put key (.file (.text text)))
      | some (.file _) => .error .notDirectory
      | none => .error .notFound

/-! ### Listing -/

/-- The files of a tree with their keys. The working directory and the directories above it are no
files. -/
def files (t : FileTree) : List (List String × Content) :=
  t.entries.filterMap fun (key, e) =>
    match e with
    | .file c => if key.isPrefixOf t.home then none else some (key, c)
    | .directory => none

/-- The keys of the files below the directory `key`, relative to it. -/
def filesBelow (t : FileTree) (key : List String) : List (List String) :=
  t.files.filterMap fun (k, _) =>
    if key.isPrefixOf k ∧ key.length < k.length then some (k.drop key.length) else none

/-- The text of a key as a path. -/
def keyText (key : List String) : String := String.intercalate "/" key

end FileTree

end LiquidLint
