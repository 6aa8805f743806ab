import LiquidLint.Text.Basic

/-!
# Paths

A path keeps the text it was written with, and is compared by its components: repeated slashes,
inner and trailing dots and a trailing slash do not count, while a leading dot does. Paths are
ordered component by component, so `a/b` comes before `a-b`.
-/

namespace LiquidLint

/-- A file path as written. -/
structure Path where
  text : String
deriving DecidableEq, Inhabited, Repr

namespace Path

/-- A component of a path. -/
inductive Component where
  /-- The leading slash of an absolute path. -/
  | root
  /-- A leading dot. -/
  | here
  /-- Two dots. -/
  | up
  /-- The name of a file or directory. -/
  | name (name : String)
deriving DecidableEq, Inhabited, Repr

/-- The rank of a component among components of different kinds. -/
def Component.rank : Component → Nat
  | .root => 0
  | .here => 1
  | .up => 2
  | .name _ => 3

/-- The order of components: the root, a leading dot, two dots, then names. -/
def Component.compare : Component → Component → Ordering
  | .name a, .name b => Ord.compare a b
  | a, b => Ord.compare a.rank b.rank

/-- A component with the indices of its first character and of the one past its last. -/
structure Piece where
  component : Component
  start : Nat
  stop : Nat
deriving Repr

/-- The components among the slash-separated `segments`, the first of which starts at index `i`. -/
def piecesFrom (i : Nat) : List Text → List Piece
  | [] => []
  | s :: rest =>
    let stop := i + s.length
    let after := piecesFrom (stop + 1) rest
    match s with
    | [] => after
    | ['.'] => if i = 0 then ⟨.here, i, stop⟩ :: after else after
    | ['.', '.'] => ⟨.up, i, stop⟩ :: after
    | s => ⟨.name (String.ofList s), i, stop⟩ :: after

/-- The components of a path with their places in its text. -/
def pieces (p : Path) : List Piece :=
  let t := p.text.toList
  let body := piecesFrom 0 (Text.splitOn (· == '/') t)
  match t with
  | '/' :: _ => ⟨.root, 0, 1⟩ :: body
  | _ => body

/-- The components of a path. -/
def components (p : Path) : List Component := p.pieces.map (·.component)

/-! ### Order and identity -/

/-- The order of lists of components, where a shorter list comes before its extensions. -/
def compareComponents : List Component → List Component → Ordering
  | [], [] => .eq
  | [], _ :: _ => .lt
  | _ :: _, [] => .gt
  | a :: as, b :: bs => (a.compare b).then (compareComponents as bs)

/-- The order of paths. -/
def compare (p q : Path) : Ordering := compareComponents p.components q.components

/-- Whether `p` comes before `q` or has the same components. -/
def le (p q : Path) : Bool := (p.compare q).isLE

/-- Whether two paths have the same components. -/
def same (p q : Path) : Bool := p.components == q.components

/-! ### Building and taking apart -/

/-- Whether a path starts at the root. -/
def isAbsolute (p : Path) : Bool := p.text.toList.head? == some '/'

/-- The path `q` seen from the directory `p`; an absolute `q` stays as it is. -/
def join (p q : Path) : Path :=
  if q.isAbsolute || p.text.isEmpty then q
  else if p.text.toList.getLast? == some '/' then ⟨p.text ++ q.text⟩
  else ⟨p.text ++ "/" ++ q.text⟩

/-- The path without its last component; `none` when there is none to drop. -/
def parent? (p : Path) : Option Path :=
  match p.pieces.reverse with
  | [] => none
  | ⟨.root, _, _⟩ :: _ => none
  | _ :: [] => some ⟨""⟩
  | _ :: q :: _ => some ⟨String.ofList (p.text.toList.take q.stop)⟩

/-- The directories above a path with `n` components or fewer, nearest first. -/
def ancestorsWithin : Nat → Path → List Path
  | 0, _ => []
  | n + 1, p =>
    match p.parent? with
    | none => []
    | some q => q :: ancestorsWithin n q

/-- A path followed by all directories above it, nearest first. -/
def ancestors (p : Path) : List Path := p :: ancestorsWithin p.pieces.length p

/-- What is left of `p` below the directory `base`; `none` when `p` is not below it. -/
def relativeTo? (p base : Path) : Option Path :=
  let bases := base.components
  let ps := p.pieces
  if (ps.take bases.length).map (·.component) = bases then
    match ps.drop bases.length, ps.getLast? with
    | first :: _, some last =>
      some ⟨String.ofList ((p.text.toList.take last.stop).drop first.start)⟩
    | _, _ => some ⟨""⟩
  else none

/-- What is left of `p` below `base`, or `p` itself when it is not below it. -/
def relativeTo (p base : Path) : Path := (p.relativeTo? base).getD p

/-! ### Names -/

/-- A file name without its last extension; a name that only starts with a dot has none. -/
def stem (name : Text) : Text :=
  match name.reverse.dropWhile (· != '.') with
  | '.' :: c :: rest => (c :: rest).reverse
  | _ => name

/-- The name of a component that names something. -/
def Component.name? : Component → Option String
  | .name s => some s
  | _ => none

/-- The names along a path without the extension of the last one. A last name that would shrink to
dots names nothing. -/
def stemNames : List Component → List String
  | [] => []
  | [.name s] =>
    match stem s.toList with
    | ['.'] | ['.', '.'] => []
    | t => [String.ofList t]
  | c :: cs => (c.name?.toList) ++ stemNames cs

/-- The name of a theme file: the names along its path without the extension, divided by slashes. -/
def fileName (p : Path) : String := String.intercalate "/" (stemNames p.components)

end Path

end LiquidLint
