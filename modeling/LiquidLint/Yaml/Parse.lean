import LiquidLint.Yaml.Node
import LiquidLint.Yaml.Scan

/-!
# Reading YAML

`YamlValue.parse?` reads a text that holds one document. Aliases are replaced by what they stand for,
which must not repeat too often, collections may be nested 128 deep, and no two keys of a mapping may
be equal.
-/

namespace LiquidLint.Yaml

/-- What is known while a document is read: the nodes in the slots, and how often an alias may still be
followed. -/
structure Aliases where
  nodes : List (Nat × Node)
  left : Nat
deriving Repr

/-- A step that may follow aliases and may fail. -/
abbrev Resolve := StateT Aliases Option

/-- A node, or the node that an alias stands for. -/
def target (n : Node) : Resolve Node := do
  match n with
  | .alias slot =>
    let a ← get
    guard (a.left != 0)
    set { a with left := a.left - 1 }
    match a.nodes.lookup slot with
    | some n => return n
    | none => failure
  | n => return n

/-! ### Tags -/

/-- The name of a tag of the document's own; fails if it is empty. A second exclamation mark is no
part of the name. -/
def ownTag? (tag : Text) : Option (Option String) :=
  match tag with
  | ['!'] => none
  | ['!', '!'] => some (some "!")
  | '!' :: '!' :: name => some (some (String.ofList name))
  | '!' :: name => some (some (String.ofList name))
  | _ => some none

/-- A value under a tag of the document's own. -/
def withTag (tag : Option Text) (v : YamlValue) : Option YamlValue :=
  match tag with
  | none => some v
  | some tag => (ownTag? tag).map fun
    | some name => .tagged name v
    | none => v

/-- The value of a scalar under a tag that everyone knows. -/
def knownTagValue? (tag : String) (text : Text) : Option YamlValue :=
  let s := String.ofList text
  match tag with
  | "tag:yaml.org,2002:bool" => (boolean? s).map .bool
  | "tag:yaml.org,2002:int" => (integerValue text).join
  | "tag:yaml.org,2002:float" => (real? text).map .real
  | "tag:yaml.org,2002:null" => if nullWords.contains s then some .null else none
  | _ => some (.string s)

/-- The value of a scalar. -/
def scalarValue? (tag : Option Text) (text : Text) (plain : Bool) : Option YamlValue := do
  match tag with
  | some t =>
    match ← ownTag? t with
    | some _ => withTag tag (← if plain then plainValue? text else some (.string (String.ofList text)))
    | none => knownTagValue? (String.ofList t) text
  | none => if plain then plainValue? text else return .string (String.ofList text)

/-! ### Values -/

/-- The entries of a mapping, each key read before its value; fails at a key that was there before. -/
def entryValues (read : Node → Resolve YamlValue) :
    List (YamlValue × YamlValue) → List (Node × Node) → Resolve (List (YamlValue × YamlValue))
  | done, [] => return done
  | done, (k, v) :: rest => do
    let k ← read k
    guard (YamlValue.lookup k done).isNone
    let v ← read v
    entryValues read (done ++ [(k, v)]) rest

/-- The value of a node in which collections may be nested `depth` deep. -/
def nodeValue (depth : Nat) (n : Node) : Resolve YamlValue :=
  match n with
  | .alias _ => failure
  | .scalar _ tag text plain => liftM (scalarValue? tag text plain)
  | .sequence _ tag items => do
    match depth with
    | 0 => failure
    | depth + 1 =>
      let vs ← items.mapM fun n => do nodeValue depth (← target n)
      liftM (withTag tag (.sequence vs))
  | .mapping _ tag entries => do
    match depth with
    | 0 => failure
    | depth + 1 =>
      let es ← entryValues (fun n => do nodeValue depth (← target n)) [] entries
      liftM (withTag tag (.mapping es))

/-- Collections may be nested this deep. -/
def depthLimit : Nat := 128

/-- Aliases may be followed this often for each mark of a document. -/
def aliasLimit : Nat := 100

end LiquidLint.Yaml

namespace LiquidLint.YamlValue

open Yaml

/-- Reads a text that holds one document. -/
def parse? (source : Text) : Option YamlValue := do
  match ← document? (← tokens? source) with
  | none => return .null
  | some n =>
    let (v, _) ← (nodeValue depthLimit n).run ⟨n.anchored.reverse, aliasLimit * n.marks⟩
    return v

end LiquidLint.YamlValue
