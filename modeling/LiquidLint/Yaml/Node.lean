import LiquidLint.Yaml.Token

/-!
# YAML nodes

The tree that the tokens of a document form, with anchors and tags as written. An anchor takes a
slot, whose number is the number of names that were anchored before it; an alias names the slot of
its anchor. Naming an anchor again moves its name to a new slot.
-/

namespace LiquidLint.Yaml

/-- A node of a YAML document. -/
inductive Node where
  | alias (slot : Nat)
  | scalar (slot : Option Nat) (tag : Option Text) (text : Text) (plain : Bool)
  | sequence (slot : Option Nat) (tag : Option Text) (items : List Node)
  | mapping (slot : Option Nat) (tag : Option Text) (entries : List (Node × Node))
deriving Inhabited, Repr

namespace Node

/-- What stands where a node is left out. -/
def empty : Node := .scalar none none [] true

mutual

/-- The number of marks in a node: one for a scalar or an alias, two around a collection. -/
def marks : Node → Nat
  | .alias _ => 1
  | .scalar .. => 1
  | .sequence _ _ items => 2 + marksOfItems items
  | .mapping _ _ entries => 2 + marksOfEntries entries

/-- The number of marks in some nodes. -/
def marksOfItems : List Node → Nat
  | [] => 0
  | n :: ns => marks n + marksOfItems ns

/-- The number of marks in some entries. -/
def marksOfEntries : List (Node × Node) → Nat
  | [] => 0
  | (k, v) :: rest => marks k + marks v + marksOfEntries rest

end

mutual

/-- The nodes that have a slot, in the order in which they start. -/
def anchored : Node → List (Nat × Node)
  | .alias _ => []
  | .scalar slot tag text plain =>
    (slot.map fun s => (s, Node.scalar slot tag text plain)).toList
  | .sequence slot tag items =>
    (slot.map fun s => (s, Node.sequence slot tag items)).toList ++ anchoredItems items
  | .mapping slot tag entries =>
    (slot.map fun s => (s, Node.mapping slot tag entries)).toList ++ anchoredEntries entries

/-- The nodes that have a slot among some nodes. -/
def anchoredItems : List Node → List (Nat × Node)
  | [] => []
  | n :: ns => anchored n ++ anchoredItems ns

/-- The nodes that have a slot among some entries. -/
def anchoredEntries : List (Node × Node) → List (Nat × Node)
  | [] => []
  | (k, v) :: rest => anchored k ++ anchored v ++ anchoredEntries rest

end

end Node

/-! ### Reading tokens -/

/-- The tokens that are left, the texts that tag handles stand for, and the slots of the anchors. -/
structure Reader where
  tokens : List Token
  handles : List (Text × Text)
  slots : List (Text × Nat) := []
deriving Repr

/-- A step that reads tokens and may fail. -/
abbrev Read := StateT Reader Option

namespace Read

/-- The next token. -/
def peek : Read (Option Token) := return (← get).tokens.head?

/-- Passes over the next token. -/
def advance : Read Unit := modify fun r => { r with tokens := r.tokens.tail }

/-- Whether the next token is one of those given. -/
def atAny (ts : List Token) : Read Bool := return (← peek).any ts.contains

/-- Passes over the next token if it is the one given, and tells whether it was. -/
def accept (t : Token) : Read Bool := do
  if ← atAny [t] then
    advance
    return true
  else return false

/-- The slot of an anchor. -/
def slot (name : Text) : Read Nat := do
  let slots := (← get).slots
  match slots.lookup name with
  | some n => return n
  | none => failure

/-- Gives a name the next slot. -/
def anchor (name : Text) : Read Nat := do
  let slots := (← get).slots
  let n := slots.length
  let others := slots.filter (·.1 != name)
  modify fun r => { r with slots := (name, n) :: others }
  return n

/-- The text of a tag; fails if its handle is not known. -/
def tagText (handle suffix : Text) : Read Text := do
  if handle.isEmpty then return suffix
  match (← get).handles.lookup handle with
  | some expansion => return expansion ++ suffix
  | none => failure

/-- The anchor ahead. -/
def anchor? : Read (Option Nat) := do
  match ← peek with
  | some (.anchor name) =>
    advance
    return some (← anchor name)
  | _ => return none

/-- The tag ahead. -/
def tag? : Read (Option Text) := do
  match ← peek with
  | some (.tag handle suffix) =>
    advance
    return some (← tagText handle suffix)
  | _ => return none

/-- The anchor and the tag ahead, in either order. -/
def properties : Read (Option Nat × Option Text) := do
  match ← anchor? with
  | some slot => return (some slot, ← tag?)
  | none =>
    let tag ← tag?
    return (← anchor?, tag)

mutual

/-- Reads a node in at most `fuel` steps: with `block`, it may be a block; with `indentless`, it may be
a sequence that starts at the indentation of the mapping around it. -/
def node (fuel : Nat) (block indentless : Bool) : Read Node := do
  match fuel with
  | 0 => failure
  | fuel + 1 =>
    match ← peek with
    | some (.alias name) =>
      advance
      return .alias (← slot name)
    | _ =>
      let (slot, tag) ← properties
      match ← peek with
      | some (.scalar text plain) =>
        advance
        return .scalar slot (tag.filter (· != ['!'])) text plain
      | some .flowSequenceStart =>
        advance
        return .sequence slot tag (← flowItems fuel true)
      | some .flowMappingStart =>
        advance
        return .mapping slot tag (← flowEntries fuel true)
      | next =>
        if indentless && next == some .blockEntry then
          return .sequence slot tag (← indentlessItems fuel)
        else if block && next == some .blockSequenceStart then
          advance
          return .sequence slot tag (← blockItems fuel)
        else if block && next == some .blockMappingStart then
          advance
          return .mapping slot tag (← blockEntries fuel)
        else if slot.isSome || tag.isSome then return .scalar slot tag [] true
        else failure

/-- Reads a node unless one of some tokens is ahead. -/
def nodeUnless (fuel : Nat) (block indentless : Bool) (stops : List Token) : Read Node := do
  match fuel with
  | 0 => failure
  | fuel + 1 => if ← atAny stops then return .empty else node fuel block indentless

/-- Reads the items of a block sequence. -/
def blockItems (fuel : Nat) : Read (List Node) := do
  match fuel with
  | 0 => failure
  | fuel + 1 =>
    if ← accept .blockEntry then
      let n ← nodeUnless fuel true false [.blockEntry, .blockEnd]
      return n :: (← blockItems fuel)
    else if ← accept .blockEnd then return []
    else failure

/-- Reads the items of a sequence without indentation. -/
def indentlessItems (fuel : Nat) : Read (List Node) := do
  match fuel with
  | 0 => failure
  | fuel + 1 =>
    if ← accept .blockEntry then
      let n ← nodeUnless fuel true false [.blockEntry, .key, .value, .blockEnd]
      return n :: (← indentlessItems fuel)
    else return []

/-- Reads the entries of a block mapping. -/
def blockEntries (fuel : Nat) : Read (List (Node × Node)) := do
  match fuel with
  | 0 => failure
  | fuel + 1 =>
    if ← accept .key then
      let stops := [Token.key, .value, .blockEnd]
      let k ← nodeUnless fuel true true stops
      let v ← if ← accept .value then nodeUnless fuel true true stops else pure .empty
      return (k, v) :: (← blockEntries fuel)
    else if ← accept .blockEnd then return []
    else failure

/-- Reads the items of a sequence in brackets; before each but the first stands a comma. -/
def flowItems (fuel : Nat) (first : Bool) : Read (List Node) := do
  match fuel with
  | 0 => failure
  | fuel + 1 =>
    if ← accept .flowSequenceEnd then return []
    unless first do
      guard (← accept .flowEntry)
    if ← accept .key then
      let k ← if ← atAny [.value, .flowEntry, .flowSequenceEnd] then
          advance
          pure Node.empty
        else node fuel false false
      let v ← if ← accept .value then nodeUnless fuel false false [.flowEntry, .flowSequenceEnd]
        else pure Node.empty
      return .mapping none none [(k, v)] :: (← flowItems fuel false)
    else if ← accept .flowSequenceEnd then return []
    else
      let n ← node fuel false false
      return n :: (← flowItems fuel false)

/-- Reads the entries of a mapping in braces; before each but the first stands a comma. -/
def flowEntries (fuel : Nat) (first : Bool) : Read (List (Node × Node)) := do
  match fuel with
  | 0 => failure
  | fuel + 1 =>
    if ← accept .flowMappingEnd then return []
    unless first do
      guard (← accept .flowEntry)
    let stops := [Token.flowEntry, .flowMappingEnd]
    if ← accept .key then
      let k ← nodeUnless fuel false false (.value :: stops)
      let v ← if ← accept .value then nodeUnless fuel false false stops else pure .empty
      return (k, v) :: (← flowEntries fuel false)
    else if ← accept .flowMappingEnd then return []
    else
      let k ← node fuel false false
      return (k, .empty) :: (← flowEntries fuel false)

end

end Read

/-! ### Documents -/

/-- The handles that need no directive. -/
def knownHandles : List (Text × Text) :=
  [(['!'], ['!']), (['!', '!'], "tag:yaml.org,2002:".toList)]

/-- Reads the directives before a document: the handles that they define and the tokens after
them. -/
def directives? : Bool → List (Text × Text) → List Token →
    Option (List (Text × Text) × List Token)
  | versioned, handles, .version major minor :: ts =>
    if !versioned && major == 1 && (minor == 1 || minor == 2) then directives? true handles ts
    else none
  | versioned, handles, .tagHandle handle expansion :: ts =>
    if (handles.lookup handle).isSome then none
    else directives? versioned (handles ++ [(handle, expansion)]) ts
  | _, handles, ts => some (handles ++ knownHandles, ts)

/-- Whether a token belongs to no node. -/
def endsDocument : Token → Bool
  | .version .. | .tagHandle .. | .documentStart | .documentEnd => true
  | _ => false

/-- The node of the one document that some tokens form; nothing if there is no document. -/
def document? (tokens : List Token) : Option (Option Node) := do
  match tokens with
  | [] => return none
  | _ =>
    let (handles, rest) ← directives? false [] tokens
    let explicit := tokens.length != rest.length || rest.head? == some .documentStart
    if explicit then guard (rest.head? == some .documentStart)
    let rest := if explicit then rest.tail else rest
    let (n, reader) ←
      if explicit && rest.head?.all endsDocument then some (Node.empty, ⟨rest, handles, []⟩)
      else (Read.node (4 * rest.length + 4) true false).run ⟨rest, handles, []⟩
    guard (reader.tokens.all (· == .documentEnd))
    return some n

end LiquidLint.Yaml
