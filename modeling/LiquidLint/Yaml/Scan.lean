import LiquidLint.Yaml.Scalar

/-!
# Cutting a YAML text into tokens

Indentation becomes tokens that open and close blocks. A colon may turn what was read before it on
its line into a key: `PendingKey` remembers where such a key would start, and the token that opens it
is put there once the colon is seen.
-/

namespace LiquidLint.Yaml

/-- A place where a key may have started. It must be a key if it stands at the indentation of its
block. -/
structure PendingKey where
  required : Bool
  /-- The number of tokens before it. -/
  position : Nat
  index : Nat
  line : Nat
  column : Nat
deriving Repr

/-- A text that is partly cut into tokens. -/
structure Scanner where
  cursor : Cursor
  tokens : Array Token := #[]
  /-- The column of the innermost block, `-1` outside of all. -/
  indent : Int := -1
  /-- The columns of the blocks around it. -/
  outer : List Int := []
  /-- Whether a key may start here. -/
  keyAllowed : Bool := true
  /-- The key that may have started outside of brackets. -/
  pending : Option PendingKey := none
  /-- The keys that may have started in the open brackets, innermost first. -/
  flows : List (Option PendingKey) := []
deriving Repr

namespace Scanner

/-- Whether brackets are open. -/
def inFlow (s : Scanner) : Bool := !s.flows.isEmpty

/-- Adds a token and goes to the place after it. -/
def emit (s : Scanner) (t : Token) (c : Cursor) : Scanner :=
  { s with tokens := s.tokens.push t, cursor := c }

/-! ### Keys -/

/-- The key that may have started in the innermost brackets. -/
def topKey (s : Scanner) : Option PendingKey :=
  match s.flows with
  | [] => s.pending
  | k :: _ => k

/-- Replaces the key that may have started in the innermost brackets. -/
def setTopKey (s : Scanner) (k : Option PendingKey) : Scanner :=
  match s.flows with
  | [] => { s with pending := k }
  | _ :: rest => { s with flows := k :: rest }

/-- Gives up the key that may have started; fails if it must be one. -/
def dropKey? (s : Scanner) : Option Scanner :=
  match s.topKey with
  | some k => if k.required then none else some (s.setTopKey none)
  | none => some s

/-- Remembers that a key may start here. -/
def markKey? (s : Scanner) : Option Scanner :=
  if s.keyAllowed then
    s.dropKey?.map fun s =>
      let c := s.cursor
      s.setTopKey (some
        { required := !s.inFlow && s.indent == c.column, position := s.tokens.size,
          index := c.index, line := c.line, column := c.column })
  else some s

/-- Keys stand on one line and are no longer than this. -/
def maxKeyLength : Nat := 1024

/-- The key that a colon here ends; fails if it is too far away and must be one. -/
def keyBefore? (s : Scanner) : Option (Option PendingKey) :=
  match s.topKey with
  | none => some none
  | some k =>
    if k.line < s.cursor.line || k.index + maxKeyLength < s.cursor.index then
      if k.required then none else some none
    else some (some k)

/-! ### Blocks -/

/-- The blocks that end before a column: how many, and the innermost one left with those around
it. -/
def closing (column : Int) : Int → List Int → Nat × Int × List Int
  | indent, [] => (0, indent, [])
  | indent, o :: os =>
    if column < indent then
      let (n, indent, outer) := closing column o os
      (n + 1, indent, outer)
    else (0, indent, o :: os)

/-- Ends the blocks that do not reach to a column. -/
def closeBlocks (s : Scanner) (column : Int) : Scanner :=
  if s.inFlow then s
  else
    let (n, indent, outer) := closing column s.indent s.outer
    { s with tokens := s.tokens ++ Array.replicate n .blockEnd, indent := indent, outer := outer }

/-- Opens a block at a column unless one is open there; its token comes after `position` others. -/
def openBlock (s : Scanner) (column position : Nat) (t : Token) : Scanner :=
  if !s.inFlow && s.indent < column then
    { s with tokens := s.tokens.insertIdxIfInBounds position t, indent := column,
             outer := s.indent :: s.outer }
  else s

/-! ### Tokens between nodes -/

/-- Passes over blanks, comments and line ends in at most `fuel` lines. -/
def toNextToken : Nat → Scanner → Scanner
  | 0, s => s
  | fuel + 1, s =>
    let c := s.cursor
    let c := if c.index = 0 ∧ c.rest.head? = some '\uFEFF' then c.skip 1 else c
    let c := c.skipWhile fun x => x == ' ' || (x == '\t' && (s.inFlow || !s.keyAllowed))
    let c := if c.rest.head? = some '#' then c.skipWhile (! isBreak ·) else c
    if c.rest.head?.any isBreak then
      toNextToken fuel { s with cursor := c.lineEnd.2, keyAllowed := s.keyAllowed || !s.inFlow }
    else { s with cursor := c }

/-- Adds a token that ends all blocks, and goes to the place after it. -/
def documentToken? (s : Scanner) (t : Token) (c : Cursor) : Option Scanner := do
  let s ← (s.closeBlocks (-1)).dropKey?
  return { s with keyAllowed := false }.emit t c

/-- Opens brackets. -/
def openFlow? (s : Scanner) (t : Token) : Option Scanner := do
  let s ← s.markKey?
  return { s with flows := none :: s.flows, keyAllowed := true }.emit t (s.cursor.skip 1)

/-- Closes brackets. -/
def closeFlow? (s : Scanner) (t : Token) : Option Scanner := do
  let s ← s.dropKey?
  return { s with flows := s.flows.tail, keyAllowed := false }.emit t (s.cursor.skip 1)

/-- A comma between brackets. -/
def flowEntry? (s : Scanner) : Option Scanner := do
  let s ← s.dropKey?
  return { s with keyAllowed := true }.emit .flowEntry (s.cursor.skip 1)

/-- Opens a block for a dash or a question mark, where one is allowed. -/
def openForIndicator? (s : Scanner) (t : Token) : Option Scanner :=
  if s.inFlow then some s
  else if s.keyAllowed then some (s.openBlock s.cursor.column s.tokens.size t)
  else none

/-- A dash. -/
def blockEntry? (s : Scanner) : Option Scanner := do
  let s ← (← s.openForIndicator? .blockSequenceStart).dropKey?
  return { s with keyAllowed := true }.emit .blockEntry (s.cursor.skip 1)

/-- A question mark. -/
def explicitKey? (s : Scanner) : Option Scanner := do
  let s ← (← s.openForIndicator? .blockMappingStart).dropKey?
  return { s with keyAllowed := !s.inFlow }.emit .key (s.cursor.skip 1)

/-- A colon, which may turn what stands before it into a key. -/
def mappingValue? (s : Scanner) : Option Scanner := do
  match ← s.keyBefore? with
  | some k =>
    let s := { s with tokens := s.tokens.insertIdxIfInBounds k.position .key }
    let s := (s.openBlock k.column k.position .blockMappingStart).setTopKey none
    return { s with keyAllowed := false }.emit .value (s.cursor.skip 1)
  | none =>
    let s ← (s.setTopKey none).openForIndicator? .blockMappingStart
    return { s with keyAllowed := !s.inFlow }.emit .value (s.cursor.skip 1)

/-! ### Directives, anchors and tags -/

/-- Reads a number of a version, which has at most nine digits. -/
def versionNumber? (c : Cursor) : Option (Nat × Cursor) := do
  let (t, c) := c.takeWhile Char.isDigit
  guard (t.length ≤ 9)
  return (← digits? 10 t, c)

/-- Reads the handle of a tag: `!`, or a name that starts and may end with `!`. -/
def handle? (c : Cursor) : Option (Text × Cursor) :=
  match c.rest with
  | '!' :: _ =>
    let (name, c) := (c.skip 1).takeWhile isNameChar
    match c.rest with
    | '!' :: _ => some ('!' :: name ++ ['!'], c.skip 1)
    | _ => some ('!' :: name, c)
  | _ => none

/-- Whether a character may stand in a tag; some may only where brackets cannot end the tag. -/
def isTagChar (delimited : Bool) (x : Char) : Bool :=
  isNameChar x || ";/?:@&=+$.%!~*'()".toList.contains x ||
    (delimited && (x == ',' || x == '[' || x == ']'))

/-- The byte given by two hexadecimal digits after `%` at the start of a text. -/
def octet? : Text → Option Nat
  | '%' :: x :: y :: _ => digits? 16 [x, y]
  | _ => none

/-- The number of bytes of the character that starts with the given byte. -/
def sequenceLength? (octet : Nat) : Option Nat :=
  if octet < 0x80 then some 1
  else if octet / 0x20 = 0x6 then some 2
  else if octet / 0x10 = 0xE then some 3
  else if octet / 0x08 = 0x1E then some 4
  else none

/-- Reads the character that is given by `count` bytes written after `%`. -/
def escapedOctets? (count : Nat) (c : Cursor) : Option (List UInt8 × Cursor) :=
  match count with
  | 0 => some ([], c)
  | count + 1 => do
    let octet ← octet? c.rest
    guard (octet / 0x40 = 2)
    let (octets, c) ← escapedOctets? count (c.skip 3)
    return (octet.toUInt8 :: octets, c)

/-- Reads the characters of a tag in at most `fuel` steps. -/
def tagChars? (delimited : Bool) : Nat → Text → Cursor → Option (Text × Cursor)
  | 0, read, c => some (read, c)
  | fuel + 1, read, c =>
    match c.rest with
    | '%' :: _ => do
      let octet ← octet? c.rest
      let count ← sequenceLength? octet
      let (octets, c) ← escapedOctets? (count - 1) (c.skip 3)
      tagChars? delimited fuel (read ++ Utf8.decodeLossy (octet.toUInt8 :: octets)) c
    | x :: _ =>
      if isTagChar delimited x then tagChars? delimited fuel (read ++ [x]) (c.skip 1)
      else some (read, c)
    | [] => some (read, c)

/-- Reads the characters of a tag, of which there must be one. -/
def tagText? (delimited : Bool) (c : Cursor) : Option (Text × Cursor) := do
  let (t, c) ← tagChars? delimited c.rest.length [] c
  guard (!t.isEmpty)
  return (t, c)

/-- Reads a directive after its percent sign, with the rest of its line. -/
def directive? (c : Cursor) : Option (Token × Cursor) := do
  let (name, c) := c.takeWhile isNameChar
  guard (blankNext c.rest)
  let c := c.skipWhile isBlank
  if name = "YAML".toList then
    let (major, c) ← versionNumber? c
    guard (c.rest.head? = some '.')
    let (minor, c) ← versionNumber? (c.skip 1)
    return (.version major minor, ← c.finishLine?)
  else if name = "TAG".toList then
    let (handle, c) ← handle? c
    guard (handle = ['!'] ∨ handle.getLast? = some '!')
    guard (c.rest.head?.any isBlank)
    let (expansion, c) ← tagText? true (c.skipWhile isBlank)
    guard (blankNext c.rest)
    return (.tagHandle handle expansion, ← c.finishLine?)
  else none

/-- Reads the name of an anchor or alias. -/
def anchorName? (c : Cursor) : Option (Text × Cursor) := do
  let (name, c) := c.takeWhile isNameChar
  guard (!name.isEmpty)
  guard (blankNext c.rest || c.rest.head?.any ("?:,]\x7d%@`".toList.contains ·))
  return (name, c)

/-- Reads a tag. -/
def tag? (s : Scanner) : Option (Token × Cursor) := do
  let (t, c) ← match s.cursor.rest with
    | '!' :: '<' :: _ => do
      let (text, c) ← tagText? true (s.cursor.skip 2)
      guard (c.rest.head? = some '>')
      pure (Token.tag [] text, c.skip 1)
    | _ => do
      let (handle, c) ← handle? s.cursor
      if 1 < handle.length ∧ handle.getLast? = some '!' then
        let (suffix, c) ← tagText? false c
        pure (Token.tag handle suffix, c)
      else
        let (suffix, c) ← tagChars? false c.rest.length handle.tail c
        pure (if suffix.isEmpty then Token.tag [] ['!'] else Token.tag ['!'] suffix, c)
  guard (blankNext c.rest || (s.inFlow && c.rest.head? = some ','))
  return (t, c)

/-! ### Nodes -/

/-- Adds a token that may start a key and after which no key can start. -/
def node? (s : Scanner) (read : Scanner → Option (Token × Cursor)) : Option Scanner := do
  let s ← s.markKey?
  let (t, c) ← read s
  return { s with keyAllowed := false }.emit t c

/-- Adds a quoted scalar. -/
def quoted? (s : Scanner) (single : Bool) : Option Scanner :=
  s.node? fun s => do
    let (t, c) ← quotedScalar single s.cursor
    return (.scalar t false, c)

/-- Adds a block scalar. -/
def block? (s : Scanner) (literal : Bool) : Option Scanner := do
  let s ← s.dropKey?
  let (t, c) ← blockScalar literal s.indent s.cursor
  return { s with keyAllowed := true }.emit (.scalar t false) c

/-- Adds a plain scalar; a key can start after it on the next line. -/
def plain? (s : Scanner) : Option Scanner := do
  let s ← s.markKey?
  let (t, broken, c) ← plainScalar s.inFlow (s.indent + 1).toNat s.cursor
  return { s with keyAllowed := broken }.emit (.scalar t true) c

/-- Whether a plain scalar can start with `x` before `xs`. -/
def startsPlain (inFlow : Bool) (x : Char) (xs : Text) : Bool :=
  !(isBlank x || isBreak x || "-?:,[]\x7b\x7d#&*!|>'\"%@`".toList.contains x) ||
    (x == '-' && !xs.head?.any isBlank) ||
    (!inFlow && (x == '?' || x == ':') && !blankNext xs)

/-- Adds the token that starts with `x` before `xs`. -/
def token? (s : Scanner) (x : Char) (xs : Text) : Option Scanner :=
  let c := s.cursor
  if c.column = 0 ∧ x = '%' then do
    let (t, c) ← directive? (c.skip 1)
    s.documentToken? t c
  else if c.atDocumentMark then
    s.documentToken? (if x = '-' then .documentStart else .documentEnd) (c.skip 3)
  else if x = '[' then s.openFlow? .flowSequenceStart
  else if x = '\x7b' then s.openFlow? .flowMappingStart
  else if x = ']' then s.closeFlow? .flowSequenceEnd
  else if x = '\x7d' then s.closeFlow? .flowMappingEnd
  else if x = ',' then s.flowEntry?
  else if x = '-' ∧ blankNext xs then s.blockEntry?
  else if x = '?' ∧ (s.inFlow ∨ blankNext xs) then s.explicitKey?
  else if x = ':' ∧ (s.inFlow ∨ blankNext xs) then s.mappingValue?
  else if x = '*' then
    s.node? fun s => (anchorName? (s.cursor.skip 1)).map fun (name, c) => (.alias name, c)
  else if x = '&' then
    s.node? fun s => (anchorName? (s.cursor.skip 1)).map fun (name, c) => (.anchor name, c)
  else if x = '!' then s.node? tag?
  else if x = '|' ∧ !s.inFlow then s.block? true
  else if x = '>' ∧ !s.inFlow then s.block? false
  else if x = '\'' then s.quoted? true
  else if x = '"' then s.quoted? false
  else if startsPlain s.inFlow x xs then s.plain?
  else none

/-- Cuts the rest of a text into tokens in at most `fuel` steps. -/
def run? : Nat → Scanner → Option (List Token)
  | 0, _ => none
  | fuel + 1, s =>
    let s := s.toNextToken (s.cursor.rest.length + 1)
    let s := s.closeBlocks s.cursor.column
    match s.cursor.rest with
    | [] => (s.closeBlocks (-1)).dropKey?.map (·.tokens.toList)
    | x :: xs => (s.token? x xs).bind (run? fuel)

end Scanner

/-- The tokens of a text; fails where it is not well formed. A byte-order mark before it is no part of
it. -/
def tokens? (source : Text) : Option (List Token) :=
  if source.all isAllowed then
    let source := if source.head? = some '\uFEFF' then source.tail else source
    Scanner.run? (source.length + 1) { cursor := ⟨source, 0, 0, 0⟩ }
  else none

end LiquidLint.Yaml
