import LiquidLint.Yaml.Plain
import LiquidLint.Yaml.Token

/-!
# Scalars over several lines

Plain, quoted and block scalars. A line end inside a plain or quoted scalar is folded: one line end
reads as a space, and of several the first is dropped. A block scalar keeps its line ends (`|`) or
folds those between lines that do not start with a blank (`>`).
-/

namespace LiquidLint.Yaml

/-! ### Gaps -/

/-- Blanks and line ends between two words: the blanks when they stay on one line, else the first
line end and the further ones. -/
structure Gap where
  blanks : Text := []
  broken : Bool := false
  first : Text := []
  more : Text := []
deriving Repr

/-- The text that a gap stands for. -/
def Gap.fold (g : Gap) : Text :=
  if g.broken then
    if g.first = ['\n'] then (if g.more.isEmpty then [' '] else g.more) else g.first ++ g.more
  else g.blanks

/-- Reads a gap in at most `fuel` steps; fails at a tab before the column `indent` of a new line. -/
def gapWithin (indent : Nat) : Nat → Gap → Cursor → Option (Gap × Cursor)
  | 0, g, c => some (g, c)
  | fuel + 1, g, c =>
    match c.rest with
    | [] => some (g, c)
    | x :: _ =>
      if isBlank x then
        if g.broken then
          if x = '\t' ∧ c.column < indent then none else gapWithin indent fuel g (c.skip 1)
        else gapWithin indent fuel { g with blanks := g.blanks ++ [x] } (c.skip 1)
      else if isBreak x then
        let (t, c) := c.lineEnd
        if g.broken then gapWithin indent fuel { g with more := g.more ++ t } c
        else gapWithin indent fuel { g with blanks := [], broken := true, first := t } c
      else some (g, c)

/-- Reads the gap at a place, of which `g` was read before. -/
def gap (indent : Nat) (g : Gap) (c : Cursor) : Option (Gap × Cursor) :=
  gapWithin indent c.rest.length g c

/-! ### Plain scalars -/

/-- Whether a character ends a plain scalar inside brackets. -/
def isFlowIndicator (x : Char) : Bool :=
  x == ',' || x == '[' || x == ']' || x == '\x7b' || x == '\x7d'

/-- The word of a plain scalar at the start of a text; fails inside brackets at a colon before an
indicator. -/
def plainWord (inFlow : Bool) : Text → Option Text
  | [] => some []
  | x :: xs =>
    if isBlank x || isBreak x then some []
    else if inFlow && x == ':' && xs.head?.any (fun y => isFlowIndicator y || y == '?') then none
    else if x == ':' && blankNext xs then some []
    else if inFlow && isFlowIndicator x then some []
    else (plainWord inFlow xs).map (x :: ·)

/-- Reads a plain scalar in at most `fuel` words after the text `read` and the gap `g`. Yields the
text, whether the scalar is followed by a line end, and the place after it. -/
def plainWithin (inFlow : Bool) (indent : Nat) :
    Nat → Text → Gap → Cursor → Option (Text × Bool × Cursor)
  | 0, read, g, c => some (read, g.broken, c)
  | fuel + 1, read, g, c =>
    if c.atDocumentMark || c.rest.head? == some '#' then some (read, g.broken, c)
    else do
      let word ← plainWord inFlow c.rest
      let read := if word.isEmpty then read else read ++ g.fold ++ word
      let g := if word.isEmpty then g else {}
      let c := c.skip word.length
      if c.rest.isEmpty || !blankNext c.rest then return (read, g.broken, c)
      let (g, c) ← gap indent {} c
      if !inFlow && c.column < indent then return (read, g.broken, c)
      plainWithin inFlow indent fuel read g c

/-- Reads a plain scalar. -/
def plainScalar (inFlow : Bool) (indent : Nat) (c : Cursor) : Option (Text × Bool × Cursor) :=
  plainWithin inFlow indent (c.rest.length + 1) [] {} c

/-! ### Quoted scalars -/

/-- The character that a letter after a backslash stands for. -/
def escapedChar? (x : Char) : Option Char :=
  match x with
  | '0' => some '\x00'
  | 'a' => some '\x07'
  | 'b' => some '\x08'
  | 't' => some '\t'
  | '\t' => some '\t'
  | 'n' => some '\n'
  | 'v' => some '\x0b'
  | 'f' => some '\x0c'
  | 'r' => some '\r'
  | 'e' => some '\x1b'
  | ' ' => some ' '
  | '"' => some '"'
  | '/' => some '/'
  | '\\' => some '\\'
  | 'N' => some '\u0085'
  | '_' => some '\u00a0'
  | 'L' => some '\u2028'
  | 'P' => some '\u2029'
  | _ => none

/-- The number of hexadecimal digits that a letter after a backslash calls for. -/
def escapeLength? (x : Char) : Option Nat :=
  match x with
  | 'x' => some 2
  | 'u' => some 4
  | 'U' => some 8
  | _ => none

/-- Reads an escape after its backslash. -/
def escape (c : Cursor) : Option (Char × Cursor) :=
  match c.rest with
  | [] => none
  | x :: xs =>
    match escapeLength? x with
    | some n => do
      guard (n ≤ xs.length)
      let code ← digits? 16 (xs.take n)
      guard (code < 0xD800 ∨ (0xDFFF < code ∧ code ≤ 0x10FFFF))
      return (Char.ofNat code, c.skip (n + 1))
    | none => (escapedChar? x).map fun y => (y, c.skip 1)

/-- Reads the next word of a quoted scalar in at most `fuel` steps: its text, whether a backslash
before a line end follows it, and the place after it. -/
def quotedWord (single : Bool) : Nat → Text → Cursor → Option (Text × Bool × Cursor)
  | 0, read, c => some (read, false, c)
  | fuel + 1, read, c =>
    match c.rest with
    | [] => some (read, false, c)
    | x :: xs =>
      if isBlank x || isBreak x then some (read, false, c)
      else if single then
        if x = '\'' then
          if xs.head? = some '\'' then quotedWord single fuel (read ++ ['\'']) (c.skip 2)
          else some (read, false, c)
        else quotedWord single fuel (read ++ [x]) (c.skip 1)
      else if x = '"' then some (read, false, c)
      else if x = '\\' then
        if xs.head?.any isBreak then some (read, true, (c.skip 1).lineEnd.2)
        else do
          let (y, c) ← escape (c.skip 1)
          quotedWord single fuel (read ++ [y]) c
      else quotedWord single fuel (read ++ [x]) (c.skip 1)

/-- Reads the rest of a quoted scalar in at most `fuel` words. -/
def quotedWithin (single : Bool) : Nat → Text → Cursor → Option (Text × Cursor)
  | 0, _, _ => none
  | fuel + 1, read, c =>
    if c.atDocumentMark || c.rest.isEmpty then none
    else do
      let (word, escaped, c) ← quotedWord single (c.rest.length + 1) [] c
      if c.rest.head? = some (if single then '\'' else '"') then
        return (read ++ word, c.skip 1)
      let (g, c) ← gap 0 { broken := escaped } c
      quotedWithin single fuel (read ++ word ++ g.fold) c

/-- Reads a quoted scalar from its opening quote on. -/
def quotedScalar (single : Bool) (c : Cursor) : Option (Text × Cursor) :=
  quotedWithin single (c.rest.length + 1) [] (c.skip 1)

/-! ### Block scalars -/

/-- Which line ends after the text of a block scalar are kept. -/
inductive Chomping where
  | strip
  | clip
  | keep
deriving DecidableEq, Repr

/-- The chomping that a character calls for. -/
def chomping? (x : Char) : Option Chomping :=
  if x = '+' then some .keep else if x = '-' then some .strip else none

/-- Reads a digit that tells the indentation, which is not zero. -/
def indentation? (c : Cursor) : Option (Option Nat × Cursor) :=
  match c.rest with
  | x :: _ =>
    if x.isDigit then
      if x = '0' then none else some (some (x.toNat - '0'.toNat), c.skip 1)
    else some (none, c)
  | [] => some (none, c)

/-- Reads the character that tells the chomping. -/
def chomping (c : Cursor) : Option Chomping × Cursor :=
  match c.rest.head?.bind chomping? with
  | some k => (some k, c.skip 1)
  | none => (none, c)

/-- Reads what follows the indicator of a block scalar on its line. -/
def blockHeader (c : Cursor) : Option (Chomping × Option Nat × Cursor) := do
  let (before, c) := chomping c
  let (increment, c) ← indentation? c
  let (after, c) := if before.isNone && increment.isSome then chomping c else (none, c)
  return ((before.or after).getD .clip, increment, ← c.finishLine?)

/-- Reads empty lines in at most `fuel` steps: their line ends, the greatest number of spaces on one
of them or on the next line, and the place after them. With an indentation known, only that many
spaces are passed over. Fails at a tab within the indentation. -/
def emptyLines (indent? : Option Nat) :
    Nat → Text → Nat → Cursor → Option (Text × Nat × Cursor)
  | 0, read, most, c => some (read, most, c)
  | fuel + 1, read, most, c =>
    let spaces := c.rest.takeWhile (· == ' ')
    let count := match indent? with
      | some n => min spaces.length (n - c.column)
      | none => spaces.length
    let c := c.skip count
    let most := max most c.column
    let inside := match indent? with
      | some n => decide (c.column < n)
      | none => true
    match c.rest with
    | [] => some (read, most, c)
    | x :: _ =>
      if x == '\t' && inside then none
      else if isBreak x then
        let (t, c) := c.lineEnd
        emptyLines indent? fuel (read ++ t) most c
      else some (read, most, c)

/-- Reads the lines of a block scalar in at most `fuel` steps. `pending` is the end of the line before
and `more` the ends of the empty lines after it; `blank` tells that it started with a blank. Yields
the text, the line ends after it and the place. -/
def blockLines (literal : Bool) (indent : Nat) :
    Nat → Text → Text → Text → Bool → Cursor → Option (Text × Text × Text × Cursor)
  | 0, read, pending, more, _, c => some (read, pending, more, c)
  | fuel + 1, read, pending, more, blank, c =>
    match c.rest with
    | [] => some (read, pending, more, c)
    | x :: _ =>
      if c.column ≠ indent then some (read, pending, more, c)
      else do
        let folded := !literal && pending == ['\n'] && !blank && !isBlank x
        let joint := if folded then (if more.isEmpty then [' '] else []) else pending
        let (line, c) := c.takeWhile (! isBreak ·)
        let (pending, c) := c.lineEnd
        let (next, _, c) ← emptyLines (some indent) (c.rest.length + 1) [] 0 c
        blockLines literal indent fuel (read ++ joint ++ more ++ line) pending next (isBlank x) c

/-- Reads a block scalar from its indicator on, inside a block with the given indentation. -/
def blockScalar (literal : Bool) (outer : Int) (c : Cursor) : Option (Text × Cursor) := do
  let (chomp, increment, c) ← blockHeader (c.skip 1)
  let fixed := increment.map fun n => if 0 ≤ outer then outer.toNat + n else n
  let (more, most, c) ← emptyLines fixed (c.rest.length + 1) [] 0 c
  let indent := fixed.getD (max most (max (outer + 1) 1).toNat)
  let (text, pending, more, c) ← blockLines literal indent (c.rest.length + 1) [] [] more false c
  return match chomp with
    | .strip => (text, c)
    | .clip => (text ++ pending, c)
    | .keep => (text ++ pending ++ more, c)

end LiquidLint.Yaml
