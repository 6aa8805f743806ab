import LiquidLint.Text.Utf8

/-!
# YAML tokens

The tokens of a YAML text, and places in it. Beside the usual line ends, the characters U+0085,
U+2028 and U+2029 end a line; the former three kinds read as a line feed, the latter two as
themselves.
-/

namespace LiquidLint.Yaml

/-- A token of a YAML text. -/
inductive Token where
  | version (major minor : Nat)
  | tagHandle (handle expansion : Text)
  | documentStart
  | documentEnd
  | blockSequenceStart
  | blockMappingStart
  | blockEnd
  | flowSequenceStart
  | flowSequenceEnd
  | flowMappingStart
  | flowMappingEnd
  | blockEntry
  | flowEntry
  | key
  | value
  | alias (name : Text)
  | anchor (name : Text)
  | tag (handle suffix : Text)
  /-- A scalar; `plain` if it is written without quotes and indicators. -/
  | scalar (text : Text) (plain : Bool)
deriving DecidableEq, Inhabited, Repr

/-! ### Characters -/

/-- Whether a character may stand in a YAML text. -/
def isAllowed (c : Char) : Bool :=
  c == '\t' || c == '\n' || c == '\r' || ('\x20' ≤ c && c ≤ '\x7E') || c == '\u0085' ||
    ('\u00A0' ≤ c && c != '\uFFFE' && c != '\uFFFF')

/-- Whether a character is a space or a tab. -/
def isBlank (c : Char) : Bool := c == ' ' || c == '\t'

/-- Whether a character ends a line. -/
def isBreak (c : Char) : Bool :=
  c == '\n' || c == '\r' || c == '\u0085' || c == '\u2028' || c == '\u2029'

/-- Whether a character is a letter, a digit, `_` or `-`. -/
def isNameChar (c : Char) : Bool := c.isAlphanum || c == '_' || c == '-'

/-- Whether a blank, a line end or the end of the text comes next. -/
def blankNext (t : Text) : Bool :=
  match t with
  | [] => true
  | c :: _ => isBlank c || isBreak c

/-! ### Places -/

/-- A place in a text: what is left to read, the number of characters before it, and the number of
its line and of the characters before it on that line. -/
structure Cursor where
  rest : Text
  index : Nat := 0
  line : Nat := 0
  column : Nat := 0
deriving Repr

namespace Cursor

/-- The place `n` characters further on the same line. -/
def skip (c : Cursor) (n : Nat) : Cursor :=
  { c with rest := c.rest.drop n, index := c.index + n, column := c.column + n }

/-- The characters at a place that satisfy `p`, and the place after them. -/
def takeWhile (c : Cursor) (p : Char → Bool) : Text × Cursor :=
  let t := c.rest.takeWhile p
  (t, c.skip t.length)

/-- The place after the characters that satisfy `p`. -/
def skipWhile (c : Cursor) (p : Char → Bool) : Cursor := (c.takeWhile p).2

/-- The line end at a place as it is read, nothing if there is none, and the place after it. -/
def lineEnd (c : Cursor) : Text × Cursor :=
  let after (n : Nat) : Cursor := ⟨c.rest.drop n, c.index + n, c.line + 1, 0⟩
  match c.rest with
  | '\r' :: '\n' :: _ => (['\n'], after 2)
  | '\u2028' :: _ => (['\u2028'], after 1)
  | '\u2029' :: _ => (['\u2029'], after 1)
  | x :: _ => if isBreak x then (['\n'], after 1) else ([], c)
  | [] => ([], c)

/-- Whether a document indicator stands at a place. -/
def atDocumentMark (c : Cursor) : Bool :=
  c.column == 0 &&
    match c.rest with
    | '-' :: '-' :: '-' :: t | '.' :: '.' :: '.' :: t => blankNext t
    | _ => false

/-- The place after blanks and a comment, which the end of the line must follow; the line end is
passed over too. -/
def finishLine? (c : Cursor) : Option Cursor :=
  let c := c.skipWhile isBlank
  let c := if c.rest.head? = some '#' then c.skipWhile (! isBreak ·) else c
  match c.rest with
  | [] => some c
  | x :: _ => if isBreak x then some c.lineEnd.2 else none

end Cursor

end LiquidLint.Yaml
