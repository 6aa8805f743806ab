import LiquidLint.Text.Basic

/-!
# Lines and columns

Lines are separated by the newline character and numbered from 1; a column is 1 more than the number
of characters since the start of the line. `Text.position` goes from an offset to a line and column,
`Text.lineSpan` from a line to the span of its characters.
-/

namespace LiquidLint

/-- A line and a column, both counted from 1. -/
structure Position where
  line : Nat
  column : Nat
deriving DecidableEq, Inhabited, Repr

namespace Position

/-- The position of the first character of a text. -/
def first : Position := ⟨1, 1⟩

/-- The position of the character that follows one holding `c`. -/
def next (p : Position) (c : Char) : Position :=
  if c = '\n' then ⟨p.line + 1, 1⟩ else ⟨p.line, p.column + 1⟩

end Position

namespace Text

/-- The number of newline characters of a text. -/
def newlines (t : Text) : Nat := t.count '\n'

/-- The position reached from `p` by the characters that end at or before `offset`. -/
def positionFrom (p : Position) : Text → Nat → Position
  | [], _ => p
  | c :: cs, offset =>
    if c.utf8Size ≤ offset then positionFrom (p.next c) cs (offset - c.utf8Size) else p

/-- The line and column of a byte offset. An offset inside a character stands for the start of that
character, an offset past the end for the end. -/
def position (t : Text) (offset : Nat) : Position := positionFrom .first t offset

/-- The lines of a text, without their newlines. A text always has at least one line. -/
def lines (t : Text) : List Text := splitOn (· == '\n') t

/-- The span of line `n` of `ls`, counted from 1, when the first of them starts at `offset`. -/
def lineSpanFrom : List Text → Nat → Nat → Option Span
  | [], _, _ => none
  | _ :: _, _, 0 => none
  | l :: _, offset, 1 => some ⟨offset, offset + size l⟩
  | l :: ls, offset, n + 2 => lineSpanFrom ls (offset + size l + 1) (n + 1)

/-- The span of line `n`, its newline excluded; the end of the text when there is no such line. -/
def lineSpan (t : Text) (n : Nat) : Span :=
  (lineSpanFrom t.lines 0 n).getD ⟨t.size, t.size⟩

/-- The number of lines as a reader counts them: an empty last line does not count. -/
def lineCount (t : Text) : Nat :=
  match t.getLast? with
  | none => 0
  | some '\n' => t.newlines
  | some _ => t.newlines + 1

end Text

end LiquidLint
