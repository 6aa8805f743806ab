import LiquidLint.Span

/-!
# Text and byte offsets

A source text is the list of its characters. Positions in it are byte offsets of its UTF-8 form, so
a character takes up `Char.utf8Size` offsets, and an offset is a *boundary* when it falls between two
characters. `Text.splitAt?` is the one place where offsets and characters meet.
-/

namespace LiquidLint

/-- A text, as the list of its characters. -/
abbrev Text := List Char

namespace Text

/-- The number of bytes of the UTF-8 form of a text. -/
def size : Text → Nat
  | [] => 0
  | c :: cs => c.utf8Size + size cs

/-! ### Cutting at offsets -/

/-- Cuts a text at a byte offset; `none` unless the offset is a boundary of the text. -/
def splitAt? : Text → Nat → Option (Text × Text)
  | t, 0 => some ([], t)
  | [], _ + 1 => none
  | c :: cs, n + 1 =>
    if c.utf8Size ≤ n + 1 then
      (splitAt? cs (n + 1 - c.utf8Size)).map fun (l, r) => (c :: l, r)
    else none

/-- An offset is a boundary when the text can be cut there. -/
def isBoundary (t : Text) (offset : Nat) : Bool := (t.splitAt? offset).isSome

/-- The part of a text covered by a span; `none` when the span is backwards, reaches past the text or
cuts a character. -/
def slice? (t : Text) (s : Span) : Option Text :=
  if s.start ≤ s.stop then
    match t.splitAt? s.start with
    | some (_, r) => (r.splitAt? (s.stop - s.start)).map (·.1)
    | none => none
  else none

/-- The part of a text covered by a span, or nothing when `slice?` has no answer. -/
def slice (t : Text) (s : Span) : Text := (t.slice? s).getD []

/-! ### Cutting at characters -/

/-- What follows `p` when the text starts with `p`. -/
def dropStart? (p t : Text) : Option Text :=
  match p, t with
  | [], t => some t
  | _ :: _, [] => none
  | a :: p, c :: t => if a = c then dropStart? p t else none

/-- What precedes `p` when the text ends with `p`. -/
def dropStop? (p t : Text) : Option Text :=
  (dropStart? p.reverse t.reverse).map List.reverse

/-- Cuts a text at the first place where `p` stands: the text before it and the text after it. -/
def cut? (p : Text) : Text → Option (Text × Text)
  | [] => if p.isEmpty then some ([], []) else none
  | c :: cs =>
    match dropStart? p (c :: cs) with
    | some rest => some ([], rest)
    | none => (cut? p cs).map fun (l, r) => (c :: l, r)

/-- The maximal runs between the characters that satisfy `p`, empty runs included. -/
def splitOn (p : Char → Bool) : Text → List Text
  | [] => [[]]
  | c :: cs =>
    if p c then [] :: splitOn p cs
    else
      match splitOn p cs with
      | [] => [[c]]
      | first :: rest => (c :: first) :: rest

/-- The non-empty maximal runs between the characters that satisfy `p`. -/
def fields (p : Char → Bool) (t : Text) : List Text :=
  (splitOn p t).filter (! ·.isEmpty)

end Text

end LiquidLint
