import LiquidLint.Text.Basic

/-!
# Corrections

A correction is an edit of a source: some bytes are replaced by a text. Corrections of one source are applied
together, from the highest offset down, so that an edit never moves the bytes of one that is still to
come. An edit is skipped when it reaches into one already applied, lies outside the source or cuts a
character.
-/

namespace LiquidLint

/-- An edit of a source text, given by byte offsets. -/
inductive Correction where
  /-- Puts `text` in place of `span`. -/
  | replace (span : Span) (text : String)
  /-- Puts `text` at `offset`. -/
  | insert (offset : Nat) (text : String)
  /-- Removes `span`. -/
  | delete (span : Span)
deriving DecidableEq, Repr

namespace Correction

/-- The bytes an edit takes away. -/
def range : Correction → Span
  | .replace span _ => span
  | .insert offset _ => ⟨offset, offset⟩
  | .delete span => span

/-- The text an edit puts in their place. -/
def text : Correction → String
  | .replace _ text => text
  | .insert _ text => text
  | .delete _ => ""

/-! ### The order of application -/

/-- Later starts come first, then later ends, then smaller texts. -/
def compare (a b : Correction) : Ordering :=
  (Ord.compare b.range.start a.range.start).then
    ((Ord.compare b.range.stop a.range.stop).then (Ord.compare a.text b.text))

/-- Whether `a` may be applied before `b`. -/
def le (a b : Correction) : Bool := (compare a b).isLE

/-- A list without elements that equal the one before them. -/
def dedup : List Correction → List Correction
  | [] => []
  | [a] => [a]
  | a :: b :: rest => if a = b then dedup (b :: rest) else a :: dedup (b :: rest)

/-- The edits in the order in which they are tried. -/
def schedule (corrections : List Correction) : List Correction :=
  dedup (corrections.mergeSort le)

/-! ### Application -/

/-- A source being edited from its end towards its start. -/
structure Patch where
  /-- The text so far. -/
  text : Text
  /-- Bytes from this offset on are settled. -/
  limit : Nat
  applied : Nat
  skipped : Nat
deriving Repr

namespace Patch

/-- Nothing edited yet. -/
def start (source : Text) : Patch := ⟨source, source.size, 0, 0⟩

/-- Leaves an edit out. -/
def skip (p : Patch) : Patch := { p with skipped := p.skipped + 1 }

/-- Whether an edit fits the source and keeps clear of the settled part. -/
def accepts (p : Patch) (source : Text) (c : Correction) : Bool :=
  c.range.start ≤ c.range.stop && source.isBoundary c.range.start &&
    source.isBoundary c.range.stop && c.range.stop ≤ p.limit

/-- Tries one edit. -/
def edit (source : Text) (p : Patch) (c : Correction) : Patch :=
  if p.accepts source c then
    match p.text.splitAt? c.range.start, p.text.splitAt? c.range.stop with
    | some (before, _), some (_, after) =>
      { p with
        text := before ++ c.text.toList ++ after
        limit := c.range.start
        applied := p.applied + 1 }
    | _, _ => p.skip
  else p.skip

end Patch

/-- Applies corrections to a source and counts those applied and those skipped. -/
def applyAll (source : Text) (corrections : List Correction) : Patch :=
  (schedule corrections).foldl (Patch.edit source) (.start source)

end Correction

end LiquidLint
