import LiquidLint.Text.Blank

/-!
# Delimiter markup

The markup of a variable or tag is the text between its delimiters. A dash next to a delimiter asks
for white space control and is no part of what the tag says, so names and arguments are read from
the *trimmed* markup.
-/

namespace LiquidLint.Liquid

/-- Markup without surrounding blanks and without one dash on either side. -/
def trimMarkup (raw : Text) : Text :=
  let t := raw.trim
  let t := (Text.dropStart? ['-'] t).getD t
  let t := (Text.dropStop? ['-'] t).getD t
  t.trim

/-- The name of a tag with trimmed markup `markup`: `#` for an inline comment, else the first word;
empty when there is none. -/
def tagName (markup : Text) : Text :=
  match markup with
  | '#' :: _ => ['#']
  | _ => (markup.takeWhile (! isBlank ·))

/-- What follows the tag name in trimmed markup, without leading blanks. -/
def tagArguments (name markup : Text) : Text :=
  match Text.dropStart? name markup with
  | some rest => rest.trimStart
  | none => []

end LiquidLint.Liquid
