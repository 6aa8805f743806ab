import LiquidLint.Text.Basic

/-!
# White space

Blank characters are those with the Unicode property `White_Space`: the controls tab to carriage
return, the space, and the separators listed in `isBlank`. Zero-width characters are not blank.
-/

namespace LiquidLint

/-- Whether a character has the Unicode property `White_Space`. -/
def isBlank (c : Char) : Bool :=
  let n := c.toNat
  (9 ≤ n && n ≤ 13) || n == 0x20 || n == 0x85 || n == 0xA0 || n == 0x1680 ||
    (0x2000 ≤ n && n ≤ 0x200A) || n == 0x2028 || n == 0x2029 || n == 0x202F || n == 0x205F ||
    n == 0x3000

namespace Text

/-- The text without the characters satisfying `p` at its start. -/
def trimStartBy (p : Char → Bool) (t : Text) : Text := t.dropWhile p

/-- The text without the characters satisfying `p` at its end. -/
def trimStopBy (p : Char → Bool) (t : Text) : Text := (t.reverse.dropWhile p).reverse

/-- The text without leading blanks. -/
def trimStart (t : Text) : Text := trimStartBy isBlank t

/-- The text without trailing blanks. -/
def trimStop (t : Text) : Text := trimStopBy isBlank t

/-- The text without leading and trailing blanks. -/
def trim (t : Text) : Text := trimStop (trimStart t)

/-- The blank-separated words of a text. -/
def words (t : Text) : List Text := fields isBlank t

end Text

end LiquidLint
