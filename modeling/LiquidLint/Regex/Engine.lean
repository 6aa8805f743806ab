import LiquidLint.Span
import LiquidLint.Text.Basic

/-!
# Engines for regular expressions

Patterns are compiled by an engine from outside, and all that is known of a compiled pattern is where
it matches. Whatever reads patterns takes the engine as a parameter. `Regex.engine` is one of them.
-/

namespace LiquidLint

/-- What a pattern is compiled to: the spans of its matches in a text, from left to right. -/
abbrev Search := Text → List Span

/-- An engine for regular expressions. -/
class RegexEngine where
  /-- What searches for a pattern, unless the pattern is refused. -/
  compile? (pattern : Text) : Option Search

end LiquidLint
