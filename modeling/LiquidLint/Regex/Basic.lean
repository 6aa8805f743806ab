import LiquidLint.Text.Blank
import LiquidLint.Text.Case
import LiquidLint.Text.Word

/-!
# Regular expressions

The syntax of regular expressions after reading: sets of characters, places in a text, and ways to
combine them. Counted repetition is split into a fixed part (`power`) and an optional part (`upTo`
or `star`), each of which says whether it prefers to go on.
-/

namespace LiquidLint

/-- A set of characters. -/
inductive CharSet where
  /-- No character. -/
  | nothing
  /-- The characters from code point `low` to `high`. -/
  | range (low high : Nat)
  /-- Word characters. -/
  | word
  /-- Decimal digits. -/
  | digit
  /-- White space. -/
  | blank
  | union (a b : CharSet)
  | inter (a b : CharSet)
  | diff (a b : CharSet)
  | symDiff (a b : CharSet)
  /-- All characters outside `a`. -/
  | compl (a : CharSet)
  /-- The characters of `a` in any case. -/
  | caseless (a : CharSet)
deriving DecidableEq, Repr

namespace CharSet

/-- Whether a set holds a character. -/
def contains : CharSet → Char → Bool
  | .nothing, _ => false
  | .range low high, c => low ≤ c.toNat && c.toNat ≤ high
  | .word, c => isWord c
  | .digit, c => isDecimalDigit c
  | .blank, c => isBlank c
  | .union a b, c => a.contains c || b.contains c
  | .inter a b, c => a.contains c && b.contains c
  | .diff a b, c => a.contains c && !b.contains c
  | .symDiff a b, c => a.contains c != b.contains c
  | .compl a, c => !a.contains c
  | .caseless a, c => (caseVariants c).any a.contains

/-- The set of one character. -/
def single (c : Char) : CharSet := .range c.toNat c.toNat

/-- The set of the characters from `low` to `high`. -/
def between (low high : Char) : CharSet := .range low.toNat high.toNat

/-- The characters in one of some sets. -/
def unions : List CharSet → CharSet
  | [] => .nothing
  | [a] => a
  | a :: as => .union a (unions as)

/-- Every character. -/
def all : CharSet := .compl .nothing

/-- ASCII letters and digits and the underscore. -/
def asciiWord : CharSet :=
  unions [between 'a' 'z', between 'A' 'Z', between '0' '9', single '_']

/-- ASCII white space. -/
def asciiBlank : CharSet := unions [.range 9 13, single ' ']

end CharSet

/-- A condition on a place in a text. -/
inductive Look where
  | textStart
  | textEnd
  | lineStart
  | lineEnd
  /-- The start of a line, where a carriage return may also end lines. -/
  | lineStartCr
  /-- The end of a line, where a carriage return may also end lines. -/
  | lineEndCr
  /-- Exactly one side is a word character, as `w` tells. -/
  | boundary (w : CharSet)
  /-- Both sides or neither are word characters. -/
  | noBoundary (w : CharSet)
  /-- A word starts here. -/
  | wordStart (w : CharSet)
  /-- A word ends here. -/
  | wordEnd (w : CharSet)
  /-- No word character stands before. -/
  | wordStartHalf (w : CharSet)
  /-- No word character stands after. -/
  | wordEndHalf (w : CharSet)
deriving DecidableEq, Repr

namespace Look

/-- Whether a neighbouring character, if any, is in a set. -/
def inSet (s : CharSet) : Option Char → Bool
  | some c => s.contains c
  | none => false

/-- Whether a condition holds between two neighbouring characters. -/
def holds (l : Look) (before after : Option Char) : Bool :=
  match l with
  | .textStart => before.isNone
  | .textEnd => after.isNone
  | .lineStart => before.isNone || before == some '\n'
  | .lineEnd => after.isNone || after == some '\n'
  | .lineStartCr =>
    before.isNone || before == some '\n' || (before == some '\r' && after != some '\n')
  | .lineEndCr =>
    after.isNone || after == some '\r' || (after == some '\n' && before != some '\r')
  | .boundary w => inSet w before != inSet w after
  | .noBoundary w => inSet w before == inSet w after
  | .wordStart w => !inSet w before && inSet w after
  | .wordEnd w => inSet w before && !inSet w after
  | .wordStartHalf w => !inSet w before
  | .wordEndHalf w => !inSet w after

end Look

/-- A regular expression. -/
inductive Regex where
  /-- Nothing at all. -/
  | empty
  /-- One character of a set. -/
  | set (s : CharSet)
  /-- A condition on the place. -/
  | look (l : Look)
  /-- One after the other. -/
  | seq (a b : Regex)
  /-- The first, or else the second. -/
  | alt (a b : Regex)
  /-- Exactly `n` times. -/
  | power (r : Regex) (n : Nat)
  /-- At most `n` times, as often as possible if `greedy`. -/
  | upTo (r : Regex) (n : Nat) (greedy : Bool)
  /-- Any number of times, as often as possible if `greedy`. -/
  | star (r : Regex) (greedy : Bool)
deriving DecidableEq, Repr

namespace Regex

/-- Some expressions one after the other. -/
def seqs : List Regex → Regex
  | [] => .empty
  | [r] => r
  | r :: rs => .seq r (seqs rs)

/-- The first of some expressions that fits. -/
def alts : List Regex → Regex
  | [] => .empty
  | [r] => r
  | r :: rs => .alt r (alts rs)

/-- From `low` to `high` times, or more when there is no `high`. -/
def times (r : Regex) (low : Nat) (high : Option Nat) (greedy : Bool) : Regex :=
  let rest := match high with
    | none => .star r greedy
    | some high => .upTo r (high - low) greedy
  if low = 0 then rest else .seq (.power r low) rest

end Regex

end LiquidLint
