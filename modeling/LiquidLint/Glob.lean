import LiquidLint.Text.Basic

/-!
# Glob patterns

A pattern describes whole paths. `*` stands for any characters, `?` for one, a class in brackets for
one of (or, after `!`, none of) its characters, and `**` as a whole component for any directories on
the way, including none. Slashes have no special part in `*`, `?` and classes.
-/

namespace LiquidLint

namespace Glob

/-- The characters a class speaks of. -/
inductive Range where
  | single (c : Char)
  | between (low high : Char)
deriving DecidableEq, Repr

/-- Whether a character is in a range. -/
def Range.contains : Range → Char → Bool
  | .single d, c => c == d
  | .between low high, c => low ≤ c && c ≤ high

/-- A piece of a pattern. -/
inductive Piece where
  /-- The character itself. -/
  | literal (c : Char)
  /-- Any one character. -/
  | one
  /-- One character of a class. -/
  | among (ranges : List Range)
  /-- One character outside a class. -/
  | except (ranges : List Range)
  /-- Any characters. -/
  | many
  /-- Any directories on the way. -/
  | directories
deriving DecidableEq, Repr

/-- What is wrong with a pattern. -/
inductive Cause where
  /-- More than two stars in a row. -/
  | stars
  /-- Two stars that are no whole component. -/
  | recursion
  /-- A bracket that starts no class. -/
  | range
deriving DecidableEq, Repr

/-- An error in a pattern. -/
structure Error where
  cause : Cause
  /-- The number of characters before the place at fault. -/
  position : Nat
deriving DecidableEq, Repr

/-- The wording of a cause. -/
def Cause.message : Cause → String
  | .stars => "wildcards are either regular `*` or recursive `**`"
  | .recursion => "recursive wildcards must form a single path component"
  | .range => "invalid range pattern"

/-- The error as one line. -/
def Error.message (e : Error) : String :=
  s!"Pattern syntax error near position {e.position}: {e.cause.message}"

/-! ### Reading patterns -/

/-- The ranges of a class; a dash between two characters makes a range. -/
def ranges : Text → List Range
  | low :: '-' :: high :: rest => .between low high :: ranges rest
  | c :: rest => .single c :: ranges rest
  | [] => []

/-- Cuts a class after its opening bracket and `first` characters that belong to it in any case: its
characters and the rest after its closing bracket. -/
def cutClass (first : Text) (rest : Text) : Option (Text × Text) :=
  (Text.cut? [']'] rest).map fun (body, after) => (first ++ body, after)

/-- Reads a class after its opening bracket. -/
def readClass : Text → Option (Piece × Text)
  | '!' :: c :: rest =>
    (cutClass [c] rest).map fun (body, after) => (.except (ranges body), after)
  | '!' :: [] => none
  | c :: rest => (cutClass [c] rest).map fun (body, after) => (.among (ranges body), after)
  | [] => none

/-- Reads a pattern in at most `fuel` steps from position `i` on, after the character `previous`. -/
def readFrom : Nat → Nat → Option Char → Text → Except Error (List Piece)
  | 0, _, _, _ => .ok []
  | _ + 1, _, _, [] => .ok []
  | fuel + 1, i, previous, c :: cs =>
    let single (p : Piece) (used : Nat) (last : Char) (rest : Text) : Except Error (List Piece) :=
      (readFrom fuel (i + used) (some last) rest).map (p :: ·)
    match c with
    | '?' => single .one 1 '?' cs
    | '[' =>
      match readClass cs with
      | some (p, rest) => single p (1 + cs.length - rest.length) ']' rest
      | none => .error ⟨.range, i⟩
    | '*' =>
      let stars := 1 + (cs.takeWhile (· == '*')).length
      let rest := cs.dropWhile (· == '*')
      if 2 < stars then .error ⟨.stars, i + 2⟩
      else if stars = 1 then single .many 1 '*' rest
      else if previous.isSome && previous != some '/' then .error ⟨.recursion, i - 1⟩
      else
        match rest with
        | [] => .ok [.directories]
        | '/' :: rest => single .directories 3 '/' rest
        | _ => .error ⟨.recursion, i + 2⟩
    | c => single (.literal c) 1 c cs

/-- Reads a pattern. -/
def parse (pattern : Text) : Except Error (List Piece) :=
  readFrom (pattern.length + 1) 0 none pattern

/-! ### Matching -/

/-- A text and everything left of it after dropping characters from its start. -/
def suffixes : Text → List Text
  | [] => [[]]
  | c :: cs => (c :: cs) :: suffixes cs

/-- What is left of a text after each slash, and at its end. -/
def afterSlashes : Text → List Text
  | [] => [[]]
  | c :: cs => if c = '/' then cs :: afterSlashes cs else afterSlashes cs

/-- Whether a piece that stands for one character stands for `c`. -/
def Piece.accepts : Piece → Char → Bool
  | .literal d, c => c == d
  | .one, _ => true
  | .among ranges, c => ranges.any (·.contains c)
  | .except ranges, c => !ranges.any (·.contains c)
  | .many, _ => false
  | .directories, _ => false

/-- Whether a pattern describes a text. -/
def isMatch : List Piece → Text → Bool
  | [], t => t.isEmpty
  | .many :: ps, t => (suffixes t).any (isMatch ps)
  | .directories :: ps, t => isMatch ps t || (afterSlashes t).any (isMatch ps)
  | p :: ps, t =>
    match t with
    | [] => false
    | c :: cs => p.accepts c && isMatch ps cs

end Glob

end LiquidLint
