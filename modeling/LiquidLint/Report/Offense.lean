import LiquidLint.Correction
import LiquidLint.Path
import LiquidLint.Report.Level

/-!
# Offenses

An offense is one finding of a check: what is wrong, how bad it is, where, and optionally the edit
that mends it. Offenses are ordered by path, then by offsets.
-/

namespace LiquidLint

/-- A place in a theme file. -/
structure Location where
  /-- The path below the theme root; empty for the theme as a whole. -/
  path : Path
  /-- The line, counted from 1; 0 for the theme as a whole. -/
  line : Nat
  /-- The column, counted from 1; 0 for the theme as a whole. -/
  column : Nat
  /-- The byte offset where the place starts. -/
  start : Nat
  /-- The byte offset where the place ends. -/
  stop : Nat
deriving DecidableEq, Repr

namespace Location

/-- The theme as a whole. -/
def theme : Location := ⟨⟨""⟩, 0, 0, 0, 0⟩

/-- The bytes of a location. -/
def span (l : Location) : Span := ⟨l.start, l.stop⟩

/-- Locations are ordered by path, start, end, line and column. -/
def compare (a b : Location) : Ordering :=
  (a.path.compare b.path).then <|
    (Ord.compare a.start b.start).then <|
      (Ord.compare a.stop b.stop).then <|
        (Ord.compare a.line b.line).then (Ord.compare a.column b.column)

/-- Whether `a` comes before `b` or at the same place. -/
def le (a b : Location) : Bool := (a.compare b).isLE

end Location

/-- One finding of a check. -/
structure Offense where
  /-- The name of the check. -/
  check : String
  severity : Severity
  location : Location
  message : String
  /-- The edit that mends it. -/
  correction : Option Correction
deriving DecidableEq, Repr

namespace Offense

/-- Whether the offense carries an edit. -/
def isCorrectable (o : Offense) : Bool := o.correction.isSome

/-- The offense as one line. -/
def display (o : Offense) : String :=
  s!"{o.location.path.text}:{o.location.line}:{o.location.column}: {o.severity.word} " ++
    s!"[{o.check}] {o.message}"

/-- Offenses are ordered by location, then by the name of the check. -/
def le (a b : Offense) : Bool :=
  ((a.location.compare b.location).then (Ord.compare a.check b.check)).isLE

end Offense

/-- An offense as shown beside the source. -/
structure Diagnostic where
  message : String
  help : Option String
  /-- The offset and length of the marked bytes. -/
  offset : Nat
  length : Nat
  label : String
deriving DecidableEq, Repr

/-- How an offense is shown beside the source. -/
def Offense.diagnostic (o : Offense) : Diagnostic :=
  { message := s!"[{o.check}] {o.message}"
    help := if o.isCorrectable then some "run with --auto-correct to fix" else none
    offset := o.location.start
    length := o.location.span.length
    label := o.severity.word }

end LiquidLint
