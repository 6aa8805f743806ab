/-!
# Byte ranges

A `Span` is the half-open range `start .. stop` of byte offsets into a text. Nothing forces
`start ≤ stop`: a span read from a report may be backwards, and then it is empty.
-/

namespace LiquidLint

/-- The half-open range of byte offsets `start .. stop`. -/
structure Span where
  /-- The first offset of the range. -/
  start : Nat
  /-- One past the last offset of the range. -/
  stop : Nat
deriving DecidableEq, Inhabited, Repr

namespace Span

/-- The span of no bytes at offset `0`. -/
def zero : Span := ⟨0, 0⟩

/-- The number of bytes covered; a backwards span covers none. -/
def length (s : Span) : Nat := s.stop - s.start

/-- A span is empty when it covers no byte. -/
def isEmpty (s : Span) : Bool := s.length == 0

/-- Whether `offset` lies in the span, its end excluded. -/
def contains (s : Span) (offset : Nat) : Bool := s.start ≤ offset && offset < s.stop

/-- The span moved `n` bytes to the right. -/
def shift (s : Span) (n : Nat) : Span := ⟨s.start + n, s.stop + n⟩

end Span

end LiquidLint
