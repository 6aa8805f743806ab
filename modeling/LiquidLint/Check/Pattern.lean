import LiquidLint.Check.Event
import LiquidLint.Regex.Engine

/-!
# Pattern checks

A pattern check is declared by a regular expression and the types of nodes it looks into. The
expression has been compiled, so the check knows it as a search. Each match is reported at its place.
Text is searched as a whole, other nodes only between the delimiters of their opening tag, so that the
body of a block is never searched on its behalf.
-/

namespace LiquidLint

/-- A declared check. -/
structure PatternCheck where
  name : String
  category : Category
  description : String
  severity : Severity
  message : String
  /-- What searches for the pattern. -/
  search : Search
  /-- The types of nodes that are searched. -/
  nodeTypes : List String

namespace PatternCheck

/-- The bytes of a node that are searched. -/
def region (n : Liquid.Node) : Span := if n.isLiteral then n.span else n.markupSpan

/-- The spans of the matches in a node. -/
def matchSpans (p : PatternCheck) (n : Liquid.Node) (source : Text) : List Span :=
  if p.nodeTypes.contains n.typeName then
    match source.slice? (region n) with
    | some text => (p.search text).map (·.shift (region n).start)
    | none => []
  else []

/-- The findings at an event. -/
def findings (p : PatternCheck) (e : Event) : List Finding :=
  match e with
  | .node .onNode n t => (p.matchSpans n t.source).map fun span => e.findingAt span p.message none
  | _ => []

end PatternCheck

end LiquidLint
