import LiquidLint.Check.Event
import LiquidLint.Liquid.Lookup

/-!
# Spaces inside delimiters

One space stands on the inner side of each delimiter, dashes aside, and after each comma and colon
outside strings. Other white space than spaces may take its place. Each finding carries the edit that
puts in a missing space or reduces several to one.
-/

namespace LiquidLint.Spacing

open Liquid (Node)

/-- A place where spaces are wrong, and the edit that mends it. -/
structure Fault where
  span : Span
  message : String
  correction : Correction
deriving DecidableEq, Repr

/-- A space is missing at `offset`. -/
def missing (offset : Nat) (place : String) : Fault :=
  ⟨⟨offset, offset⟩, s!"Space missing {place}", .insert offset " "⟩

/-- There are too many spaces in `span`. -/
def tooMany (span : Span) (place : String) : Fault :=
  ⟨span, s!"Too many spaces {place}", .replace span " "⟩

/-- Whether some white space is more than one space and nothing else. -/
def isRepeated (t : Text) : Bool := 1 < t.size && t.all (· == ' ')

/-- The faults of white space `blanks` at `offset` next to a delimiter. -/
def checkGap (offset : Nat) (blanks : Text) (place : String) : List Fault :=
  if blanks.isEmpty then [missing offset place]
  else if isRepeated blanks then [tooMany ⟨offset, offset + blanks.size⟩ place]
  else []

/-- The faults next to the delimiters of markup that starts at `offset`. -/
def checkDelimiters (offset : Nat) (raw : Text) (isTag : Bool) : List Fault :=
  let leadDash := raw.head? == some '-'
  let trailDash := 1 < raw.length && raw.getLast? == some '-'
  let inner := if leadDash then raw.drop 1 else raw
  let inner := if trailDash then inner.dropLast else inner
  let start := if leadDash then offset + 1 else offset
  if inner.all isBlank then []
  else
    let (opening, closing) := if isTag then ("\x7b%", "%\x7d") else ("\x7b\x7b", "\x7d\x7d")
    let opening := if leadDash then opening ++ "-" else opening
    let closing := if trailDash then "-" ++ closing else closing
    let leading := inner.takeWhile isBlank
    let trailing := (inner.reverse.takeWhile isBlank).reverse
    checkGap start leading s!"after '{opening}'" ++
      checkGap (start + Text.size inner - Text.size trailing) trailing s!"before '{closing}'"

/-- The faults after a separator `c`, which is followed by `rest` at `offset`. -/
def checkAfter (c : Char) (offset : Nat) (rest : Text) : List Fault :=
  match rest with
  | [] => []
  | next :: _ =>
    if !isBlank next then [missing offset s!"after '{c}'"]
    else
      let spaces := (rest.takeWhile (· == ' ')).length
      match rest.drop spaces with
      | [] => []
      | next :: _ =>
        if 1 < spaces && next != '\n' then [tooMany ⟨offset, offset + spaces⟩ s!"after '{c}'"] else []

/-- The faults after the separators of a piece of markup at `offset`. -/
def checkPiece (offset : Nat) : Text → List Fault
  | [] => []
  | c :: cs =>
    let here := if c == ',' || c == ':' then checkAfter c (offset + 1) cs else []
    here ++ checkPiece (offset + c.utf8Size) cs

/-- The faults after the separators of markup that starts at `offset`. -/
def checkSeparators (offset : Nat) (raw : Text) : List Fault :=
  (Liquid.unquoted raw).flatMap fun u => checkPiece (offset + u.offset) u.chars

/-- The markup of the end tag of a block: what stands between the last opening delimiter of the block
and its end, if it lies after the opening tag and starts with `end`. -/
def endMarkup? (n : Node) (source : Text) : Option Span := do
  let body ← Text.dropStop? ['%', '}'] (n.source source)
  let (_, before) ← Text.cut? ['%', '{'] body.reverse
  let markup : Span := ⟨n.span.start + Text.size before + 2, n.span.stop - 2⟩
  let inner ← source.slice? markup
  let name := inner.dropWhile fun c => c == '-' || isBlank c
  if n.markupSpan.stop < markup.start && (Text.dropStart? ['e', 'n', 'd'] name).isSome then
    some markup
  else none

/-- The faults of a node: of its own delimiters, its separators, and of the end tag of a block. The
markup of a `liquid` tag is free. -/
def faults (n : Node) (source : Text) : List Fault :=
  if n.typeName == "variable" || (n.isTag && n.typeName != "liquid") then
    let raw := source.slice n.markupSpan
    let own := checkDelimiters n.markupSpan.start raw n.isTag ++
      checkSeparators n.markupSpan.start raw
    let ending := if n.isBlock then
        match endMarkup? n source with
        | some markup => checkDelimiters markup.start (source.slice markup) true
        | none => []
      else []
    own ++ ending
  else []

/-- The findings at an event. -/
def findings (e : Event) : List Finding :=
  match e with
  | .node .onNode n t =>
    (faults n t.source).map fun f => e.findingAt f.span f.message (some f.correction)
  | _ => []

end LiquidLint.Spacing
