import LiquidLint.Check.Event
import LiquidLint.Liquid.Lookup

/-!
# References between templates

`render` and `include` name a snippet and `section` names a section by the string that is their first
argument. A reference to a template that is not there is reported at the tag; a snippet that nothing
refers to is reported at its start, unless some reference is not a plain string and so may mean any
snippet. `include` itself is out of date, and reported with the edit that turns it into `render`.
-/

namespace LiquidLint

open Liquid (Node)

namespace References

/-- The directory that the templates named by a tag are in. -/
def directory? (tag : String) : Option String :=
  match tag with
  | "render" | "include" => some "snippets"
  | "section" => some "sections"
  | _ => none

/-- Whether a tag names a snippet. -/
def namesSnippet (tag : String) : Bool := tag == "render" || tag == "include"

/-- The string that is the first argument of a tag. -/
def argument? (n : Node) (source : Text) : Option String :=
  Liquid.stringArgument? (n.markup source)

/-- The name of the template that a tag refers to. -/
def target? (n : Node) (source : Text) : Option String := do
  let directory ← directory? n.typeName
  let name ← argument? n source
  return s!"{directory}/{name}"

/-! ### Missing templates -/

/-- The names of the templates of a theme. -/
def names (theme : Theme) : List String := theme.templates.map Template.name

/-- What is reported at an event when `known` are the templates of the theme. -/
def missing (known : List String) (e : Event) : List Finding :=
  match e with
  | .node .onTag n t =>
    match target? n t.source with
    | some name =>
      if known.contains name then [] else [e.finding s!"'{name}.liquid' is not found" none]
    | none => []
  | _ => []

/-! ### Unused snippets -/

/-- The snippets referred to so far. -/
structure Uses where
  /-- The names of the templates referred to. -/
  names : List String
  /-- Whether some reference may mean any snippet. -/
  anything : Bool
deriving DecidableEq, Repr

/-- No reference. -/
def Uses.none : Uses := ⟨[], false⟩

/-- Takes note of the reference a tag makes. -/
def Uses.record (u : Uses) (n : Node) (source : Text) : Uses :=
  if namesSnippet n.typeName then
    match argument? n source with
    | some name => { u with names := s!"snippets/{name}" :: u.names }
    | Option.none => { u with anything := true }
  else u

/-- The references known after an event. -/
def Uses.next (u : Uses) : Event → Uses
  | .onTheme _ => .none
  | .node .onTag n t => u.record n t.source
  | _ => u

/-- What is reported at an event when `u` are the references before it. -/
def unused (u : Uses) (e : Event) : List Finding :=
  match e with
  | .onEnd theme =>
    if u.anything then []
    else
      (theme.templates.filter fun t => t.isSnippet && !u.names.contains t.name).map fun t =>
        t.toSourceFile.finding .zero "This template is not used" none
  | _ => []

/-! ### Outdated tags -/

/-- The bytes of the tag name of an `include` tag. -/
def includeKeyword? (n : Node) (source : Text) : Option Span :=
  let raw := source.slice n.markupSpan
  let leading := raw.takeWhile fun c => c == '-' || isBlank c
  let rest := raw.dropWhile fun c => c == '-' || isBlank c
  if (Text.dropStart? "include".toList rest).isSome then
    let start := n.markupSpan.start + Text.size leading
    some ⟨start, start + 7⟩
  else none

/-- The report of an `include` tag. -/
def outdated (e : Event) : List Finding :=
  match e with
  | .node .onType n t =>
    if n.typeName == "include" then
      [e.finding "`include` is deprecated - convert it to `render`"
        ((includeKeyword? n t.source).map fun span => .replace span "render")]
    else []
  | _ => []

end References

end LiquidLint
