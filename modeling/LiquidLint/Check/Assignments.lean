import LiquidLint.Check.Event
import LiquidLint.Liquid.Lookup

/-!
# Assignments

An `assign` tag whose variable is looked up nowhere in the template is reported with the edit that
removes it. A template with an `include` tag is left alone, because the included snippet sees its
variables.
-/

namespace LiquidLint.Assignments

open Liquid (Node)

/-- What has been seen of a template. -/
structure Ledger where
  /-- The assigned variables with the spans of their tags, last first. -/
  assigned : List (String × Span)
  /-- The variables looked up. -/
  used : List String
  /-- Whether an `include` tag was seen. -/
  hasInclude : Bool
deriving DecidableEq, Repr

namespace Ledger

/-- Nothing seen yet. -/
def empty : Ledger := ⟨[], [], false⟩

/-- Takes note of the variables looked up in markup. -/
def use (l : Ledger) (markup : Text) : Ledger := { l with used := Liquid.lookups markup ++ l.used }

/-- Takes note of an assignment with the given arguments and span. -/
def assign (l : Ledger) (arguments : Text) (span : Span) : Ledger :=
  match Text.cut? ['='] arguments with
  | none => l
  | some (target, value) =>
    let target := Text.trim target
    let l := if target.isEmpty then l
      else { l with assigned := (String.ofList target, span) :: l.assigned }
    l.use value

/-- Takes note of a node. -/
def visit (l : Ledger) (n : Node) (source : Text) : Ledger :=
  match n.typeName with
  | "document" => empty
  | "assign" => l.assign (n.markup source) n.span
  | "include" => { l.use (n.markup source) with hasInclude := true }
  | "text" => l
  | _ => l.use (n.markup source)

/-- What has been seen after an event. -/
def next (l : Ledger) : Event → Ledger
  | .node .onType n t => l.visit n t.source
  | _ => l

/-- The assignments whose variable is looked up nowhere, in document order. -/
def unused (l : Ledger) : List (String × Span) :=
  if l.hasInclude then [] else l.assigned.reverse.filter fun (name, _) => !l.used.contains name

end Ledger

/-- What is reported at an event when `l` has been seen before it. -/
def findings (l : Ledger) (e : Event) : List Finding :=
  match e with
  | .node .afterType n _ =>
    if n.typeName == "document" then
      l.unused.map fun (name, span) =>
        e.findingAt span s!"`{name}` is never used" (some (.delete span))
    else []
  | _ => []

end LiquidLint.Assignments
