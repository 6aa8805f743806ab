import LiquidLint.Json.Value
import LiquidLint.Report.Basic

/-!
# Reports as JSON

Every record is written as an object with its fields in a fixed order, an edit with its kind as first
field, and an offense without an edit has no `correction` field. When read, fields may stand in any
order and others are ignored; a record may also be a list of its fields in order. Offsets and counts
are 64-bit.
-/

namespace LiquidLint

open JsonValue

/-! ### Writing -/

/-- A natural number as JSON. -/
def JsonValue.ofNat (n : Nat) : JsonValue := .integer n

/-- A span as JSON. -/
def Span.toJson (s : Span) : JsonValue := .object [("start", .ofNat s.start), ("end", .ofNat s.stop)]

/-- An edit as JSON. -/
def Correction.toJson : Correction → JsonValue
  | .replace span text =>
    .object [("kind", .string "replace"), ("span", span.toJson), ("text", .string text)]
  | .insert offset text =>
    .object [("kind", .string "insert"), ("offset", .ofNat offset), ("text", .string text)]
  | .delete span => .object [("kind", .string "delete"), ("span", span.toJson)]

/-- A location as JSON. -/
def Location.toJson (l : Location) : JsonValue :=
  .object [("path", .string l.path.text), ("line", .ofNat l.line), ("column", .ofNat l.column),
    ("start", .ofNat l.start), ("end", .ofNat l.stop)]

/-- An offense as JSON. -/
def Offense.toJson (o : Offense) : JsonValue :=
  .object ([("check", .string o.check), ("severity", .string o.severity.word),
    ("location", o.location.toJson), ("message", .string o.message)] ++
      (o.correction.map fun c => ("correction", c.toJson)).toList)

/-- A report as JSON. -/
def Report.toJson (r : Report) : JsonValue :=
  .object [("offenses", .array (r.offenses.map Offense.toJson)),
    ("templates_checked", .ofNat r.templatesChecked)]

/-! ### Reading -/

/-- The fields of a record, by name from an object or by position from a list; `none` for other
values and for lists with more elements than fields. -/
def JsonValue.fields? (names : List String) : JsonValue → Option (List (Option JsonValue))
  | .object members => some (names.map fun name => members.lookup name)
  | .array elements =>
    if elements.length ≤ names.length then
      some (elements.map some ++ List.replicate (names.length - elements.length) none)
    else none
  | _ => none

/-- A string. -/
def JsonValue.asString? : JsonValue → Option String
  | .string s => some s
  | _ => none

/-- A 64-bit natural number. -/
def JsonValue.asNat? : JsonValue → Option Nat
  | .integer n => if 0 ≤ n ∧ n < (Nat.pow 2 64 : Int) then some n.toNat else none
  | _ => none

/-- Reads a span. -/
def Span.ofJson? (j : JsonValue) : Option Span :=
  match j.fields? ["start", "end"] with
  | some [some start, some stop] => do return ⟨← start.asNat?, ← stop.asNat?⟩
  | _ => none

/-- Reads an edit of the given kind from a value with the remaining fields. -/
def Correction.ofFields? (kind : String) (j : JsonValue) : Option Correction :=
  match kind with
  | "replace" =>
    match j.fields? ["span", "text"] with
    | some [some span, some text] => do return .replace (← Span.ofJson? span) (← text.asString?)
    | _ => none
  | "insert" =>
    match j.fields? ["offset", "text"] with
    | some [some offset, some text] => do return .insert (← offset.asNat?) (← text.asString?)
    | _ => none
  | "delete" =>
    match j.fields? ["span"] with
    | some [some span] => do return .delete (← Span.ofJson? span)
    | _ => none
  | _ => none

/-- Reads an edit, whose kind is a field of an object or the first element of a list. -/
def Correction.ofJson? : JsonValue → Option Correction
  | .object members =>
    match members.lookup "kind" with
    | some (.string kind) => ofFields? kind (.object members)
    | _ => none
  | .array (.string kind :: rest) => ofFields? kind (.array rest)
  | _ => none

/-- Reads a severity: its word, or an object with the word as its only key and nothing as value. -/
def Severity.ofJson? : JsonValue → Option Severity
  | .string word => ofWord? word
  | .object [(word, .null)] => ofWord? word
  | _ => none

/-- Reads a location. -/
def Location.ofJson? (j : JsonValue) : Option Location :=
  match j.fields? ["path", "line", "column", "start", "end"] with
  | some [some path, some line, some column, some start, some stop] => do
    return ⟨⟨← path.asString?⟩, ← line.asNat?, ← column.asNat?, ← start.asNat?, ← stop.asNat?⟩
  | _ => none

/-- Reads an optional edit: a missing or null value is no edit. -/
def Correction.ofJsonOption? : Option JsonValue → Option (Option Correction)
  | none => some none
  | some .null => some none
  | some j => (ofJson? j).map some

/-- Reads an offense. -/
def Offense.ofJson? (j : JsonValue) : Option Offense :=
  match j.fields? ["check", "severity", "location", "message", "correction"] with
  | some [some check, some severity, some location, some message, correction] => do
    return ⟨← check.asString?, ← Severity.ofJson? severity, ← Location.ofJson? location,
      ← message.asString?, ← Correction.ofJsonOption? correction⟩
  | _ => none

/-- Reads a report. -/
def Report.ofJson? (j : JsonValue) : Option Report :=
  match j.fields? ["offenses", "templates_checked"] with
  | some [some (.array offenses), some templatesChecked] => do
    return ⟨← offenses.mapM Offense.ofJson?, ← templatesChecked.asNat?⟩
  | _ => none

end LiquidLint
