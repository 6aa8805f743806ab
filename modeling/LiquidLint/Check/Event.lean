import LiquidLint.Report.Offense
import LiquidLint.Theme.Cache

/-!
# Hooks

A theme is shown to checks as a sequence of events, each of which names a hook and what it is called
for. Every node gets `onNode`, `onTag` if it is a tag and `onType`, then its children, and then,
unless it is text, `afterType`, `afterTag` if it is a tag and `afterNode`. A template that does not
parse gets one `onError` instead.
-/

namespace LiquidLint

open Liquid (Node)

/-- The hooks of a node. -/
inductive NodeHook where
  | onNode
  | onTag
  | onType
  | afterType
  | afterTag
  | afterNode
deriving DecidableEq, Repr

/-- The word for a hook. -/
def NodeHook.word : NodeHook → String
  | .onNode => "on_node"
  | .onTag => "on_tag"
  | .onType => "on_type"
  | .afterType => "after_type"
  | .afterTag => "after_tag"
  | .afterNode => "after_node"

/-- A call of a hook. -/
inductive Event where
  /-- Before all files. -/
  | onTheme (theme : Theme)
  /-- At a node of a template. -/
  | node (hook : NodeHook) (node : Node) (template : Template)
  /-- Instead of all nodes of a template that does not parse. -/
  | onError (error : Liquid.ParseError) (template : Template)
  /-- After each template. -/
  | afterTemplate (template : Template)
  /-- For each JSON file. -/
  | onJson (file : JsonFile)
  /-- After all files. -/
  | onEnd (theme : Theme)

namespace Event

/-- The word for the hook of an event. -/
def hookWord : Event → String
  | .onTheme _ => "on_theme"
  | .node hook _ _ => hook.word
  | .onError _ _ => "on_error"
  | .afterTemplate _ => "after_template"
  | .onJson _ => "on_json"
  | .onEnd _ => "on_end"

/-- What an event is about, in a word. -/
def subject : Event → String
  | .onTheme _ => ""
  | .node _ n _ => n.typeName
  | .onError e t => e.display (some t.name)
  | .afterTemplate t => t.name
  | .onJson f => f.name
  | .onEnd _ => ""

/-- The file an event belongs to. -/
def file? : Event → Option SourceFile
  | .onTheme _ => none
  | .node _ _ t => some t.toSourceFile
  | .onError _ t => some t.toSourceFile
  | .afterTemplate t => some t.toSourceFile
  | .onJson f => some f.toSourceFile
  | .onEnd _ => none

/-- The bytes an event is about: those of its node, else none. -/
def span : Event → Span
  | .node _ n _ => n.span
  | _ => .zero

end Event

/-! ### The order of events -/

/-- The events before the children of a node. -/
def Liquid.Node.opening (n : Node) : List NodeHook :=
  if n.isTag then [.onNode, .onTag, .onType] else [.onNode, .onType]

/-- The events after the children of a node. -/
def Liquid.Node.closing (n : Node) : List NodeHook :=
  if n.isLiteral then []
  else if n.isTag then [.afterType, .afterTag, .afterNode]
  else [.afterType, .afterNode]

mutual

/-- The hooks of a node and everything inside it, in the order they are called. -/
def Liquid.Node.hooks : Node → List (NodeHook × Node)
  | ⟨kind, span, markup, children⟩ =>
    let n : Node := ⟨kind, span, markup, children⟩
    n.opening.map (·, n) ++ Liquid.Node.hooksOf children ++ n.closing.map (·, n)

/-- The hooks of some nodes and everything inside them. -/
def Liquid.Node.hooksOf : List Node → List (NodeHook × Node)
  | [] => []
  | n :: ns => Liquid.Node.hooks n ++ Liquid.Node.hooksOf ns

end

/-- The events of visiting a template, whose parsing gave `parsed`. -/
def Template.visitOf (t : Template) (parsed : ParseResult) : List Event :=
  match parsed with
  | .ok root => root.hooks.map fun (hook, n) => .node hook n t
  | .error e => [.onError e t]

/-- The events of visiting a template. -/
def Template.visit (t : Template) : List Event := t.visitOf t.root

/-- The events of a template, whose parsing gave `parsed`. -/
def Template.eventsOf (t : Template) (parsed : ParseResult) : List Event :=
  t.visitOf parsed ++ [.afterTemplate t]

/-- The events of a template. -/
def Template.events (t : Template) : List Event := t.eventsOf t.root

/-- The events of a theme with given templates, each with what parsing it gave. -/
def Theme.eventsOf (t : Theme) (parsed : List (Template × ParseResult)) : List Event :=
  .onTheme t ::
    (parsed.flatMap (fun (s, tree) => s.eventsOf tree) ++ t.jsonFiles.map .onJson ++ [.onEnd t])

/-- The events of a theme. -/
def Theme.events (t : Theme) : List Event := t.eventsOf t.parsed

/-! ### Findings -/

/-- What a check reports at an event. -/
structure Finding where
  location : Location
  message : String
  correction : Option Correction
deriving DecidableEq, Repr

/-- The location of some bytes of a file. -/
def SourceFile.locate (f : SourceFile) (span : Span) : Location :=
  let p := f.source.position span.start
  ⟨f.relativePath, p.line, p.column, span.start, span.stop⟩

/-- A finding about some bytes of a file. -/
def SourceFile.finding (f : SourceFile) (span : Span) (message : String)
    (correction : Option Correction) : Finding :=
  ⟨f.locate span, message, correction⟩

namespace Event

/-- A finding about some bytes of the event's file, or about the theme when there is no file. -/
def findingAt (e : Event) (span : Span) (message : String) (correction : Option Correction) :
    Finding :=
  match e.file? with
  | some f => f.finding span message correction
  | none => ⟨.theme, message, correction⟩

/-- A finding about what the event is about. -/
def finding (e : Event) (message : String) (correction : Option Correction) : Finding :=
  e.findingAt e.span message correction

/-- A finding about a line of the event's file. -/
def findingAtLine (e : Event) (line : Nat) (message : String) (correction : Option Correction) :
    Finding :=
  let span := match e.file? with
    | some f => f.source.lineSpan line
    | none => .zero
  e.findingAt span message correction

end Event

end LiquidLint
