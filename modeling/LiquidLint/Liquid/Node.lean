import LiquidLint.Liquid.Markup

/-!
# Syntax trees

A `Node` is a construct of a template with the span of its characters and, for variables and tags,
the span of its markup. Nodes carry no text of their own: what a node says is read from the source
it was parsed from.
-/

namespace LiquidLint.Liquid

/-- The construct a node stands for. -/
inductive NodeKind where
  /-- A whole template. -/
  | document
  /-- Characters outside delimiters. -/
  | text
  /-- An output. -/
  | variable
  /-- A tag, with a body when `block`. -/
  | tag (name : String) (block : Bool)
deriving DecidableEq, Repr

/-- A construct of a template. -/
structure Node where
  kind : NodeKind
  /-- All characters of the construct, a block's body and end tag included. -/
  span : Span
  /-- The characters between the delimiters of a variable or opening tag; the whole span for text and
  documents. -/
  markupSpan : Span
  /-- The constructs inside the body, in order. -/
  children : List Node
deriving Repr

namespace Node

/-- The name of a construct: its tag name, or `document`, `text` or `variable`. -/
def typeName (n : Node) : String :=
  match n.kind with
  | .document => "document"
  | .text => "text"
  | .variable => "variable"
  | .tag name _ => name

/-- The tag name of a tag. -/
def tagName? (n : Node) : Option String :=
  match n.kind with
  | .tag name _ => some name
  | _ => none

/-- Whether the node is a tag. -/
def isTag (n : Node) : Bool := n.tagName?.isSome

/-- Whether the node is a tag with a body. -/
def isBlock (n : Node) : Bool :=
  match n.kind with
  | .tag _ block => block
  | _ => false

/-- Whether the node is text. -/
def isLiteral (n : Node) : Bool := n.kind == .text

/-- The characters of a node in its source. -/
def source (n : Node) (source : Text) : Text := source.slice n.span

/-- The characters between the delimiters of a node, trimmed, and for tags without the name. -/
def markup (n : Node) (source : Text) : Text :=
  let raw := source.slice n.markupSpan
  match n.kind with
  | .variable => trimMarkup raw
  | .tag name _ => tagArguments name.toList (trimMarkup raw)
  | .document | .text => raw

mutual

/-- A node and everything inside it, each node before its children and in document order. -/
def descendants : Node → List Node
  | ⟨kind, span, markup, children⟩ => ⟨kind, span, markup, children⟩ :: descendantsOf children

/-- The nodes of a list and everything inside them, in document order. -/
def descendantsOf : List Node → List Node
  | [] => []
  | n :: ns => descendants n ++ descendantsOf ns

end

end Node

end LiquidLint.Liquid
