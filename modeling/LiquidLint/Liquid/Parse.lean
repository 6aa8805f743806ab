import LiquidLint.Liquid.Node
import LiquidLint.Liquid.Token
import LiquidLint.Text.Line

/-!
# Parsing templates

The tokens of a template are folded into a tree. A `Builder` holds what has been read: the offset and
line reached, the finished nodes of the innermost open body, and a frame for each open block. An
error names its cause and the line of the token at fault.
-/

namespace LiquidLint.Liquid

/-! ### Errors -/

/-- What is wrong with a template. -/
inductive Cause where
  /-- A variable has no closing delimiter. -/
  | openVariable
  /-- A tag has no closing delimiter. -/
  | openTag
  /-- A tag has no name. -/
  | emptyTag
  /-- A tag is not defined, or closes a block where none is open. -/
  | unknownTag (name : String)
  /-- The end tag `name` stands where the block `block` has to be closed. -/
  | wrongClose (name block : String)
  /-- A branch tag does not stand directly in a block it divides. -/
  | misplacedBranch (name : String)
  /-- A block or raw tag has no end tag. -/
  | neverClosed (name : String)
deriving DecidableEq, Repr

/-- The wording of a cause. -/
def Cause.message : Cause → String
  | .openVariable => "Variable '\x7b\x7b' was not properly terminated with regexp: /\\\x7d\\\x7d/"
  | .openTag => "Tag '\x7b%' was not properly terminated with regexp: /\\%\\\x7d/"
  | .emptyTag => "Empty tag"
  | .unknownTag name => s!"Unknown tag '{name}'"
  | .wrongClose name block =>
    s!"'{name}' is not a valid delimiter for {block} tags. use end{block}"
  | .misplacedBranch name => s!"Unexpected tag '{name}' outside of a matching block"
  | .neverClosed name => s!"'{name}' tag was never closed"

/-- The cause that a scanning fault stands for. -/
def Fault.cause : Fault → Cause
  | .openVariable => .openVariable
  | .openTag => .openTag
  | .openRaw name => .neverClosed name

/-- A structural error in a template. -/
structure ParseError where
  cause : Cause
  /-- The line of the token at fault, counted from 1. -/
  line : Nat
deriving DecidableEq, Repr

namespace ParseError

/-- What is wrong. -/
def message (e : ParseError) : String := e.cause.message

/-- The error as one line, naming the template when there is a name for it. -/
def display (e : ParseError) (template : Option String) : String :=
  let place := match template with
    | some name => s!" in '{name}'"
    | none => ""
  s!"Liquid syntax error (line {e.line}): {e.message}{place}"

end ParseError

/-! ### Building the tree -/

/-- An open block, and the nodes that precede it in the body around it, newest first. -/
structure Frame where
  name : String
  /-- The offset of the opening tag. -/
  start : Nat
  markupSpan : Span
  /-- The line of the opening tag. -/
  line : Nat
  before : List Node
deriving Repr

/-- A tree under construction. -/
structure Builder where
  /-- The offset reached. -/
  offset : Nat
  /-- The line reached. -/
  line : Nat
  /-- The finished nodes of the innermost open body, newest first. -/
  siblings : List Node
  /-- The open blocks, innermost first. -/
  frames : List Frame
deriving Repr

namespace Builder

/-- Nothing read yet. -/
def empty : Builder := ⟨0, 1, [], []⟩

/-- Moves past the characters of a token. -/
def advance (b : Builder) (lexeme : Text) : Builder :=
  { b with offset := b.offset + lexeme.size, line := b.line + lexeme.newlines }

/-- Appends a finished node to the innermost open body. -/
def push (b : Builder) (n : Node) : Builder := { b with siblings := n :: b.siblings }

/-- The error with the given cause at the line reached. -/
def fail (b : Builder) (cause : Cause) : ParseError := ⟨cause, b.line⟩

/-- Reads the end tag `name` that closes `target` and ends at offset `stop`. -/
def close (b : Builder) (name target : String) (stop : Nat) : Except ParseError Builder :=
  match b.frames with
  | [] => .error (b.fail (.unknownTag name))
  | f :: frames =>
    if f.name = target then
      .ok { b with
        frames := frames
        siblings := ⟨.tag f.name true, ⟨f.start, stop⟩, f.markupSpan, b.siblings.reverse⟩ :: f.before }
    else .error (b.fail (.wrongClose name f.name))

/-- Reads a tag with the given name and markup. -/
def tag (b : Builder) (name : String) (markup : Text) : Except ParseError Builder :=
  let stop := b.offset + (Token.tagLexeme markup).size
  let markupSpan : Span := ⟨b.offset + 2, b.offset + 2 + markup.size⟩
  let leaf := b.push ⟨.tag name false, ⟨b.offset, stop⟩, markupSpan, []⟩
  if name.isEmpty then .error (b.fail .emptyTag)
  else
    match TagRole.of name with
    | .block =>
      .ok { b with
        siblings := []
        frames := ⟨name, b.offset, markupSpan, b.line, b.siblings⟩ :: b.frames }
    | .closing target => b.close name target stop
    | .branch parents =>
      match b.frames with
      | f :: _ =>
        if parents.contains f.name then .ok leaf else .error (b.fail (.misplacedBranch name))
      | [] => .error (b.fail (.misplacedBranch name))
    | .inline => .ok leaf
    | .raw | .unknown => .error (b.fail (.unknownTag name))

/-- The node of a raw block that starts at `offset`. -/
def rawNode (offset : Nat) (name : String) (markup body close : Text) : Node :=
  let bodyStart := offset + (Token.tagLexeme markup).size
  let bodySpan : Span := ⟨bodyStart, bodyStart + body.size⟩
  { kind := .tag name true
    span := ⟨offset, bodySpan.stop + close.size⟩
    markupSpan := ⟨offset + 2, offset + 2 + markup.size⟩
    children := if body.isEmpty then [] else [⟨.text, bodySpan, bodySpan, []⟩] }

/-- Reads one token. -/
def step (b : Builder) (token : Token) : Except ParseError Builder := do
  let stop := b.offset + token.lexeme.size
  let read ← match token with
    | .text _ => pure (b.push ⟨.text, ⟨b.offset, stop⟩, ⟨b.offset, stop⟩, []⟩)
    | .variable markup =>
      pure (b.push ⟨.variable, ⟨b.offset, stop⟩, ⟨b.offset + 2, b.offset + 2 + markup.size⟩, []⟩)
    | .tag markup => b.tag (String.ofList (tagName (trimMarkup markup))) markup
    | .rawBlock name markup body close => pure (b.push (rawNode b.offset name markup body close))
  return read.advance token.lexeme

/-- Reads tokens from left to right and stops at the first error. -/
def run (b : Builder) : List Token → Except ParseError Builder
  | [] => .ok b
  | token :: tokens =>
    match b.step token with
    | .ok b => b.run tokens
    | .error e => .error e

/-- Ends the template: a scanning fault is reported where it stands, then the innermost open block. -/
def finish (b : Builder) (fault : Option Fault) : Except ParseError Node :=
  match fault with
  | some fault => .error (b.fail fault.cause)
  | none =>
    match b.frames with
    | f :: _ => .error ⟨.neverClosed f.name, f.line⟩
    | [] => .ok ⟨.document, ⟨0, b.offset⟩, ⟨0, b.offset⟩, b.siblings.reverse⟩

end Builder

/-- Parses a template into its document node, or reports the first token that does not fit. -/
def parse (source : Text) : Except ParseError Node := do
  let (tokens, fault) := Token.scan source
  let b ← Builder.empty.run tokens
  b.finish fault

end LiquidLint.Liquid
