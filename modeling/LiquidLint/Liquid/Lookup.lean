import LiquidLint.Text.Blank

/-!
# What markup refers to

Markup is scanned outside quoted strings for the filters it applies and the variables it looks up. A
string runs from a quote to the next quote of the same kind; a quote that is never closed swallows
the rest. Offsets count bytes from the start of the markup.
-/

namespace LiquidLint.Liquid

/-- A piece of markup outside strings. -/
structure Unquoted where
  /-- The offset of its first character. -/
  offset : Nat
  chars : Text
deriving DecidableEq, Repr

/-- The bytes of a piece. -/
def Unquoted.span (u : Unquoted) : Span := ⟨u.offset, u.offset + u.chars.size⟩

/-- Whether a character starts a string. -/
def isQuote (c : Char) : Bool := c == '\'' || c == '"'

/-- A finished piece that ends at `offset` and whose characters were collected last first. -/
def unquotedPiece (offset : Nat) (run : Text) : List Unquoted :=
  if run.isEmpty then [] else [⟨offset - run.size, run.reverse⟩]

/-- The pieces outside strings from `offset` on, after the characters `run`, last first, or inside a
string that ends with `quote`. -/
def unquotedFrom (offset : Nat) (run : Text) : Option Char → Text → List Unquoted
  | none, [] => unquotedPiece offset run
  | some _, [] => []
  | some q, c :: cs =>
    unquotedFrom (offset + c.utf8Size) [] (if c = q then none else some q) cs
  | none, c :: cs =>
    if isQuote c then
      unquotedPiece offset run ++ unquotedFrom (offset + c.utf8Size) [] (some c) cs
    else unquotedFrom (offset + c.utf8Size) (c :: run) none cs

/-- The pieces of markup outside strings, in order. -/
def unquoted (markup : Text) : List Unquoted := unquotedFrom 0 [] none markup

/-! ### Filters -/

/-- A word found in markup. -/
structure Found where
  offset : Nat
  name : String
deriving DecidableEq, Repr

/-- Whether a character can be part of a filter name. -/
def isFilterChar (c : Char) : Bool := c.isAlphanum || c == '_'

/-- The filter names that follow a bar in a piece of markup which starts at `offset`. -/
def filtersFrom (offset : Nat) : Text → List Found
  | [] => []
  | c :: cs =>
    let later := filtersFrom (offset + c.utf8Size) cs
    if c = '|' then
      let gap := cs.takeWhile isBlank
      let name := (cs.dropWhile isBlank).takeWhile isFilterChar
      if name.isEmpty then later
      else ⟨offset + 1 + Text.size gap, String.ofList name⟩ :: later
    else later

/-- The filters applied in markup, in order. -/
def filters (markup : Text) : List Found :=
  (unquoted markup).flatMap fun u => filtersFrom u.offset u.chars

/-! ### Arguments -/

/-- The first argument of a tag when it is a string. -/
def stringArgument? (arguments : Text) : Option String :=
  match arguments.trimStart with
  | [] => none
  | q :: rest =>
    if isQuote q then (Text.cut? [q] rest).map fun (name, _) => String.ofList name else none

/-! ### Variables -/

/-- Words that are no variables. -/
def keywords : List String :=
  ["and", "or", "contains", "in", "with", "as", "for", "by", "true", "false", "nil", "null", "empty",
    "blank", "reversed", "limit", "offset", "cols"]

/-- Whether a character can start a variable name. -/
def isNameStart (c : Char) : Bool := c.isAlpha || c == '_'

/-- Whether a character can go on a variable name. -/
def isNameChar (c : Char) : Bool := c.isAlphanum || c == '_' || c == '-'

/-- A word that is being read: its offset, whether a dot stands before it, and its characters, last
first. -/
structure Word where
  offset : Nat
  afterDot : Bool
  chars : Text
deriving Repr

/-- The variable that a word stands for before `rest`: a property, an argument key, a keyword and a
filter name are no variables. -/
def Word.lookup (w : Word) (filterOffsets : List Nat) (rest : Text) : List String :=
  let name := String.ofList w.chars.reverse
  let isKey := rest.trimStart.head? == some ':'
  if w.afterDot || isKey || keywords.contains name || filterOffsets.contains w.offset then []
  else [name]

/-- The variables looked up in a piece of markup from `offset` on, after the character `before` or in
the middle of a word. -/
def lookupsFrom (filterOffsets : List Nat) (offset : Nat) (before : Option Char) :
    Option Word → Text → List String
  | none, [] => []
  | some w, [] => w.lookup filterOffsets []
  | some w, c :: cs =>
    if isNameChar c then
      lookupsFrom filterOffsets (offset + c.utf8Size) (some c) (some { w with chars := c :: w.chars }) cs
    else
      w.lookup filterOffsets (c :: cs) ++
        lookupsFrom filterOffsets (offset + c.utf8Size) (some c) none cs
  | none, c :: cs =>
    let word := if isNameStart c then some ⟨offset, before == some '.', [c]⟩ else none
    lookupsFrom filterOffsets (offset + c.utf8Size) (some c) word cs

/-- The variables looked up in markup, in order. -/
def lookups (markup : Text) : List String :=
  let filterOffsets := (filters markup).map (·.offset)
  (unquoted markup).flatMap fun u => lookupsFrom filterOffsets u.offset none none u.chars

end LiquidLint.Liquid
