import LiquidLint.Liquid.Node

/-!
# Disable comments

A comment whose body is a directive turns checks off, or on again, from where it stands. A directive
without names speaks of all checks. `DisabledRanges` is what all directives of a template say
together: a check is off between the comment that disables it and the comment that enables it again,
both ends included, or to the end of the template.
-/

namespace LiquidLint

/-- What a comment says about checks. -/
inductive Directive where
  /-- Turns the named checks off, or all when none is named. -/
  | disable (names : List String)
  /-- Turns the named checks on, or all when none is named. -/
  | enable (names : List String)
deriving DecidableEq, Repr

namespace Directive

/-- The word that starts a disabling directive. -/
def disableWord : Text := "theme-check-disable".toList

/-- The word that starts an enabling directive. -/
def enableWord : Text := "theme-check-enable".toList

/-- Whether a character divides check names. -/
def isSeparator (c : Char) : Bool := c == ',' || isBlank c

/-- The check names that follow a directive's word; `none` when the word goes on. -/
def names? (rest : Text) : Option (List String) :=
  match rest with
  | [] => some []
  | c :: _ =>
    if isSeparator c then some ((Text.fields isSeparator rest).map String.ofList) else none

/-- Reads the body of a comment as a directive. -/
def parse (body : Text) : Option Directive :=
  let body := body.trim
  match Text.dropStart? disableWord body with
  | some rest => (names? rest).map disable
  | none =>
    match Text.dropStart? enableWord body with
    | some rest => (names? rest).map enable
    | none => none

end Directive

/-! ### Ranges -/

/-- What a range turns off: all checks, or one. -/
abbrev DisableKey := Option String

/-- The keys a list of names stands for. -/
def Directive.keys : List String → List DisableKey
  | [] => [none]
  | names => names.map some

/-- The parts of a template where checks are off. -/
structure DisabledRanges where
  ranges : List (DisableKey × Span)
deriving DecidableEq, Repr

namespace DisabledRanges

/-- Ranges under construction: those that are closed, and the starts of those still open. -/
structure Open where
  closed : List (DisableKey × Span)
  starts : List (DisableKey × Nat)
deriving Repr

namespace Open

/-- Opens a range for `key` at `offset` unless one is open. -/
def disable (o : Open) (offset : Nat) (key : DisableKey) : Open :=
  if (o.starts.lookup key).isSome then o
  else { o with starts := o.starts ++ [(key, offset)] }

/-- Closes the range of `key` at `offset`, if one is open. -/
def enable (o : Open) (offset : Nat) (key : DisableKey) : Open :=
  match o.starts.lookup key with
  | some start =>
    { closed := o.closed ++ [(key, ⟨start, offset⟩)]
      starts := o.starts.filter (·.1 != key) }
  | none => o

/-- Closes all open ranges at `offset`. -/
def enableAll (o : Open) (offset : Nat) : Open :=
  { closed := o.closed ++ o.starts.map fun (key, start) => (key, ⟨start, offset⟩)
    starts := [] }

/-- Follows a directive found at `offset`. -/
def follow (o : Open) (offset : Nat) : Directive → Open
  | .disable names => (Directive.keys names).foldl (disable · offset) o
  | .enable [] => o.enableAll offset
  | .enable names => (names.map some).foldl (enable · offset) o

end Open

/-- The body of a block, as the characters of its children. -/
def bodyText (n : Liquid.Node) (source : Text) : Text :=
  n.children.flatMap (·.source source)

/-- The directives of a template with the offsets of their comments, in document order. -/
def directives (root : Liquid.Node) (source : Text) : List (Nat × Directive) :=
  (root.descendants.filter (·.typeName == "comment")).filterMap fun n =>
    (Directive.parse (bodyText n source)).map fun d => (n.span.start, d)

/-- The ranges declared by the comments of a parsed template. -/
def ofTemplate (root : Liquid.Node) (source : Text) : DisabledRanges :=
  let all : Open :=
    (directives root source).foldl (fun (o : Open) (offset, d) => o.follow offset d) ⟨[], []⟩
  ⟨(all.enableAll source.size).closed⟩

/-- Whether a check is off at a byte offset. -/
def isDisabled (r : DisabledRanges) (check : String) (offset : Nat) : Bool :=
  r.ranges.any fun (key, span) =>
    (key == none || key == some check) && span.start ≤ offset && offset ≤ span.stop

/-- Whether nothing is ever off. -/
def isEmpty (r : DisabledRanges) : Bool := r.ranges.isEmpty

end DisabledRanges

end LiquidLint
