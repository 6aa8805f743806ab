/-!
# Kinds of tags

Each tag name has one role in the grammar. Block tags own a parsed body, raw tags own a verbatim
body, branch tags divide the body of certain blocks, inline tags stand alone, and a name that starts
with `end` closes a block.
-/

namespace LiquidLint.Liquid

/-- Tags that own a parsed body closed by `end` and their name. -/
def blockTags : List String :=
  ["if", "unless", "case", "for", "tablerow", "capture", "form", "paginate"]

/-- Tags whose body is kept verbatim. -/
def rawTags : List String :=
  ["comment", "raw", "schema", "style", "stylesheet", "javascript"]

/-- Tags without a body. -/
def inlineTags : List String :=
  ["#", "assign", "break", "continue", "cycle", "decrement", "echo", "include", "increment",
    "layout", "liquid", "render", "section", "sections"]

/-- The blocks a branch tag may divide; `none` for a tag that is no branch. -/
def branchParents? (name : String) : Option (List String) :=
  match name with
  | "else" => some ["if", "unless", "case", "for"]
  | "elsif" => some ["if", "unless"]
  | "when" => some ["case"]
  | _ => none

/-- What a tag does to the block structure. -/
inductive TagRole where
  /-- Opens a verbatim body. -/
  | raw
  /-- Opens a parsed body. -/
  | block
  /-- Closes the block `target`. -/
  | closing (target : String)
  /-- Divides the body of one of `parents`. -/
  | branch (parents : List String)
  /-- Stands alone. -/
  | inline
  /-- Is not defined. -/
  | unknown
deriving DecidableEq, Repr

/-- The role of a tag name. -/
def TagRole.of (name : String) : TagRole :=
  if rawTags.contains name then .raw
  else if blockTags.contains name then .block
  else
    match name.toList with
    | 'e' :: 'n' :: 'd' :: target => .closing (String.ofList target)
    | _ =>
      match branchParents? name with
      | some parents => .branch parents
      | none => if inlineTags.contains name then .inline else .unknown

end LiquidLint.Liquid
