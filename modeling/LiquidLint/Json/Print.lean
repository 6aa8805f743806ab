import LiquidLint.Json.Value

/-!
# Writing JSON

`JsonValue.pretty` writes a value over several lines, two spaces for each level; empty lists and
objects stay on one line. In strings, quotes, backslashes and control characters are escaped and
nothing else.
-/

namespace LiquidLint.JsonValue

/-- The last two hexadecimal digits of a control character. -/
def hexPair (n : Nat) : List Char := [Nat.digitChar (n / 16), Nat.digitChar (n % 16)]

/-- How a character is written inside a string. -/
def escaped (c : Char) : List Char :=
  match c with
  | '"' => ['\\', '"']
  | '\\' => ['\\', '\\']
  | '\n' => ['\\', 'n']
  | '\r' => ['\\', 'r']
  | '\t' => ['\\', 't']
  | '\x08' => ['\\', 'b']
  | '\x0c' => ['\\', 'f']
  | c => if c.toNat < 0x20 then ['\\', 'u', '0', '0'] ++ hexPair c.toNat else [c]

/-- A string in quotes. -/
def quote (s : String) : String :=
  String.ofList ('"' :: (s.toList.flatMap escaped ++ ['"']))

/-- The start of a line at the given level. -/
def indent (level : Nat) : String := "\n" ++ String.ofList (List.replicate (2 * level) ' ')

mutual

/-- A value whose first line stands at the given level. -/
def prettyAt (level : Nat) : JsonValue → String
  | .null => "null"
  | .bool b => if b then "true" else "false"
  | .integer n => toString n
  | .real written => written
  | .string s => quote s
  | .array [] => "[]"
  | .array (v :: vs) =>
    "[" ++ indent (level + 1) ++ prettyAt (level + 1) v ++ prettyElements (level + 1) vs ++
      indent level ++ "]"
  | .object [] => "\x7b\x7d"
  | .object ((k, v) :: ms) =>
    "\x7b" ++ indent (level + 1) ++ quote k ++ ": " ++ prettyAt (level + 1) v ++
      prettyMembers (level + 1) ms ++ indent level ++ "\x7d"

/-- The elements of a list after the first. -/
def prettyElements (level : Nat) : List JsonValue → String
  | [] => ""
  | v :: vs => "," ++ indent level ++ prettyAt level v ++ prettyElements level vs

/-- The members of an object after the first. -/
def prettyMembers (level : Nat) : List (String × JsonValue) → String
  | [] => ""
  | (k, v) :: ms =>
    "," ++ indent level ++ quote k ++ ": " ++ prettyAt level v ++ prettyMembers level ms

end

/-- A value over several lines. -/
def pretty (v : JsonValue) : String := prettyAt 0 v

end LiquidLint.JsonValue
