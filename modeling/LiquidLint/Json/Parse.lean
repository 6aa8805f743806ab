import LiquidLint.Json.Error
import LiquidLint.Json.Value
import LiquidLint.Number.Binary64

/-!
# Reading JSON

`JsonValue.parse` reads one value from a text. Values may be nested 127 deep; a number is an integer
when it is written without fraction and exponent and fits 64 bits. Of members with the same key the
last one counts.
-/

namespace LiquidLint.JsonValue

/-- A place in a text: what is left to read, and the number of bytes before it. -/
structure Cursor where
  rest : Text
  offset : Nat
deriving Repr

/-- What a reading step yields: a value and the place after it, or a fault and its offset. -/
abbrev Read (α : Type) := Except (JsonFault × Nat) (α × Cursor)

namespace Cursor

/-- The place after the next character. -/
def next (c : Cursor) : Cursor :=
  match c.rest with
  | [] => c
  | x :: xs => ⟨xs, c.offset + x.utf8Size⟩

/-- Whether a character is white space between tokens. -/
def isSpace (x : Char) : Bool := x == ' ' || x == '\n' || x == '\t' || x == '\r'

/-- The place after white space. -/
def skipSpace (c : Cursor) : Cursor :=
  let skipped := c.rest.takeWhile isSpace
  ⟨c.rest.dropWhile isSpace, c.offset + skipped.length⟩

/-- A fault found at this place. -/
def fault {α : Type} (c : Cursor) (f : JsonFault) : Read α := .error (f, c.offset)

/-- A fault found by looking at the next byte, which counts as read if there is one. -/
def faultAhead {α : Type} (c : Cursor) (f : JsonFault) : Read α :=
  .error (f, if c.rest.isEmpty then c.offset else c.offset + 1)

end Cursor

/-! ### Words -/

/-- Reads the remaining characters of a literal. -/
def literal (value : JsonValue) : Text → Cursor → Read JsonValue
  | [], c => .ok (value, c)
  | x :: xs, c =>
    match c.rest with
    | [] => c.fault .eofValue
    | y :: _ => if x = y then literal value xs c.next else .error (.expectedIdent, c.offset + 1)

/-! ### Numbers -/

/-- The value of a decimal digit. -/
def digit (x : Char) : Nat := x.toNat - '0'.toNat

/-- The digits at a place, and the place after them. -/
def digits (c : Cursor) : List Nat × Cursor :=
  let ds := c.rest.takeWhile Char.isDigit
  (ds.map digit, ⟨c.rest.dropWhile Char.isDigit, c.offset + ds.length⟩)

/-- Appends digits to a number as long as it stays within `limit`: the number, and the digits left. -/
def appendDigits (limit : Nat) (n : Nat) : List Nat → Nat × List Nat
  | [] => (n, [])
  | d :: ds => if limit < n * 10 + d then (n, d :: ds) else appendDigits limit (n * 10 + d) ds

/-- Significands are kept within 64 bits. -/
def maxSignificand : Nat := Nat.pow 2 64 - 1

/-- Exponents are kept within 31 bits. -/
def maxExponent : Nat := Nat.pow 2 31 - 1

/-- Whether `significand * 10 ^ exponent` has no finite rounding. -/
def outOfRange (significand : Nat) (exponent : Int) : Bool :=
  significand != 0 && (308 < exponent ||
    (0 ≤ exponent &&
      Binary64.overflows
        (Binary64.roundNat significand * Binary64.roundNat (Nat.pow 10 exponent.toNat))))

/-- Checks that a number that is no integer has a finite rounding. -/
def checkedReal (significand : Nat) (exponent : Int) (c : Cursor) : Read Unit :=
  if outOfRange significand exponent then c.fault .numberOutOfRange else .ok ((), c)

/-- Reads an exponent after its letter. -/
def exponentPart (significand : Nat) (exponent : Int) (c : Cursor) : Read Unit :=
  let (negative, c) := match c.rest with
    | '+' :: _ => (false, c.next)
    | '-' :: _ => (true, c.next)
    | _ => (false, c)
  match c.rest with
  | [] => c.fault .eofValue
  | x :: _ =>
    if x.isDigit then
      let (ds, after) := digits c
      match appendDigits maxExponent 0 ds with
      | (n, []) =>
        checkedReal significand (if negative then exponent - n else exponent + n) after
      | (_, left) =>
        if significand != 0 && !negative then
          .error (.numberOutOfRange, after.offset + 1 - left.length)
        else .ok ((), after)
    else .error (.invalidNumber, c.offset + 1)

/-- Reads an optional exponent and checks the number. -/
def afterDigits (significand : Nat) (exponent : Int) (c : Cursor) : Read Unit :=
  match c.rest with
  | 'e' :: _ | 'E' :: _ => exponentPart significand exponent c.next
  | _ => checkedReal significand exponent c

/-- Reads a fraction after its point. -/
def fraction (significand : Nat) (exponent : Int) (c : Cursor) : Read Unit :=
  match digits c with
  | ([], _) => c.faultAhead (if c.rest.isEmpty then .eofValue else .invalidNumber)
  | (ds, after) =>
    let (n, left) := appendDigits maxSignificand significand ds
    afterDigits n (exponent - (ds.length - left.length : Nat)) after

/-- The number spelled by the characters between two places that is no 64-bit integer. -/
def realBetween (start after : Cursor) : JsonValue :=
  .real (String.ofList (start.rest.take (start.rest.length - after.rest.length)))

/-- Reads a number whose sign, if any, stands between `start` and `c`. -/
def number (start : Cursor) (negative : Bool) (c : Cursor) : Read JsonValue :=
  match c.rest with
  | [] => c.fault .eofValue
  | x :: rest =>
    if !x.isDigit then .error (.invalidNumber, c.offset + 1)
    else if x == '0' && (rest.head?.map Char.isDigit).getD false then
      c.next.faultAhead .invalidNumber
    else
      let (ds, after) := digits c
      let (n, left) := appendDigits maxSignificand 0 ds
      let real (read : Read Unit) : Read JsonValue :=
        match read with
        | .ok (_, after) => .ok (realBetween start after, after)
        | .error e => .error e
      match after.rest with
      | '.' :: _ => real (fraction n left.length after.next)
      | 'e' :: _ | 'E' :: _ => real (exponentPart n left.length after.next)
      | _ =>
        if !left.isEmpty then real (checkedReal n left.length after)
        else if !negative then .ok (.integer n, after)
        else if n == 0 || Nat.pow 2 63 < n then .ok (realBetween start after, after)
        else .ok (.integer (-n), after)

/-! ### Strings -/

/-- The value of a hexadecimal digit. -/
def hexDigit? (x : Char) : Option Nat :=
  if x.isDigit then some (x.toNat - '0'.toNat)
  else if 'a' ≤ x && x ≤ 'f' then some (x.toNat - 'a'.toNat + 10)
  else if 'A' ≤ x && x ≤ 'F' then some (x.toNat - 'A'.toNat + 10)
  else none

/-- Reads the four digits of a hexadecimal escape. -/
def hexEscape (c : Cursor) : Read Nat :=
  if Text.size c.rest < 4 then .error (.eofString, c.offset + Text.size c.rest)
  else
    match c.rest with
    | w :: x :: y :: z :: rest =>
      match hexDigit? w, hexDigit? x, hexDigit? y, hexDigit? z with
      | some w, some x, some y, some z =>
        .ok (((w * 16 + x) * 16 + y) * 16 + z, ⟨rest, c.offset + 4⟩)
      | _, _, _, _ => .error (.invalidEscape, c.offset + 4)
    | _ => .error (.invalidEscape, c.offset + 4)

/-- Whether a code unit starts a surrogate pair. -/
def isLeading (n : Nat) : Bool := 0xD800 ≤ n && n ≤ 0xDBFF

/-- Whether a code unit ends a surrogate pair. -/
def isTrailing (n : Nat) : Bool := 0xDC00 ≤ n && n ≤ 0xDFFF

/-- Reads a given character of an escape. -/
def escapeChar (x : Char) (c : Cursor) : Read Unit :=
  match c.rest with
  | [] => c.fault .eofString
  | y :: _ => if x = y then .ok ((), c.next) else .error (.endOfHexEscape, c.offset + 1)

/-- Reads a hexadecimal escape after its letter, both halves of a surrogate pair included. -/
def unicodeEscape (c : Cursor) : Except (JsonFault × Nat) (Char × Cursor) := do
  let (n, c) ← hexEscape c
  if isTrailing n then c.fault .loneSurrogate
  else if !isLeading n then return (Char.ofNat n, c)
  else
    let (_, c) ← escapeChar '\\' c
    let (_, c) ← escapeChar 'u' c
    let (m, c) ← hexEscape c
    if isTrailing m then
      return (Char.ofNat ((n - 0xD800) * 1024 + (m - 0xDC00) + 0x10000), c)
    else c.fault .loneSurrogate

/-- Reads an escape after its backslash. -/
def escape (c : Cursor) : Read Char :=
  match c.rest with
  | [] => c.fault .eofString
  | x :: _ =>
    match x with
    | '"' => .ok ('"', c.next)
    | '\\' => .ok ('\\', c.next)
    | '/' => .ok ('/', c.next)
    | 'b' => .ok ('\x08', c.next)
    | 'f' => .ok ('\x0c', c.next)
    | 'n' => .ok ('\n', c.next)
    | 'r' => .ok ('\r', c.next)
    | 't' => .ok ('\t', c.next)
    | 'u' => unicodeEscape c.next
    | _ => .error (.invalidEscape, c.offset + 1)

/-- Reads the rest of a string in at most `fuel` steps; `read` holds its characters so far, last
first. -/
def stringRest : Nat → Text → Cursor → Read String
  | 0, _, c => c.fault .eofString
  | fuel + 1, read, c =>
    match c.rest with
    | [] => c.fault .eofString
    | '"' :: _ => .ok (String.ofList read.reverse, c.next)
    | '\\' :: _ =>
      match escape c.next with
      | .ok (x, c) => stringRest fuel (x :: read) c
      | .error e => .error e
    | x :: _ =>
      if x.toNat < 0x20 then .error (.controlCharacter, c.offset + 1)
      else stringRest fuel (x :: read) c.next

/-- Reads a string after its opening quote. -/
def quoted (c : Cursor) : Read String := stringRest (c.rest.length + 1) [] c

/-! ### Lists and objects -/

/-- Reads the elements of a list in at most `fuel` steps, each with `element`; `read` holds the
elements so far, last first. -/
def elements (element : Cursor → Read JsonValue) :
    Nat → List JsonValue → Cursor → Read JsonValue
  | 0, _, c => c.fault .eofList
  | fuel + 1, read, c =>
    let c := c.skipSpace
    match c.rest with
    | [] => c.fault .eofList
    | ']' :: _ => .ok (.array read.reverse, c.next)
    | x :: _ =>
      if read.isEmpty then
        match element c with
        | .ok (v, c) => elements element fuel (v :: read) c
        | .error e => .error e
      else if x = ',' then
        let c := c.next.skipSpace
        match c.rest with
        | [] => c.fault .eofValue
        | ']' :: _ => c.faultAhead .trailingComma
        | _ =>
          match element c with
          | .ok (v, c) => elements element fuel (v :: read) c
          | .error e => .error e
      else c.faultAhead .expectedListEnd

/-- Reads a member, whose key starts at the quote ahead. -/
def member (element : Cursor → Read JsonValue) (c : Cursor) :
    Except (JsonFault × Nat) ((String × JsonValue) × Cursor) := do
  let (key, c) ← quoted c.next
  let c := c.skipSpace
  match c.rest with
  | [] => c.fault .eofObject
  | ':' :: _ =>
    let (value, c) ← element c.next
    return ((key, value), c)
  | _ => c.faultAhead .expectedColon

/-- Reads the members of an object in at most `fuel` steps; `first` tells that none was read yet. -/
def members (element : Cursor → Read JsonValue) :
    Nat → Bool → List (String × JsonValue) → Cursor → Read JsonValue
  | 0, _, _, c => c.fault .eofObject
  | fuel + 1, first, read, c =>
    let c := c.skipSpace
    let enter (c : Cursor) : Read JsonValue :=
      match member element c with
      | .ok ((key, value), c) => members element fuel false (insert key value read) c
      | .error e => .error e
    match c.rest with
    | [] => c.fault .eofObject
    | '}' :: _ => .ok (.object read, c.next)
    | x :: _ =>
      if first then
        if x = '"' then enter c else c.faultAhead .keyNotString
      else if x = ',' then
        let c := c.next.skipSpace
        match c.rest with
        | [] => c.fault .eofValue
        | '"' :: _ => enter c
        | '}' :: _ => c.faultAhead .trailingComma
        | _ => c.faultAhead .keyNotString
      else c.faultAhead .expectedObjectEnd

/-! ### Values -/

/-- Reads a value in which `depth - 1` more lists and objects may be nested. -/
def value (depth : Nat) (c : Cursor) : Read JsonValue :=
  let c := c.skipSpace
  match c.rest with
  | [] => c.fault .eofValue
  | 'n' :: _ => literal .null "ull".toList c.next
  | 't' :: _ => literal (.bool true) "rue".toList c.next
  | 'f' :: _ => literal (.bool false) "alse".toList c.next
  | '-' :: _ => number c true c.next
  | '"' :: _ => (quoted c.next).map fun (s, c) => (.string s, c)
  | '[' :: _ =>
    match depth with
    | depth + 2 => elements (value (depth + 1)) (c.rest.length + 1) [] c.next
    | _ => c.faultAhead .tooDeep
  | '{' :: _ =>
    match depth with
    | depth + 2 => members (value (depth + 1)) (c.rest.length + 1) true [] c.next
    | _ => c.faultAhead .tooDeep
  | x :: _ => if x.isDigit then number c false c else c.faultAhead .expectedValue

/-- Lists and objects may be nested one less deep than this. -/
def depthLimit : Nat := 128

/-- Reads a text that holds one value and nothing else. -/
def parse (source : Text) : Except JsonError JsonValue :=
  let result : Except (JsonFault × Nat) (JsonValue × Cursor) := do
    let (v, c) ← value depthLimit ⟨source, 0⟩
    let c := c.skipSpace
    if c.rest.isEmpty then .ok (v, c) else c.faultAhead .trailingCharacters
  match result with
  | .ok (v, _) => .ok v
  | .error (fault, offset) => .error (.atOffset source fault offset)

end LiquidLint.JsonValue
