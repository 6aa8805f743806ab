import LiquidLint.Text.Basic

/-!
# Errors in JSON texts

An error has a cause and a byte offset; readers see the line and the number of bytes of it that had
been read.
-/

namespace LiquidLint

/-- Why a text is not JSON. -/
inductive JsonFault where
  | eofValue
  | eofList
  | eofObject
  | eofString
  | expectedValue
  | expectedIdent
  | expectedColon
  | expectedListEnd
  | expectedObjectEnd
  | keyNotString
  | trailingComma
  | trailingCharacters
  | invalidNumber
  | numberOutOfRange
  | invalidEscape
  | controlCharacter
  | loneSurrogate
  | endOfHexEscape
  | tooDeep
deriving DecidableEq, Repr

/-- The wording of a fault. -/
def JsonFault.message : JsonFault → String
  | .eofValue => "EOF while parsing a value"
  | .eofList => "EOF while parsing a list"
  | .eofObject => "EOF while parsing an object"
  | .eofString => "EOF while parsing a string"
  | .expectedValue => "expected value"
  | .expectedIdent => "expected ident"
  | .expectedColon => "expected `:`"
  | .expectedListEnd => "expected `,` or `]`"
  | .expectedObjectEnd => "expected `,` or `\x7d`"
  | .keyNotString => "key must be a string"
  | .trailingComma => "trailing comma"
  | .trailingCharacters => "trailing characters"
  | .invalidNumber => "invalid number"
  | .numberOutOfRange => "number out of range"
  | .invalidEscape => "invalid escape"
  | .controlCharacter => "control character (\\u0000-\\u001F) found while parsing a string"
  | .loneSurrogate => "lone leading surrogate in hex escape"
  | .endOfHexEscape => "unexpected end of hex escape"
  | .tooDeep => "recursion limit exceeded"

/-- An error in a JSON text. -/
structure JsonError where
  fault : JsonFault
  /-- The line, counted from 1. -/
  line : Nat
  /-- The number of bytes of the line that had been read. -/
  column : Nat
deriving DecidableEq, Repr

namespace JsonError

/-- The error as one line. -/
def message (e : JsonError) : String :=
  s!"{e.fault.message} at line {e.line} column {e.column}"

/-- The line and the bytes read of it after `offset` more bytes, counting on from `line` and `column`. -/
def place (line column : Nat) : Text → Nat → Nat × Nat
  | [], offset => (line, column + offset)
  | c :: cs, offset =>
    if c.utf8Size ≤ offset then
      if c = '\n' then place (line + 1) 0 cs (offset - 1)
      else place line (column + c.utf8Size) cs (offset - c.utf8Size)
    else (line, column + offset)

/-- The error with the given fault after `offset` bytes of `source`. -/
def atOffset (source : Text) (fault : JsonFault) (offset : Nat) : JsonError :=
  let (line, column) := place 1 0 source offset
  ⟨fault, line, column⟩

end JsonError

end LiquidLint
