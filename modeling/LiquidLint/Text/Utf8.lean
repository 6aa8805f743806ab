import LiquidLint.Text.Basic

/-!
# Bytes as text

Bytes are read as UTF-8. Where they do not form a character, the longest part that could have
started one is passed over; `decode?` then gives up and `decodeLossy` puts a replacement character.
-/

namespace LiquidLint.Utf8

/-- The bounds of the byte after the first one and the number of bytes that follow it, for a first
byte of a longer sequence. -/
def sequence? (b : Nat) : Option (Nat × Nat × Nat) :=
  if 0xC2 ≤ b ∧ b ≤ 0xDF then some (0x80, 0xBF, 1)
  else if b = 0xE0 then some (0xA0, 0xBF, 2)
  else if b = 0xED then some (0x80, 0x9F, 2)
  else if 0xE1 ≤ b ∧ b ≤ 0xEF then some (0x80, 0xBF, 2)
  else if b = 0xF0 then some (0x90, 0xBF, 3)
  else if 0xF1 ≤ b ∧ b ≤ 0xF3 then some (0x80, 0xBF, 3)
  else if b = 0xF4 then some (0x80, 0x8F, 3)
  else none

/-- Reads `n` more bytes of a sequence with value `value`, the first of them between `low` and
`high`: the character if they all are there, and the bytes after those that fit. -/
def continuation (low high : Nat) : Nat → Nat → List UInt8 → Option Char × List UInt8
  | 0, value, bytes => (some (Char.ofNat value), bytes)
  | _ + 1, _, [] => (none, [])
  | n + 1, value, b :: bytes =>
    if low ≤ b.toNat ∧ b.toNat ≤ high then
      continuation 0x80 0xBF n (value * 64 + (b.toNat - 0x80)) bytes
    else (none, b :: bytes)

/-- The number that the first byte of a sequence contributes. -/
def leadValue (b more : Nat) : Nat :=
  match more with
  | 1 => b - 0xC0
  | 2 => b - 0xE0
  | _ => b - 0xF0

/-- Reads one character, or passes over bytes that form none, from bytes that start with `b`. -/
def step (b : UInt8) (bytes : List UInt8) : Option Char × List UInt8 :=
  if b.toNat < 0x80 then (some (Char.ofNat b.toNat), bytes)
  else
    match sequence? b.toNat with
    | some (low, high, more) => continuation low high more (leadValue b.toNat more) bytes
    | none => (none, bytes)

/-- The characters of some bytes, read in at most `fuel` steps; `none` where there is no character. -/
def charsWithin : Nat → List UInt8 → List (Option Char)
  | 0, _ => []
  | _ + 1, [] => []
  | fuel + 1, b :: bytes =>
    let (c, rest) := step b bytes
    c :: charsWithin fuel rest

/-- The characters of some bytes, `none` where there is no character. -/
def chars (bytes : List UInt8) : List (Option Char) := charsWithin bytes.length bytes

/-- The text that some bytes spell. -/
def decode? (bytes : List UInt8) : Option Text := (chars bytes).mapM id

/-- The text that some bytes spell, with a replacement character where they spell none. -/
def decodeLossy (bytes : List UInt8) : Text := (chars bytes).map (·.getD '\uFFFD')

end LiquidLint.Utf8
