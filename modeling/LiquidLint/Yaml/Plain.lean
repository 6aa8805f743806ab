import LiquidLint.Yaml.Value

/-!
# Plain scalars

A scalar written without quotes is null, a boolean, an integer, a real number or else a string.
Integers are decimal without leading zeros, or hexadecimal, octal or binary after `0x`, `0o` or `0b`.
-/

namespace LiquidLint.Yaml

/-! ### Words -/

/-- The words for null. -/
def nullWords : List String := ["null", "Null", "NULL", "~"]

/-- The boolean that a word stands for. -/
def boolean? (word : String) : Option Bool :=
  if ["true", "True", "TRUE"].contains word then some true
  else if ["false", "False", "FALSE"].contains word then some false
  else none

/-! ### Integers -/

/-- The value of a digit of a base up to sixteen. -/
def digit? (base : Nat) (c : Char) : Option Nat :=
  let value? :=
    if c.isDigit then some (c.toNat - '0'.toNat)
    else if 'a' ≤ c && c ≤ 'f' then some (c.toNat - 'a'.toNat + 10)
    else if 'A' ≤ c && c ≤ 'F' then some (c.toNat - 'A'.toNat + 10)
    else none
  value?.filter (· < base)

/-- The number spelled by digits of a base, of which there must be one. -/
def digits? (base : Nat) (t : Text) : Option Nat :=
  if t.isEmpty then none
  else t.foldl (fun n c => do return (← n) * base + (← digit? base c)) (some 0)

/-- The number spelled by digits after the mark of their base, or by decimal digits without leading
zeros. -/
def natural? : Text → Option Nat
  | '0' :: 'x' :: t => digits? 16 t
  | '0' :: 'o' :: t => digits? 8 t
  | '0' :: 'b' :: t => digits? 2 t
  | ['0'] => some 0
  | '0' :: _ => none
  | t => digits? 10 t

/-- The integer spelled by a text, however large. -/
def integer? : Text → Option Int
  | '+' :: t => (natural? t).map Int.ofNat
  | '-' :: t => (natural? t).map fun n => -(n : Int)
  | t => (natural? t).map Int.ofNat

/-- Whether an integer fits `bits` bits, with a sign if it is negative. -/
def fits (bits : Nat) (n : Int) : Bool :=
  -(Nat.pow 2 (bits - 1) : Int) ≤ n && n < (Nat.pow 2 bits : Int)

/-! ### Real numbers -/

/-- The exponent after the digits of a real number; nothing stands for no exponent. -/
def exponent? : Text → Option Int
  | [] => some 0
  | e :: t =>
    if e = 'e' ∨ e = 'E' then
      match t with
      | '+' :: t => (digits? 10 t).map Int.ofNat
      | '-' :: t => (digits? 10 t).map fun n => -(n : Int)
      | t => (digits? 10 t).map Int.ofNat
    else none

/-- The number spelled by digits with at most one point among them and an exponent. -/
def decimal? (negative : Bool) (t : Text) : Option Binary64 := do
  let whole := t.takeWhile Char.isDigit
  let (part, rest) := match t.dropWhile Char.isDigit with
    | '.' :: t => (t.takeWhile Char.isDigit, t.dropWhile Char.isDigit)
    | t => ([], t)
  let n ← digits? 10 (whole ++ part)
  let e ← exponent? rest
  return .ofDecimal negative n (e - part.length)

/-- Whether a text is the word for infinity. -/
def isInfinity (t : Text) : Bool := [".inf", ".Inf", ".INF"].contains (String.ofList t)

/-- The finite number spelled by a text without a plus sign. -/
def finite? (t : Text) : Option Binary64 :=
  match t with
  | '-' :: t => (decimal? true t).filter (·.isFinite)
  | t => (decimal? false t).filter (·.isFinite)

/-- The real number spelled by a text. -/
def real? (t : Text) : Option Binary64 :=
  match t with
  | '+' :: t =>
    if isInfinity t then some (.infinite false)
    else if t.head? = some '-' then none
    else finite? t
  | '-' :: rest => if isInfinity rest then some (.infinite true) else finite? t
  | _ =>
    if isInfinity t then some (.infinite false)
    else if [".nan", ".NaN", ".NAN"].contains (String.ofList t) then some .nan
    else finite? t

/-- Whether a text is a decimal number with leading zeros, which is no number. -/
def hasLeadingZero (t : Text) : Bool :=
  let ds := match t with
    | '+' :: t | '-' :: t => t
    | t => t
  1 < ds.length && ds.head? == some '0' && ds.all Char.isDigit

/-! ### Scalars -/

/-- The integer spelled by a text as a value: nothing if it is none, a failure if it takes more than
64 but no more than 128 bits. -/
def integerValue (t : Text) : Option (Option YamlValue) :=
  match integer? t with
  | none => some none
  | some n => if fits 64 n then some (some (.integer n)) else if fits 128 n then none else some none

/-- The value of a plain scalar; fails for integers of more than 64 but no more than 128 bits. -/
def plainValue? (t : Text) : Option YamlValue := do
  let s := String.ofList t
  if t.isEmpty || nullWords.contains s then return .null
  match boolean? s with
  | some b => return .bool b
  | none =>
    match ← integerValue t with
    | some v => return v
    | none =>
      match if hasLeadingZero t then none else real? t with
      | some x => return .real x
      | none => return .string s

end LiquidLint.Yaml
