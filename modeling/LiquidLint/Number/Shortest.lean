import LiquidLint.Number.Binary64

/-!
# The shortest decimal of a number

`Binary64.shortest` finds the decimal with the fewest digits that is nearer to a given number than to
any other, and of those the nearest one. Decimals on a grid `10 ^ k` are tried from one digit up to
seventeen, which always suffice; on each grid only the two neighbours of the number can qualify.
-/

namespace LiquidLint.Binary64

/-- A decimal `digits * 10 ^ exponent`. -/
structure Decimal where
  digits : Nat
  exponent : Int
deriving DecidableEq, Inhabited, Repr

/-- Whether `a / b ≤ c / d`. -/
def quotientLe (a b c d : Nat) : Bool := a * d ≤ c * b

/-- The exact values that round to `m * 2 ^ e`, as multiples of `2 ^ (e - 2)`: the least, the greatest,
and whether these two belong to them. -/
def roundingRange (m : Nat) (e : Int) : Nat × Nat × Bool :=
  (if m = Nat.pow 2 52 ∧ -1074 < e then 4 * m - 1 else 4 * m - 2, 4 * m + 2, m % 2 == 0)

/-- Whether `d` lies among the values that round to `m * 2 ^ e`. -/
def readsBack (m : Nat) (e : Int) (d : Decimal) : Bool :=
  let (low, high, closed) := roundingRange m e
  let (n, k) := scale 10 d.digits 1 d.exponent
  let (a, b) := scale 2 low 1 (e - 2)
  let (s, t) := scale 2 high 1 (e - 2)
  if closed then quotientLe a b n k && quotientLe n k s t
  else !quotientLe n k a b && !quotientLe s t n k

/-- The number of digits before the point of `n / d`, negative for zeros after the point. -/
def magnitude (n d : Nat) : Int :=
  let guess : Int := ((bitLength n : Int) - bitLength d) * 30103 / 100000
  let below (p : Int) : Bool :=
    let (a, b) := scale 10 1 1 p
    !quotientLe a b n d
  ([guess - 2, guess - 1, guess, guess + 1].find? below).getD (guess + 2)

/-- The decimal with `count` digits that is nearest to `m * 2 ^ e` among those that round to it. -/
def withDigits? (m : Nat) (e : Int) (count : Nat) : Option Decimal :=
  let (n, d) := scale 2 m 1 e
  let k := magnitude n d - count
  let (a, b) := scale 10 n d (-k)
  let lower : Decimal := ⟨a / b, k⟩
  let upper : Decimal :=
    if a / b + 1 = Nat.pow 10 count then ⟨Nat.pow 10 (count - 1), k + 1⟩ else ⟨a / b + 1, k⟩
  let r := a % b
  let (near, far) :=
    if 2 * r < b || (2 * r == b && a / b % 2 == 0) then (lower, upper) else (upper, lower)
  [near, far].find? (readsBack m e)

/-- The shortest decimal that rounds to `m * 2 ^ e`. -/
def shortest (m : Nat) (e : Int) : Decimal :=
  (((List.range 17).map (· + 1)).findSome? (withDigits? m e)).getD ⟨0, 0⟩

/-! ### Notation -/

/-- A decimal written without an exponent, with at least one digit on each side of the point. -/
def Decimal.positional (d : Decimal) : String :=
  let ds := Nat.toDigits 10 d.digits
  let point : Int := ds.length + d.exponent
  String.ofList <|
    if 0 ≤ d.exponent then ds ++ List.replicate d.exponent.toNat '0' ++ ['.', '0']
    else if 0 < point then ds.take point.toNat ++ '.' :: ds.drop point.toNat
    else '0' :: '.' :: (List.replicate (-point).toNat '0' ++ ds)

/-- A decimal written with one digit before the point and an exponent. -/
def Decimal.scientific (d : Decimal) : String :=
  let ds := Nat.toDigits 10 d.digits
  let point : Int := ds.length + d.exponent
  let mantissa := match ds with
    | x :: y :: rest => x :: '.' :: y :: rest
    | ds => ds
  String.ofList mantissa ++ "e" ++ toString (point - 1)

/-- A decimal without an exponent when its point is near its digits. -/
def Decimal.compact (d : Decimal) : String :=
  let point : Int := (Nat.toDigits 10 d.digits).length + d.exponent
  if -5 < point ∧ point ≤ 16 then d.positional else d.scientific

/-- A number written by its shortest decimal in the given notation. -/
def written (notate : Decimal → String) (infinity missing : String) : Binary64 → String
  | .nan => missing
  | .infinite negative => (if negative then "-" else "") ++ infinity
  | .finite negative m e =>
    (if negative then "-" else "") ++ notate (if m = 0 then ⟨0, 0⟩ else shortest m e)

end LiquidLint.Binary64
