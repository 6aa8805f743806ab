/-!
# 64-bit floating point

A finite double-precision number is `m * 2 ^ e` with `m < 2 ^ 53` and `e ≥ -1074`, and an exact value
is rounded to the nearest one, a tie going to the even neighbour. Values from `2 ^ 1024 - 2 ^ 970` on
are nearer to `2 ^ 1024` than to the largest finite double, and have no finite rounding.
-/

namespace LiquidLint

/-- A double-precision number. -/
inductive Binary64 where
  /-- The number `± significand * 2 ^ exponent`. -/
  | finite (negative : Bool) (significand : Nat) (exponent : Int)
  | infinite (negative : Bool)
  | nan
deriving DecidableEq, Inhabited, Repr

namespace Binary64

/-- `n / d` rounded to the nearest natural number, a tie going to the even one. -/
def roundQuotient (n d : Nat) : Nat :=
  let q := n / d
  let r := n % d
  if 2 * r > d || (2 * r == d && q % 2 == 1) then q + 1 else q

/-- The number of binary digits of `n`. -/
def bitLength (n : Nat) : Nat := if n = 0 then 0 else Nat.log2 n + 1

/-- `n` rounded to 53 significant bits. -/
def roundNat (n : Nat) : Nat :=
  let s := bitLength n - 53
  roundQuotient n (Nat.pow 2 s) * Nat.pow 2 s

/-- Whether an exact value is too large to have a finite rounding. -/
def overflows (n : Nat) : Bool := Nat.pow 2 1024 - Nat.pow 2 970 ≤ n

/-! ### Decimals -/

/-- `n / d * b ^ e`, again as a quotient. -/
def scale (b : Nat) (n d : Nat) (e : Int) : Nat × Nat :=
  if 0 ≤ e then (n * Nat.pow b e.toNat, d) else (n, d * Nat.pow b (-e).toNat)

/-- The exponent with which `n / d` has 53 significant bits, or the least exponent if that is more. -/
def exponentFor (n d : Nat) : Int :=
  let guess : Int := bitLength n - bitLength d - 53
  let (m, k) := scale 2 n d (-(guess + 53))
  max (if k ≤ m then guess + 1 else guess) (-1074)

/-- The number nearest to `± n / d`. -/
def ofQuotient (negative : Bool) (n d : Nat) : Binary64 :=
  let e := exponentFor n d
  let (m, k) := scale 2 n d (-e)
  let q := roundQuotient m k
  let (q, e) := if q = Nat.pow 2 53 then (Nat.pow 2 52, e + 1) else (q, e)
  if q = 0 then .finite negative 0 0
  else if 971 < e then .infinite negative
  else .finite negative q e

/-- Decimals with more digits before the point than this have no finite rounding, and those with
more zeros after it are nearest to zero. -/
def decimalReach : Int := 400

/-- The number nearest to `± n * 10 ^ e`. -/
def ofDecimal (negative : Bool) (n : Nat) (e : Int) : Binary64 :=
  let magnitude : Int := e + (Nat.toDigits 10 n).length
  if n = 0 ∨ magnitude < -decimalReach then .finite negative 0 0
  else if decimalReach < magnitude then .infinite negative
  else
    let (m, k) := scale 10 n 1 e
    ofQuotient negative m k

/-- Whether a number is finite. -/
def isFinite : Binary64 → Bool
  | .finite .. => true
  | _ => false

/-- Whether two numbers are the same: the zeros are, and so is a missing number with itself. -/
def same : Binary64 → Binary64 → Bool
  | .finite _ 0 _, .finite _ 0 _ => true
  | x, y => x == y

end Binary64

end LiquidLint
