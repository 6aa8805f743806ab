/-!
# JSON values

A JSON value with 64-bit integers told apart from all other numbers, which are kept as written.
Objects are lists of members in the order given; `JsonValue.insert` keeps them sorted by key.
-/

namespace LiquidLint

/-- A JSON value. -/
inductive JsonValue where
  | null
  | bool (b : Bool)
  /-- An integer between `-2 ^ 63` and `2 ^ 64 - 1`. -/
  | integer (n : Int)
  /-- Any other number, as it was written. -/
  | real (written : String)
  | string (s : String)
  | array (elements : List JsonValue)
  | object (members : List (String × JsonValue))
deriving Inhabited, Repr

namespace JsonValue

/-- Puts a member among members sorted by key, in place of one with the same key. -/
def insert (key : String) (value : JsonValue) :
    List (String × JsonValue) → List (String × JsonValue)
  | [] => [(key, value)]
  | (k, v) :: rest =>
    if key = k then (key, value) :: rest
    else if key < k then (key, value) :: (k, v) :: rest
    else (k, v) :: insert key value rest

end JsonValue

end LiquidLint
