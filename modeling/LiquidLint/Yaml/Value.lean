import LiquidLint.Number.Shortest
import LiquidLint.Text.Quoted

/-!
# YAML values

A YAML document without its anchors and styles. Mappings keep the order of their entries, which
plays no part in `YamlValue.same`, the equality by which a key is found. Most readers of a value look
through its tags.
-/

namespace LiquidLint

/-- A YAML value. -/
inductive YamlValue where
  | null
  | bool (b : Bool)
  /-- An integer between `-2 ^ 63` and `2 ^ 64 - 1`. -/
  | integer (n : Int)
  | real (x : Binary64)
  | string (s : String)
  | sequence (elements : List YamlValue)
  | mapping (entries : List (YamlValue × YamlValue))
  | tagged (tag : String) (value : YamlValue)
deriving Inhabited, Repr

namespace YamlValue

/-! ### Equality -/

mutual

/-- Whether two values are equal, whatever the order of mapping entries. -/
def same : YamlValue → YamlValue → Bool
  | .null, .null => true
  | .bool a, .bool b => a == b
  | .integer a, .integer b => a == b
  | .real a, .real b => a.same b
  | .string a, .string b => a == b
  | .sequence a, .sequence b => sameElements a b
  | .mapping a, .mapping b => a.length == b.length && sameEntries a b
  | .tagged s a, .tagged t b => s == t && same a b
  | _, _ => false

/-- Whether two lists hold equal values in the same order. -/
def sameElements : List YamlValue → List YamlValue → Bool
  | [], [] => true
  | a :: as, b :: bs => same a b && sameElements as bs
  | _, _ => false

/-- Whether each of the first entries is equal to one of the second. -/
def sameEntries : List (YamlValue × YamlValue) → List (YamlValue × YamlValue) → Bool
  | [], _ => true
  | (k, v) :: rest, bs => bs.any (fun (l, w) => same k l && same v w) && sameEntries rest bs

end

/-- The value of a key. -/
def lookup (key : YamlValue) : List (YamlValue × YamlValue) → Option YamlValue
  | [] => none
  | (k, v) :: rest => if same key k then some v else lookup key rest

/-- Sets the value of a key: in the place of the old value if there is one, else at the end. -/
def insert (key value : YamlValue) :
    List (YamlValue × YamlValue) → List (YamlValue × YamlValue)
  | [] => [(key, value)]
  | (k, v) :: rest => if same key k then (k, value) :: rest else (k, v) :: insert key value rest

/-! ### Reading a value -/

/-- A value without its tags. -/
def untagged : YamlValue → YamlValue
  | .tagged _ v => untagged v
  | v => v

/-- The text of a string. -/
def string? (v : YamlValue) : Option String :=
  match v.untagged with
  | .string s => some s
  | _ => none

/-- The truth of a boolean. -/
def bool? (v : YamlValue) : Option Bool :=
  match v.untagged with
  | .bool b => some b
  | _ => none

/-- An integer of at most 63 bits and a sign. -/
def integer? (v : YamlValue) : Option Int :=
  match v.untagged with
  | .integer n => if n < (Nat.pow 2 63 : Int) then some n else none
  | _ => none

/-- The elements of a sequence. -/
def elements? (v : YamlValue) : Option (List YamlValue) :=
  match v.untagged with
  | .sequence l => some l
  | _ => none

/-! ### Showing a value -/

/-- A number as YAML writes it. -/
def realText (x : Binary64) : String := x.written (·.compact) ".inf" ".nan"

/-- A string in quotes. -/
def quotedText (s : String) : String := String.ofList (Text.quoted s.toList)

mutual

/-- A value with the kinds of its parts. -/
def describe : YamlValue → String
  | .null => "Null"
  | .bool b => "Bool(" ++ toString b ++ ")"
  | .integer n => "Number(" ++ toString n ++ ")"
  | .real x => "Number(" ++ realText x ++ ")"
  | .string s => "String(" ++ quotedText s ++ ")"
  | .sequence l => "Sequence [" ++ ", ".intercalate (describeElements l) ++ "]"
  | .mapping m => "Mapping \x7b" ++ ", ".intercalate (describeEntries m) ++ "\x7d"
  | .tagged tag v =>
    "TaggedValue \x7b tag: !" ++ tag ++ ", value: " ++ describe v ++ " \x7d"

/-- Values with the kinds of their parts. -/
def describeElements : List YamlValue → List String
  | [] => []
  | v :: vs => describe v :: describeElements vs

/-- Entries with the kinds of their parts; a plain key is shown without its kind. -/
def describeEntries : List (YamlValue × YamlValue) → List String
  | [] => []
  | (k, v) :: rest =>
    let key := match k with
      | .bool b => toString b
      | .integer n => toString n
      | .real x => realText x
      | .string s => quotedText s
      | k => describe k
    (key ++ ": " ++ describe v) :: describeEntries rest

end

end YamlValue

end LiquidLint
