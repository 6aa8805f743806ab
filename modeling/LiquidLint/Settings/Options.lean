import LiquidLint.Report.Level
import LiquidLint.Settings.Error
import LiquidLint.Yaml.Value

/-!
# Options of a check

The options that settings give to one check, in the order in which they were first set. Three keys
mean the same for every check: `enabled`, `severity` and `category`. Merging is per key and shallow:
an option of the other side replaces the whole value.
-/

namespace LiquidLint

/-- The options of a check. -/
structure Options where
  entries : List (YamlValue × YamlValue) := []
deriving Inhabited, Repr

namespace Options

/-! ### Setting options -/

/-- The value of a key. -/
def get? (o : Options) (key : String) : Option YamlValue :=
  YamlValue.lookup (.string key) o.entries

/-- Sets the value of a key. -/
def set (o : Options) (key : String) (value : YamlValue) : Options :=
  ⟨YamlValue.insert (.string key) value o.entries⟩

/-- Sets every option that `overrides` has. -/
def merge (o overrides : Options) : Options :=
  ⟨overrides.entries.foldl (fun entries (k, v) => YamlValue.insert k v entries) o.entries⟩

/-- The number of keys. -/
def size (o : Options) : Nat := o.entries.length

/-- Whether no key is set. -/
def isEmpty (o : Options) : Bool := o.entries.isEmpty

/-- The keys that are strings. -/
def keys (o : Options) : List String := o.entries.filterMap fun (k, _) => k.string?

/-- Whether two sets of options are equal, whatever the order of their keys. -/
def same (o p : Options) : Bool := YamlValue.same (.mapping o.entries) (.mapping p.entries)

/-! ### Reading options -/

/-- A boolean option. -/
def bool (o : Options) (key : String) (default : Bool) : Bool :=
  ((o.get? key).bind (·.bool?)).getD default

/-- An integer option. -/
def integer (o : Options) (key : String) (default : Int) : Int :=
  ((o.get? key).bind (·.integer?)).getD default

/-- A string option. -/
def string (o : Options) (key : String) (default : String) : String :=
  ((o.get? key).bind (·.string?)).getD default

/-- The strings in a sequence option; other elements are passed over. -/
def strings (o : Options) (key : String) : List String :=
  (((o.get? key).bind (·.elements?)).getD []).filterMap (·.string?)

/-- The strings of a sequence option that holds nothing else; null is an empty sequence. -/
def stringList? (o : Options) (key : String) : Option (List String) :=
  match (o.get? key).map YamlValue.untagged with
  | some (.sequence l) => l.mapM (·.string?)
  | some .null => some []
  | _ => none

/-- An integer option between 0 and 255. -/
def byte? (o : Options) (key : String) : Option Nat :=
  match (o.get? key).map YamlValue.untagged with
  | some (.integer n) => if 0 ≤ n ∧ n < 256 then some n.toNat else none
  | _ => none

/-! ### Keys of every check -/

/-- Whether the check is on, if that is set. -/
def enabled? (o : Options) : Option Bool := (o.get? "enabled").bind (·.bool?)

/-- The severity of the check's offenses, if it is set. -/
def severity? (o : Options) : Option Severity :=
  ((o.get? "severity").bind (·.string?)).bind Severity.ofWord?

/-- The category of the check, if it is set. -/
def category? (o : Options) : Option Category :=
  ((o.get? "category").bind (·.string?)).bind Category.ofWord?

/-- The first of the keys of every check that is set to something else than it must be, and what is
expected there. -/
def fault? (o : Options) : Option (String × String) :=
  if (o.get? "enabled").isSome && o.enabled?.isNone then
    some ("enabled", "expected true or false")
  else if (o.get? "severity").isSome && o.severity?.isNone then
    some ("severity", "expected one of error, suggestion, style")
  else if (o.get? "category").isSome && o.category?.isNone then
    some ("category", "expected one of liquid, json, translation")
  else none

/-- Accepts the options of the named check if their reserved keys hold what they must. -/
def validate (o : Options) (check : String) : Except ConfigError Unit :=
  match o.fault? with
  | some (key, expectation) => .error (.invalidValue (check ++ "." ++ key) expectation)
  | none => .ok ()

end Options

end LiquidLint
