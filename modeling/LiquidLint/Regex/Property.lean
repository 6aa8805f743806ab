import LiquidLint.Regex.Basic
import LiquidLint.Text.Category

/-!
# Properties of characters

The sets that a pattern can name by a general category of Unicode, in its short or long form. Case,
blanks, dashes and underscores in a name do not count, nor does `is` before it.
-/

namespace LiquidLint.CharSet

/-- A name as it is looked up. -/
def plainName (name : Text) : String :=
  let t := (name.filter fun c => c != ' ' && c != '_' && c != '-').map Char.toLower
  match t with
  | ['i', 's', 'c'] => "isc"
  | 'i' :: 's' :: t => String.ofList t
  | t => String.ofList t

/-- The categories that a name stands for. -/
def categoriesNamed? (name : String) : Option (List String) :=
  match name with
  | "lu" | "uppercaseletter" => some ["Lu"]
  | "ll" | "lowercaseletter" => some ["Ll"]
  | "lt" | "titlecaseletter" => some ["Lt"]
  | "lc" | "casedletter" => some ["Lu", "Ll", "Lt"]
  | "lm" | "modifierletter" => some ["Lm"]
  | "lo" | "otherletter" => some ["Lo"]
  | "l" | "letter" => some ["Lu", "Ll", "Lt", "Lm", "Lo"]
  | "mn" | "nonspacingmark" => some ["Mn"]
  | "mc" | "spacingmark" => some ["Mc"]
  | "me" | "enclosingmark" => some ["Me"]
  | "m" | "mark" | "combiningmark" => some ["Mn", "Mc", "Me"]
  | "nd" | "decimalnumber" | "digit" => some ["Nd"]
  | "nl" | "letternumber" => some ["Nl"]
  | "no" | "othernumber" => some ["No"]
  | "n" | "number" => some ["Nd", "Nl", "No"]
  | "pc" | "connectorpunctuation" => some ["Pc"]
  | "pd" | "dashpunctuation" => some ["Pd"]
  | "ps" | "openpunctuation" => some ["Ps"]
  | "pe" | "closepunctuation" => some ["Pe"]
  | "pi" | "initialpunctuation" => some ["Pi"]
  | "pf" | "finalpunctuation" => some ["Pf"]
  | "po" | "otherpunctuation" => some ["Po"]
  | "p" | "punctuation" | "punct" => some ["Pc", "Pd", "Ps", "Pe", "Pi", "Pf", "Po"]
  | "sm" | "mathsymbol" => some ["Sm"]
  | "sc" | "currencysymbol" => some ["Sc"]
  | "sk" | "modifiersymbol" => some ["Sk"]
  | "so" | "othersymbol" => some ["So"]
  | "s" | "symbol" => some ["Sm", "Sc", "Sk", "So"]
  | "zs" | "spaceseparator" => some ["Zs"]
  | "zl" | "lineseparator" => some ["Zl"]
  | "zp" | "paragraphseparator" => some ["Zp"]
  | "z" | "separator" => some ["Zs", "Zl", "Zp"]
  | "cc" | "control" | "cntrl" => some ["Cc"]
  | "cf" | "format" => some ["Cf"]
  | "co" | "privateuse" => some ["Co"]
  | "cn" | "unassigned" => some ["Cn"]
  | "c" | "other" => some ["Cc", "Cf", "Co", "Cn"]
  | _ => none

/-- The set with a name as it is looked up. -/
def named? (name : String) : Option CharSet :=
  match name with
  | "any" => some .all
  | "ascii" => some (.range 0 0x7F)
  | "assigned" =>
    some (.compl (.unions ((categoryRanges ["Cn"]).map fun (low, high) => .range low high)))
  | "whitespace" | "wspace" | "space" => some .blank
  | name =>
    (categoriesNamed? name).map fun categories =>
      .unions ((categoryRanges categories).map fun (low, high) => .range low high)

/-- The parts of a name around the first sign that says it belongs to a kind of property, and whether
the sign negates it. -/
def splitName (name : Text) : Option (Text × Text × Bool) :=
  match Text.cut? ['!', '='] name with
  | some (kind, value) => some (kind, value, true)
  | none =>
    ((Text.cut? [':'] name).or (Text.cut? ['='] name)).map fun (kind, value) => (kind, value, false)

/-- The set that a property names. -/
def property? (name : Text) : Option CharSet :=
  match splitName name with
  | none => named? (plainName name)
  | some (kind, value, negated) =>
    if plainName kind = "gc" ∨ plainName kind = "generalcategory" then
      (named? (plainName value)).map fun s => if negated then .compl s else s
    else none

end LiquidLint.CharSet
