import LiquidLint.Check.Pattern
import LiquidLint.Yaml.Parse

/-!
# Declared checks

A definition file declares one pattern check, or several in a list under the key `checks`. The fields
of a declaration are read in the order in which they are written, and only then are missing fields
noticed. A file is accepted as a whole or not at all.
-/

namespace LiquidLint

/-- Why a YAML text does not have the form of a definition file. -/
inductive FormError where
  /-- It is not well formed, or sets a field twice. -/
  | malformed
  /-- There is a value of another type than expected. -/
  | wrongType (found : YamlValue) (expected : String)
  /-- A field is missing. -/
  | missingField (name : String)
  /-- A field is none of those expected. -/
  | unknownField (name : String) (expected : List String)
deriving Repr

namespace FormError

/-- The kind of a value, with the value itself if it is a scalar. -/
def found : YamlValue → String
  | .null => "unit value"
  | .bool b => "boolean `" ++ toString b ++ "`"
  | .integer n => "integer `" ++ toString n ++ "`"
  | .real x => "floating point `" ++ x.written (·.positional) "inf" "NaN" ++ "`"
  | .string s => "string " ++ YamlValue.quotedText s
  | .sequence _ => "sequence"
  | .mapping _ => "map"
  | .tagged _ v => found v

/-- The names that would have been right. -/
def alternatives : List String → String
  | [name] => "`" ++ name ++ "`"
  | names => "one of " ++ ", ".intercalate (names.map fun n => "`" ++ n ++ "`")

/-- What is said after a colon about the error. -/
def detail : FormError → String
  | .malformed => ""
  | .wrongType v expected => ": invalid type: " ++ found v ++ ", expected " ++ expected
  | .missingField name => ": missing field `" ++ name ++ "`"
  | .unknownField name expected =>
    ": unknown field `" ++ name ++ "`, expected " ++ alternatives expected

end FormError

/-- Why a definition file is not accepted. -/
inductive DefinitionError where
  /-- The file has another form. -/
  | form (error : FormError)
  /-- The file declares nothing. -/
  | empty
  /-- A name is not made of letters and digits. -/
  | invalidName (name : String)
  /-- A category is none of the three. -/
  | unknownCategory (check value : String)
  /-- A severity is none of the three. -/
  | unknownSeverity (check value : String)
  /-- A pattern is refused by the engine. -/
  | invalidPattern (check : String)
  /-- There are no node types to look into. -/
  | noNodeTypes (check : String)
deriving Repr

/-- The error as one line. -/
def DefinitionError.message : DefinitionError → String
  | .form error => "YAML parse error" ++ error.detail
  | .empty => "no check definitions found"
  | .invalidName name =>
    "invalid check name `" ++ name ++ "`, expected PascalCase letters and digits"
  | .unknownCategory check value => check ++ ": " ++ Category.unknownMessage value
  | .unknownSeverity check value => check ++ ": " ++ Severity.unknownMessage value
  | .invalidPattern check => check ++ ": invalid pattern"
  | .noNodeTypes check => check ++ ": node_types must not be empty"

/-- A declaration as written; fields that were not set are missing. -/
structure Declaration where
  name : Option String := none
  category : Option String := none
  description : Option (Option String) := none
  severity : Option String := none
  message : Option String := none
  pattern : Option String := none
  nodeTypes : Option (List String) := none
deriving Repr

namespace Declaration

/-- The fields of a declaration. -/
def fields : List String :=
  ["name", "category", "description", "severity", "message", "pattern", "node_types"]

/-! ### Reading fields -/

/-- The text of a string. -/
def readString (v : YamlValue) : Except FormError String :=
  match v.string? with
  | some s => .ok s
  | none => .error (.wrongType v "a string")

/-- The text of a string, or nothing for null. -/
def readOptional (v : YamlValue) : Except FormError (Option String) :=
  match v with
  | .null => .ok none
  | v => (readString v).map some

/-- The values of a sequence; null stands for none. -/
def readElements (v : YamlValue) : Except FormError (List YamlValue) :=
  match v.untagged with
  | .sequence l => .ok l
  | .null => .ok []
  | _ => .error (.wrongType v "a sequence")

/-- A field set for the first time. -/
def fresh {α : Type} (old : Option α) (new : Except FormError α) : Except FormError (Option α) :=
  if old.isSome then .error .malformed else new.map some

/-- Sets a field. -/
def setField (d : Declaration) (name : String) (v : YamlValue) : Except FormError Declaration :=
  match name with
  | "name" => return { d with name := ← fresh d.name (readString v) }
  | "category" => return { d with category := ← fresh d.category (readString v) }
  | "description" => return { d with description := ← fresh d.description (readOptional v) }
  | "severity" => return { d with severity := ← fresh d.severity (readString v) }
  | "message" => return { d with message := ← fresh d.message (readString v) }
  | "pattern" => return { d with pattern := ← fresh d.pattern (readString v) }
  | "node_types" =>
    return { d with
      nodeTypes := ← fresh d.nodeTypes ((readElements v).bind fun l => l.mapM readString) }
  | name => .error (.unknownField name fields)

/-- The name of a field. -/
def readKey (v : YamlValue) : Except FormError String :=
  match v.string? with
  | some s => .ok s
  | none => .error (.wrongType v "field identifier")

/-- A field that must be set. -/
def required (name : String) (value : Option String) : Except FormError String :=
  match value with
  | some s => .ok s
  | none => .error (.missingField name)

/-- Reads a declaration; null stands for one without fields. All required fields of the result are
set. -/
def read (v : YamlValue) : Except FormError Declaration := do
  let entries ← match v.untagged with
    | .mapping m => pure m
    | .null => pure []
    | _ => .error (.wrongType v "struct CustomCheckDto")
  let d ← entries.foldlM (fun d (k, v) => do setField d (← readKey k) v) {}
  let _ ← required "name" d.name
  let _ ← required "category" d.category
  let _ ← required "message" d.message
  let _ ← required "pattern" d.pattern
  return d

/-- Reads the declarations under the key `checks` of a mapping that has no other key. -/
def readList (entries : List (YamlValue × YamlValue)) : Except FormError (List Declaration) := do
  let lists ← entries.foldlM
    (fun done (k, v) => do
      let key ← readKey k
      if key != "checks" then throw (.unknownField key ["checks"])
      let list ← fresh done ((readElements v).bind fun l => l.mapM read)
      return list)
    (none : Option (List Declaration))
  return lists.getD []

/-- The declarations of a definition file. -/
def readFile (v : YamlValue) : Except FormError (List Declaration) :=
  match v.untagged with
  | .null => .ok []
  | .mapping m =>
    if (YamlValue.lookup (.string "checks") m).isSome then readList m
    else (read v).map ([·])
  | _ => (read v).map ([·])

/-! ### From declarations to checks -/

/-- Whether a name is made of letters and digits. -/
def isName (name : String) : Bool := !name.isEmpty && name.toList.all Char.isAlphanum

/-- The severity of a declared check unless it sets one. -/
def defaultSeverity : String := "suggestion"

/-- The node types that a declared check looks into unless it sets some. -/
def defaultNodeTypes : List String := ["text"]

/-- The check that a declaration describes, its pattern compiled by the engine. -/
def toCheck [RegexEngine] (d : Declaration) : Except DefinitionError PatternCheck := do
  let name := d.name.getD ""
  let category := d.category.getD ""
  let severity := d.severity.getD defaultSeverity
  let nodeTypes := d.nodeTypes.getD defaultNodeTypes
  if !isName name then throw (.invalidName name)
  let category ← match Category.ofWord? category with
    | some c => pure c
    | none => .error (.unknownCategory name category)
  let severity ← match Severity.ofWord? severity with
    | some s => pure s
    | none => .error (.unknownSeverity name severity)
  let search ← match RegexEngine.compile? (d.pattern.getD "").toList with
    | some s => pure s
    | none => .error (.invalidPattern name)
  if nodeTypes.isEmpty then throw (.noNodeTypes name)
  return { name, category, description := d.description.join.getD "", severity
           message := d.message.getD "", search, nodeTypes }

end Declaration

namespace PatternCheck

/-- The checks that a definition file declares. -/
def load [RegexEngine] (source : Text) : Except DefinitionError (List PatternCheck) := do
  let value ← match YamlValue.parse? source with
    | some v => pure v
    | none => .error (.form .malformed)
  let declarations ← (Declaration.readFile value).mapError .form
  if declarations.isEmpty then throw .empty
  declarations.mapM (·.toCheck)

end PatternCheck

end LiquidLint
