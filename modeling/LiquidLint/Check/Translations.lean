import LiquidLint.Check.Event

/-!
# Translations

Every locale file should have the keys of the default locale. Keys are compared as dotted paths to
the leaves of the file; an object that only lists plural forms is one leaf.
-/

namespace LiquidLint.Translations

/-- The names of plural forms. -/
def pluralForms : List String := ["zero", "one", "two", "few", "many", "other"]

/-- Whether the members of an object are plural forms of one text. -/
def isPlural (members : List (String × JsonValue)) : Bool :=
  !members.isEmpty && members.all fun (k, _) => pluralForms.contains k

/-- The path of a key below another path. -/
def below (path key : String) : String := if path.isEmpty then key else s!"{path}.{key}"

/-- The path of a leaf; the file as a whole has none. -/
def leaf (path : String) : List String := if path.isEmpty then [] else [path]

mutual

/-- The paths of the leaves of a value that stands at `path`. -/
def leavesAt (path : String) : JsonValue → List String
  | .object members => if isPlural members then leaf path else leavesOf path members
  | _ => leaf path

/-- The paths of the leaves of some members of an object that stands at `path`. -/
def leavesOf (path : String) : List (String × JsonValue) → List String
  | [] => []
  | (key, value) :: rest => leavesAt (below path key) value ++ leavesOf path rest

end

/-- A sorted list without repetitions. -/
def unique : List String → List String
  | a :: b :: rest => if a = b then unique (b :: rest) else a :: unique (b :: rest)
  | l => l

/-- The paths of the leaves of a value, sorted. -/
def keyPaths (value : JsonValue) : List String :=
  unique ((leavesAt "" value).mergeSort fun a b => decide (a ≤ b))

/-- Whether a file is a locale. -/
def isLocale (f : JsonFile) : Bool :=
  (Text.dropStart? "locales/".toList f.name.toList).isSome &&
    (Text.dropStop? ".schema".toList f.name.toList).isNone

/-- Whether a file is the default of its kind. -/
def isDefault (f : JsonFile) : Bool := (Text.dropStop? ".default".toList f.name.toList).isSome

/-- A report of keys, unless there are none. -/
def report (f : JsonFile) (lead : String) (keys : List String) : List Finding :=
  let joined := String.intercalate ", " keys
  if joined.isEmpty then [] else [f.toSourceFile.finding .zero s!"{lead}: {joined}" none]

/-- The keys in which a locale differs from the expected ones. -/
def compare (expected : List String) (f : JsonFile) : List Finding :=
  match f.content with
  | .error _ => []
  | .ok content =>
    let actual := keyPaths content
    report f "Missing translation keys" (expected.filter (!actual.contains ·)) ++
      report f "Extra translation keys" (actual.filter (!expected.contains ·))

/-- The findings about the locales of a theme. -/
def ofTheme (theme : Theme) : List Finding :=
  let locales := theme.jsonFiles.filter isLocale
  match locales.find? isDefault with
  | none => []
  | some default =>
    match default.content with
    | .error _ => []
    | .ok content => (locales.filter (!isDefault ·)).flatMap (compare (keyPaths content))

/-- The findings at an event. -/
def findings : Event → List Finding
  | .onEnd theme => ofTheme theme
  | _ => []

end LiquidLint.Translations
