import LiquidLint.Proofs.Analyzer.Reordered
import LiquidLint.Proofs.Text.Line
import Mathlib.Data.String.Basic

/-!
# Comparing locales

The paths of a locale are read off from its values by `leavesAt`, which goes down through objects
and stops at leaves: values that are no objects, and objects that list plural forms.
`mem_keyPaths_iff` says which paths these are without going through the recursion, by the keys on
the way to a leaf (`Leads`); `keyPaths` has them in order, each once. What is missing in one locale
and what is in it beyond the other are then differences of two such lists, and the report of a
difference is empty only if the difference is, since no path is (`report_eq`).

Plural forms are never looked into, so one list of them is as good as another wherever it stands
(`leavesAt_regrouped`). The reports about a theme are put together from this in `run_translations`.
-/

namespace LiquidLint.Translations

/-! ### Leaves -/

/-- Members of an object that list plural forms, and at least one. -/
def PluralGroup (members : List (String × JsonValue)) : Prop :=
  members ≠ [] ∧ ∀ m ∈ members, m.1 ∈ pluralForms

theorem isPlural_iff {members : List (String × JsonValue)} :
    isPlural members = true ↔ PluralGroup members := by
  simp [isPlural, PluralGroup]

/-- A value that is not looked into: no object, or plural forms of one text. -/
def IsLeaf (value : JsonValue) : Prop :=
  ∀ members, value = .object members → PluralGroup members

/-- The keys on the way from a value down to a leaf. -/
inductive Leads : JsonValue → List String → Prop
  | leaf {value : JsonValue} : IsLeaf value → Leads value []
  | member {members : List (String × JsonValue)} {key : String} {value : JsonValue}
      {keys : List String} : ¬ PluralGroup members → (key, value) ∈ members → Leads value keys →
      Leads (.object members) (key :: keys)

/-- Keys as one path, with dots in between; empty keys at the start are left out. -/
def dotted (keys : List String) : String := String.intercalate "." (keys.dropWhile String.isEmpty)

/-- The paths of a value: those of its leaves, if there is a key on the way that is not empty. -/
def IsPath (value : JsonValue) (path : String) : Prop :=
  path ≠ "" ∧ ∃ keys, Leads value keys ∧ dotted keys = path

theorem isLeaf_iff {members : List (String × JsonValue)} :
    IsLeaf (.object members) ↔ PluralGroup members :=
  ⟨fun h => h members rfl, fun h _ hm => JsonValue.object.inj hm ▸ h⟩

theorem mem_leaf_iff {path p : String} : p ∈ leaf path ↔ p ≠ "" ∧ path = p := by
  unfold leaf
  split
  · rename_i hempty
    rw [String.isEmpty_iff] at hempty
    constructor
    · intro h
      cases h
    · rintro ⟨hp, rfl⟩
      exact absurd hempty hp
  · rename_i hempty
    rw [String.isEmpty_iff] at hempty
    rw [List.mem_singleton]
    exact ⟨fun h => ⟨h ▸ hempty, h.symm⟩, fun h => h.2.symm⟩

/-- Where there is no object, the only keys on the way to a leaf are none. -/
theorem leads_iff_of_isLeaf {value : JsonValue} {keys : List String} (h : IsLeaf value) :
    Leads value keys ↔ keys = [] := by
  constructor
  · rintro (_ | ⟨hplural, -, -⟩)
    · rfl
    · exact absurd (isLeaf_iff.1 h) hplural
  · rintro rfl
    exact .leaf h

theorem leads_object_iff {members : List (String × JsonValue)} {keys : List String}
    (h : ¬ PluralGroup members) : Leads (.object members) keys ↔
      ∃ m ∈ members, ∃ rest, Leads m.2 rest ∧ keys = m.1 :: rest := by
  constructor
  · rintro (hleaf | ⟨-, hm, hrest⟩)
    · exact absurd (isLeaf_iff.1 hleaf) h
    · exact ⟨_, hm, _, hrest, rfl⟩
  · rintro ⟨⟨key, value⟩, hm, rest, hrest, rfl⟩
    exact .member h hm hrest

theorem mem_leavesAt_of_isLeaf {value : JsonValue} {path p : String} (h : IsLeaf value) :
    p ∈ leaf path ↔ p ≠ "" ∧ ∃ keys, Leads value keys ∧ keys.foldl below path = p := by
  simp [mem_leaf_iff, leads_iff_of_isLeaf h]

mutual

/-- The paths below a place are reached by the keys on the way to a leaf. -/
theorem mem_leavesAt_iff {p : String} : (path : String) → (value : JsonValue) →
    (p ∈ leavesAt path value ↔
      p ≠ "" ∧ ∃ keys, Leads value keys ∧ keys.foldl below path = p)
  | path, .object members => by
    rw [leavesAt]
    split
    · -- the keys of a plural group are no paths of their own
      rename_i hplural
      exact mem_leavesAt_of_isLeaf (isLeaf_iff.2 (isPlural_iff.1 hplural))
    · -- the members of another object are followed one level down
      rename_i hplural
      rw [isPlural_iff] at hplural
      rw [mem_leavesOf_iff path members]
      refine and_congr_right fun _ => ⟨?_, ?_⟩
      · rintro ⟨m, hm, keys, hkeys, hp⟩
        exact ⟨m.1 :: keys, (leads_object_iff hplural).2 ⟨m, hm, keys, hkeys, rfl⟩, hp⟩
      · rintro ⟨keys, hkeys, hp⟩
        obtain ⟨m, hm, rest, hrest, rfl⟩ := (leads_object_iff hplural).1 hkeys
        exact ⟨m, hm, rest, hrest, hp⟩
  | path, .null => mem_leavesAt_of_isLeaf fun _ h => by cases h
  | path, .bool _ => mem_leavesAt_of_isLeaf fun _ h => by cases h
  | path, .integer _ => mem_leavesAt_of_isLeaf fun _ h => by cases h
  | path, .real _ => mem_leavesAt_of_isLeaf fun _ h => by cases h
  | path, .string _ => mem_leavesAt_of_isLeaf fun _ h => by cases h
  | path, .array _ => mem_leavesAt_of_isLeaf fun _ h => by cases h

theorem mem_leavesOf_iff {p : String} : (path : String) → (members : List (String × JsonValue)) →
    (p ∈ leavesOf path members ↔
      p ≠ "" ∧ ∃ m ∈ members, ∃ keys, Leads m.2 keys ∧ (m.1 :: keys).foldl below path = p)
  | path, [] => by simp [leavesOf]
  | path, (key, value) :: rest => by
    rw [leavesOf, List.mem_append, mem_leavesAt_iff (below path key) value,
      mem_leavesOf_iff path rest, ← and_or_left]
    simp

end

/-! ### Paths -/

/-- Below a path that is not empty, keys are put after dots. -/
theorem foldl_below {path : String} (h : path ≠ "") (keys : List String) :
    keys.foldl below path = String.intercalate "." (path :: keys) := by
  induction keys generalizing path with
  | nil => simp
  | cons key keys ih =>
    have hbelow : below path key = path ++ "." ++ key := by
      have hempty : path.isEmpty = false := by
        rw [Bool.eq_false_iff, ne_eq, String.isEmpty_iff]
        exact h
      rw [below, hempty]
      rfl
    have hne : path ++ "." ++ key ≠ "" := by simp
    rw [List.foldl_cons, hbelow, ih hne, String.intercalate_cons_append,
      String.intercalate_cons_cons]

theorem foldl_below_empty (keys : List String) : keys.foldl below "" = dotted keys := by
  induction keys with
  | nil => rfl
  | cons key keys ih =>
    have hbelow : below "" key = key := rfl
    rw [List.foldl_cons, hbelow]
    by_cases hkey : key = ""
    · subst hkey
      exact ih
    · have hempty : key.isEmpty = false := by
        rw [Bool.eq_false_iff, ne_eq, String.isEmpty_iff]
        exact hkey
      rw [foldl_below hkey, dotted, List.dropWhile_cons_of_neg (by simp [hempty])]

theorem mem_unique_iff {p : String} {l : List String} : p ∈ unique l ↔ p ∈ l := by
  fun_induction unique l with
  | case1 a rest ih => simpa using ih
  | case2 a b rest hne ih => rw [List.mem_cons, ih, ← List.mem_cons]
  | case3 l => rfl

theorem pairwise_unique {l : List String} (h : l.Pairwise (· ≤ ·)) :
    (unique l).Pairwise (· < ·) := by
  fun_induction unique l with
  | case1 a rest ih => exact ih (List.pairwise_cons.1 h).2
  | case2 a b rest hne ih =>
    obtain ⟨hfirst, hrest⟩ := List.pairwise_cons.1 h
    refine List.pairwise_cons.2 ⟨fun p hp => ?_, ih hrest⟩
    have hab : a < b := lt_of_le_of_ne (hfirst b List.mem_cons_self) hne
    -- the rest is in order, so what is not its head comes after it
    rcases List.mem_cons.1 (mem_unique_iff.1 hp) with rfl | hp
    · exact hab
    · exact lt_of_lt_of_le hab ((List.pairwise_cons.1 hrest).1 p hp)
  | case3 l hshort =>
    match l, hshort with
    | [], _ => exact .nil
    | [a], _ => exact List.pairwise_singleton _ _
    | a :: b :: rest, hshort => exact absurd rfl (hshort a b rest)

theorem unique_of_pairwise {l : List String} (h : l.Pairwise (· < ·)) : unique l = l := by
  fun_induction unique l with
  | case1 a rest _ => exact absurd ((List.pairwise_cons.1 h).1 a List.mem_cons_self) (lt_irrefl a)
  | case2 a b rest _ ih => rw [ih (List.pairwise_cons.1 h).2]
  | case3 l _ => rfl

/-- Leaves that come in order, each once, are the paths as they come. -/
theorem keyPaths_of_pairwise {value : JsonValue}
    (h : (leavesAt "" value).Pairwise (· < ·)) : keyPaths value = leavesAt "" value := by
  have hsorted := h.imp fun {a b} hab => decide_eq_true (le_of_lt hab)
  rw [keyPaths, List.mergeSort_of_pairwise hsorted, unique_of_pairwise h]

/-- Some keys listed in order, each once. -/
def Lists (keys : List String) (P : String → Prop) : Prop :=
  keys.Pairwise (· < ·) ∧ ∀ p, p ∈ keys ↔ P p

/-- **The paths of a locale** are listed in order. -/
theorem lists_keyPaths (value : JsonValue) : Lists (keyPaths value) (IsPath value) := by
  constructor
  · refine pairwise_unique ?_
    have htrans : ∀ a b c : String, decide (a ≤ b) = true → decide (b ≤ c) = true →
        decide (a ≤ c) = true :=
      fun a b c hab hbc => decide_eq_true (le_trans (of_decide_eq_true hab) (of_decide_eq_true hbc))
    have htotal : ∀ a b : String, (decide (a ≤ b) || decide (b ≤ a)) = true :=
      fun a b => by simpa using le_total a b
    exact (List.pairwise_mergeSort htrans htotal (leavesAt "" value)).imp
      fun {a b} h => of_decide_eq_true h
  · intro p
    rw [keyPaths, mem_unique_iff, List.mem_mergeSort, mem_leavesAt_iff, IsPath]
    simp only [foldl_below_empty]

theorem lists_difference {keys keys' : List String} {P Q : String → Prop} (h : Lists keys P)
    (h' : Lists keys' Q) : Lists (keys.filter (!keys'.contains ·)) fun p => P p ∧ ¬ Q p := by
  refine ⟨h.1.filter _, fun p => ?_⟩
  have hmem : p ∈ keys' ↔ Q p := h'.2 p
  show _ ↔ P p ∧ ¬ Q p
  rw [List.mem_filter, h.2, ← hmem]
  simp

/-! ### Reports -/

/-- The report of some keys: none if there are no keys. -/
def notice (f : JsonFile) (lead : String) (keys : List String) : List Finding :=
  if keys = [] then []
  else [f.toSourceFile.finding .zero (lead ++ ": " ++ String.intercalate ", " keys) none]

theorem intercalate_eq_empty_iff {keys : List String} (h : ∀ p ∈ keys, p ≠ "") :
    String.intercalate ", " keys = "" ↔ keys = [] := by
  match keys, h with
  | [], _ => simp
  | [p], h => simpa using h p (by simp)
  | p :: q :: rest, _ => simp

/-- The text that is looked at to see whether there are keys is empty only if there are none. -/
theorem report_eq (f : JsonFile) (lead : String) {keys : List String} (h : ∀ p ∈ keys, p ≠ "") :
    report f lead keys = notice f lead keys := by
  have hempty : (String.intercalate ", " keys).isEmpty = true ↔ keys = [] := by
    rw [String.isEmpty_iff, intercalate_eq_empty_iff h]
  unfold report notice
  simp only [hempty]
  rfl

/-- **Two locales compared**: what is reported about the second are the paths that only the first
has, and the paths that only the second has. -/
theorem compare_eq {f : JsonFile} {expected actual : JsonValue} {missing extra : List String}
    (hf : f.content = .ok actual)
    (hmissing : missing = (keyPaths expected).filter (!(keyPaths actual).contains ·))
    (hextra : extra = (keyPaths actual).filter (!(keyPaths expected).contains ·)) :
    compare (keyPaths expected) f =
      notice f "Missing translation keys" missing ++ notice f "Extra translation keys" extra := by
  have hpath : ∀ (v : JsonValue) (q : String → Bool), ∀ p ∈ (keyPaths v).filter q, p ≠ "" :=
    fun v q p hp => (((lists_keyPaths v).2 p).1 (List.mem_filter.1 hp).1).1
  subst hmissing hextra
  rw [compare, hf]
  dsimp only
  rw [report_eq f _ (hpath _ _), report_eq f _ (hpath _ _)]

/-! ### Plural forms -/

/-- Values that differ in one place, where each lists plural forms of a text. -/
inductive Regrouped : JsonValue → JsonValue → Prop
  | group {members members' : List (String × JsonValue)} : PluralGroup members →
      PluralGroup members' → Regrouped (.object members) (.object members')
  | member {before after : List (String × JsonValue)} {key : String} {value value' : JsonValue} :
      Regrouped value value' → Regrouped (.object (before ++ (key, value) :: after))
        (.object (before ++ (key, value') :: after))
  | element {before after : List JsonValue} {value value' : JsonValue} : Regrouped value value' →
      Regrouped (.array (before ++ value :: after)) (.array (before ++ value' :: after))

theorem leavesOf_append (path : String) (members members' : List (String × JsonValue)) :
    leavesOf path (members ++ members') = leavesOf path members ++ leavesOf path members' := by
  induction members with
  | nil => rfl
  | cons m members ih => rw [List.cons_append, leavesOf, leavesOf, ih, List.append_assoc]

/-- **Other plural forms** leave the paths of a value as they are. -/
theorem leavesAt_regrouped {v v' : JsonValue} (h : Regrouped v v') (path : String) :
    leavesAt path v = leavesAt path v' := by
  induction h generalizing path with
  | group hplural hplural' =>
    rw [leavesAt, leavesAt, if_pos (isPlural_iff.2 hplural), if_pos (isPlural_iff.2 hplural')]
  | @member before after key value value' _ ih =>
    -- the keys around the place are the same, so both objects are leaves or neither is
    have hplural : isPlural (before ++ (key, value) :: after) =
        isPlural (before ++ (key, value') :: after) := by
      cases before <;> simp [isPlural]
    rw [leavesAt, leavesAt, hplural, leavesOf_append, leavesOf_append, leavesOf, leavesOf, ih]
  | element _ _ => rw [leavesAt, leavesAt] <;> exact fun _ h => by cases h

/-- Files with one path and the same content, or with content that differs in plural forms. -/
def RegroupedFile (f f' : JsonFile) : Prop :=
  f.relativePath = f'.relativePath ∧ (f.content = f'.content ∨
    ∃ v v', f.content = .ok v ∧ f'.content = .ok v' ∧ Regrouped v v')

variable {f f' : JsonFile} {js js' : List JsonFile}

theorem RegroupedFile.isLocale (h : RegroupedFile f f') : isLocale f = isLocale f' := by
  unfold Translations.isLocale JsonFile.name SourceFile.name
  rw [h.1]

theorem RegroupedFile.isDefault (h : RegroupedFile f f') : isDefault f = isDefault f' := by
  unfold Translations.isDefault JsonFile.name SourceFile.name
  rw [h.1]

/-- The paths of such files are the same, if they parse. -/
theorem RegroupedFile.keyPaths (h : RegroupedFile f f') :
    f.content.map keyPaths = f'.content.map keyPaths := by
  obtain ⟨-, hcontent | ⟨v, v', hv, hv', hregrouped⟩⟩ := h
  · rw [hcontent]
  · rw [hv, hv']
    show Except.ok (Translations.keyPaths v) = .ok (Translations.keyPaths v')
    rw [Translations.keyPaths, Translations.keyPaths, leavesAt_regrouped hregrouped]

theorem RegroupedFile.notice (h : RegroupedFile f f') (lead : String) (keys : List String) :
    report f lead keys = report f' lead keys := by
  have hlocate : f.toSourceFile.locate .zero = f'.toSourceFile.locate .zero := by
    unfold SourceFile.locate
    simp only [Span.zero, Text.position, Text.positionFrom_zero, h.1]
  unfold report SourceFile.finding
  rw [hlocate]

/-- What is reported about a locale depends on its paths only. -/
theorem compare_eq_map (expected : List String) (f : JsonFile) : compare expected f =
    match f.content.map Translations.keyPaths with
    | .error _ => []
    | .ok actual => report f "Missing translation keys" (expected.filter (!actual.contains ·)) ++
        report f "Extra translation keys" (actual.filter (!expected.contains ·)) := by
  unfold compare
  cases f.content <;> rfl

theorem RegroupedFile.compare (h : RegroupedFile f f') (expected : List String) :
    compare expected f = compare expected f' := by
  rw [compare_eq_map, compare_eq_map, h.keyPaths]
  simp only [h.notice]

/-- The locales that are compared with the default one. -/
def others (js : List JsonFile) : List JsonFile := (js.filter isLocale).filter (!isDefault ·)

theorem ofTheme_eq (theme : Theme) : ofTheme theme =
    match (default? theme.jsonFiles).map fun f => f.content.map keyPaths with
    | some (.ok expected) => (others theme.jsonFiles).flatMap (compare expected)
    | _ => [] := by
  unfold ofTheme others
  dsimp only
  unfold default?
  cases (theme.jsonFiles.filter isLocale).find? isDefault with
  | none => rfl
  | some default =>
    dsimp only [Option.map_some]
    cases default.content <;> rfl

theorem flatMap_others_regrouped (h : List.Forall₂ RegroupedFile js js') (expected : List String) :
    (others js).flatMap (compare expected) = (others js').flatMap (compare expected) := by
  unfold others
  induction h with
  | nil => rfl
  | @cons f f' js js' hf _ ih =>
    rw [List.filter_cons, List.filter_cons, hf.isLocale]
    split
    · rw [List.filter_cons, List.filter_cons, hf.isDefault]
      split
      · rw [List.flatMap_cons, List.flatMap_cons, hf.compare, ih]
      · exact ih
    · exact ih

theorem default?_regrouped (h : List.Forall₂ RegroupedFile js js') :
    (default? js).map (fun f => f.content.map keyPaths) =
      (default? js').map fun f => f.content.map keyPaths := by
  unfold default?
  induction h with
  | nil => rfl
  | @cons f f' js js' hf _ ih =>
    rw [List.filter_cons, List.filter_cons, hf.isLocale]
    split
    · rw [List.find?_cons, List.find?_cons, hf.isDefault]
      split
      · exact congrArg some hf.keyPaths
      · exact ih
    · exact ih

theorem ofTheme_regrouped {theme theme' : Theme}
    (h : List.Forall₂ RegroupedFile theme.jsonFiles theme'.jsonFiles) :
    ofTheme theme = ofTheme theme' := by
  rw [ofTheme_eq, ofTheme_eq, default?_regrouped h]
  simp only [flatMap_others_regrouped h]

/-! ### A theme -/

/-- **Translations are compared by their paths.** Each locale that is not a default is compared with
the first default locale, and what is reported about it is the list of the paths that only the
default locale has, in order, and the list of the paths that only the locale itself has; a list that
is empty is not reported. With the two values exchanged the two lists are exchanged. Other plural
forms in place of those that stand anywhere in any of the files leave the report of the theme as it
is. -/
theorem run_translations {theme : Theme} {default : JsonFile} {expected : JsonValue}
    (hdefault : default? theme.jsonFiles = some default) (hexpected : default.content = .ok expected) :
    (Check.matchingTranslations.run theme.events).2 =
        (others theme.jsonFiles).flatMap (compare (keyPaths expected)) ∧
      (∀ f : JsonFile, (∀ actual, f.content ≠ .ok actual) → compare (keyPaths expected) f = []) ∧
      (∀ actual, ∃ missing extra,
        Lists missing (fun p => IsPath expected p ∧ ¬ IsPath actual p) ∧
        Lists extra (fun p => IsPath actual p ∧ ¬ IsPath expected p) ∧
        (∀ f : JsonFile, f.content = .ok actual → compare (keyPaths expected) f =
          notice f "Missing translation keys" missing ++
            notice f "Extra translation keys" extra) ∧
        (∀ (theme' : Theme) (default' : JsonFile), default? theme'.jsonFiles = some default' →
          default'.content = .ok actual →
          (Check.matchingTranslations.run theme'.events).2 =
              (others theme'.jsonFiles).flatMap (compare (keyPaths actual)) ∧
            ∀ f : JsonFile, f.content = .ok expected → compare (keyPaths actual) f =
              notice f "Missing translation keys" extra ++
                notice f "Extra translation keys" missing)) ∧
      (∀ theme' : Theme, List.Forall₂ RegroupedFile theme.jsonFiles theme'.jsonFiles →
        (Check.matchingTranslations.run theme'.events).2 =
          (Check.matchingTranslations.run theme.events).2) := by
  -- the default decides what is expected of all other locales
  have hrun : ∀ (theme : Theme) (default : JsonFile) (value : JsonValue),
      default? theme.jsonFiles = some default → default.content = .ok value →
      (Check.matchingTranslations.run theme.events).2 =
        (others theme.jsonFiles).flatMap (compare (keyPaths value)) := by
    intro theme default value hdefault hvalue
    rw [run_theme, ofTheme_eq, hdefault, Option.map_some, hvalue]
    rfl
  refine ⟨hrun _ _ _ hdefault hexpected, fun f hf => ?_, fun actual => ?_, fun theme' h => ?_⟩
  · cases hcontent : f.content with
    | error e => rw [compare, hcontent]
    | ok actual => exact absurd hcontent (hf actual)
  · -- the two lists are those of the two differences, and they change places with the files
    refine ⟨_, _, lists_difference (lists_keyPaths expected) (lists_keyPaths actual),
      lists_difference (lists_keyPaths actual) (lists_keyPaths expected),
      fun f hf => compare_eq hf rfl rfl, fun theme' default' hdefault' hactual => ?_⟩
    exact ⟨hrun _ _ _ hdefault' hactual, fun f hf => compare_eq hf rfl rfl⟩
  · rw [run_theme, run_theme, ofTheme_regrouped h]

/-- An empty key at the start, a list, a plural form more and an empty object. -/
theorem run_translations_german :
    let en : JsonFile := ⟨⟨⟨"locales/en.default.json"⟩,
      "\x7b\"\": \x7b\"a\": 1\x7d, \"b\": [], \"items\": \x7b\"one\": 1\x7d\x7d".toList⟩⟩
    let de : JsonFile := ⟨⟨⟨"locales/de.json"⟩,
      "\x7b\"b\": \x7b\"c\": 1\x7d, \"d\": \x7b\x7d, \"items\": \x7b\"few\": 1, \"one\": 2\x7d\x7d".toList⟩⟩
    let theme : Theme := ⟨⟨"."⟩, [], [de, en]⟩
    ∃ expected, default? theme.jsonFiles = some en ∧ en.content = .ok expected ∧
      (Check.matchingTranslations.run theme.events).2 = compare (keyPaths expected) de ∧
      (Check.matchingTranslations.run theme.events).2.map (·.message) =
        ["Missing translation keys: a, b", "Extra translation keys: b.c"] := by
  intro en de theme
  have hdefault : default? theme.jsonFiles = some en := by decide +kernel
  have hothers : others theme.jsonFiles = [de] := by decide +kernel
  have hen : (en.content.map (leavesAt "")).toOption = some ["a", "b", "items"] := by decide +kernel
  have hde : (de.content.map (leavesAt "")).toOption = some ["b.c", "items"] := by decide +kernel
  have hcontent : ∀ {f : JsonFile} {l : List String},
      (f.content.map (leavesAt "")).toOption = some l →
        ∃ value, f.content = .ok value ∧ leavesAt "" value = l := by
    intro f l hf
    cases hcontent : f.content with
    | error e =>
      rw [hcontent] at hf
      cases hf
    | ok value =>
      rw [hcontent] at hf
      exact ⟨value, rfl, Option.some.inj hf⟩
  obtain ⟨expected, hexpected, hleaves⟩ := hcontent hen
  obtain ⟨actual, hactual, hleaves'⟩ := hcontent hde
  have hkeys := keyPaths_of_pairwise (hleaves ▸ (by decide : ["a", "b", "items"].Pairwise (· < ·)))
  have hkeys' := keyPaths_of_pairwise (hleaves' ▸ (by decide : ["b.c", "items"].Pairwise (· < ·)))
  have hrun := (run_translations hdefault hexpected).1
  rw [hothers, List.flatMap_singleton] at hrun
  refine ⟨expected, hdefault, hexpected, hrun, ?_⟩
  rw [hrun, hkeys, hleaves, compare, hactual]
  dsimp only
  rw [hkeys', hleaves']
  decide +kernel

end LiquidLint.Translations
