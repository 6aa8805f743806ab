import LiquidLint.FileTree

/-!
# Writing to files that exist

A file that exists can be written, and afterwards all paths name what they named before, but for what
that file holds (`write_of_isFile`).
-/

namespace LiquidLint

/-- Whether an entry is a directory. -/
def Entry.isDirectory : Entry → Bool
  | .directory => true
  | .file _ => false

namespace FileTree

variable {t t' t'' : FileTree} {p : Path}

/-- Two trees have directories and files at the same keys, and the same working directory. -/
structure SameShape (t t' : FileTree) : Prop where
  home : t'.home = t.home
  kind : ∀ key, (t'.entry? key).map Entry.isDirectory = (t.entry? key).map Entry.isDirectory

theorem SameShape.refl (t : FileTree) : SameShape t t := ⟨rfl, fun _ => rfl⟩

theorem SameShape.trans (h : SameShape t t') (h' : SameShape t' t'') : SameShape t t'' :=
  ⟨h'.home.trans h.home, fun key => (h'.kind key).trans (h.kind key)⟩

/-- Trees of the same shape agree on what a key is. -/
theorem SameShape.cases (h : SameShape t t') (key : List String) :
    (t.entry? key = none ∧ t'.entry? key = none) ∨
    (t.entry? key = some .directory ∧ t'.entry? key = some .directory) ∨
    ∃ c c', t.entry? key = some (.file c) ∧ t'.entry? key = some (.file c') := by
  have hkey := h.kind key
  cases ht : t.entry? key with
  | none =>
    rw [ht, Option.map_none, Option.map_eq_none_iff] at hkey
    exact Or.inl ⟨rfl, hkey⟩
  | some e =>
    rw [ht, Option.map_some, Option.map_eq_some_iff] at hkey
    obtain ⟨e', ht', he⟩ := hkey
    cases e with
    | directory =>
      cases e' with
      | directory => exact Or.inr (Or.inl ⟨rfl, ht'⟩)
      | file c => cases he
    | file c =>
      cases e' with
      | directory => cases he
      | file c' => exact Or.inr (Or.inr ⟨c, c', rfl, ht'⟩)

theorem SameShape.follow (h : SameShape t t') (here : List String) (cs : List Path.Component) :
    t'.follow here cs = t.follow here cs := by
  induction cs generalizing here with
  | nil => rfl
  | cons c cs ih =>
    unfold FileTree.follow
    rcases h.cases here with ⟨h1, h2⟩ | ⟨h1, h2⟩ | ⟨_, _, h1, h2⟩
    · rw [h1, h2]
    · rw [h1, h2]
      cases c with
      | root => exact ih []
      | here => exact ih here
      | up => exact ih here.dropLast
      | name n => exact ih (here ++ [n])
    · rw [h1, h2]

theorem SameShape.resolve (h : SameShape t t') (p : Path) : t'.resolve p = t.resolve p := by
  unfold FileTree.resolve
  rw [h.follow, h.home]
  split
  · rfl
  · split
    · rfl
    · rename_i key _
      rcases h.cases key with ⟨h1, h2⟩ | ⟨h1, h2⟩ | ⟨_, _, h1, h2⟩ <;> rw [h1, h2]

theorem SameShape.isFile (h : SameShape t t') (p : Path) : t'.isFile p = t.isFile p := by
  unfold FileTree.isFile FileTree.find
  rw [h.resolve]
  cases t.resolve p with
  | error e => rfl
  | ok key =>
    dsimp only
    rcases h.cases key with ⟨h1, h2⟩ | ⟨h1, h2⟩ | ⟨_, _, h1, h2⟩ <;> rw [h1, h2]

theorem lookup_replace (entries : List (List String × Entry)) (key k : List String) (e : Entry) :
    (entries.map fun (k, old) => if k = key then (k, e) else (k, old)).lookup k =
      if k = key then (entries.lookup k).map fun _ => e else entries.lookup k := by
  -- the entry with the key that is looked up may be the first one
  induction entries with
  | nil => simp
  | cons entry entries ih =>
    obtain ⟨k', old⟩ := entry
    have hfirst : (if k' = key then (k', e) else (k', old)).1 = k' := by split <;> rfl
    rw [List.map_cons]
    by_cases hk : k = k'
    · subst hk
      by_cases hkey : k = key
      · simp [hkey]
      · simp [hkey]
    · have hne : (k == k') = false := beq_eq_false_iff_ne.2 hk
      have hskip : ∀ (entry : List String × Entry) (rest : List (List String × Entry)),
          entry.1 = k' → (entry :: rest).lookup k = rest.lookup k := by
        rintro ⟨_, e⟩ rest rfl
        rw [List.lookup_cons, hne]
      rw [hskip _ _ hfirst, hskip (k', old) entries rfl, ih]

@[simp]
theorem home_put (t : FileTree) (key : List String) (e : Entry) : (t.put key e).home = t.home := by
  unfold put
  split <;> rfl

theorem entry?_home (t : FileTree) : t.entry? t.home = some .directory :=
  if_pos (List.isPrefixOf_iff_prefix.2 (List.prefix_refl _))

/-- What is no directory is not the working directory, nor above it. -/
theorem isPrefixOf_home_of_ne {key : List String} (h : t.entry? key ≠ some .directory) :
    key.isPrefixOf t.home = false := by
  rw [Bool.eq_false_iff]
  intro hprefix
  exact h (if_pos hprefix)

theorem entry?_of_ne {key : List String} (h : t.entry? key ≠ some .directory) :
    t.entry? key = t.entries.lookup key := by
  unfold entry?
  rw [isPrefixOf_home_of_ne h]
  rfl

/-- A file in place of a file keeps the shape. -/
theorem sameShape_put {key : List String} {c c' : Content} (h : t.entry? key = some (.file c)) :
    SameShape t (t.put key (.file c')) := by
  have hlookup : t.entries.lookup key = some (.file c) := by
    rw [← entry?_of_ne (by simp [h]), h]
  refine ⟨home_put .., fun k => ?_⟩
  unfold entry? put
  rw [hlookup, Option.isSome_some, if_pos rfl]
  dsimp only
  split
  · rfl
  · rw [lookup_replace]
    split
    · rename_i hk
      rw [hk, hlookup]
      rfl
    · rfl

/-- A file that exists is written in its place. -/
theorem write_of_file {key : List String} {c : Content} (hkey : t.resolve p = .ok key)
    (hfile : t.entry? key = some (.file c)) (text : Text) :
    t.write p text = .ok (t.put key (.file (.text text))) := by
  unfold write
  rw [hkey]
  dsimp only
  rw [hfile]

/-- **Files that exist can be written**, and all files are still there afterwards. -/
theorem write_of_isFile (h : t.isFile p = true) (text : Text) :
    ∃ t', t.write p text = .ok t' ∧ ∀ q, t'.isFile q = t.isFile q := by
  unfold isFile find at h
  -- the path leads to a file, whose content is replaced
  cases hkey : t.resolve p with
  | error e =>
    rw [hkey] at h
    cases h
  | ok key =>
    rw [hkey] at h
    dsimp only at h
    cases hentry : t.entry? key with
    | none =>
      rw [hentry] at h
      cases h
    | some e =>
      cases e with
      | directory =>
        rw [hentry] at h
        cases h
      | file c => exact ⟨_, write_of_file hkey hentry text, (sameShape_put hentry).isFile⟩

end FileTree

end LiquidLint
