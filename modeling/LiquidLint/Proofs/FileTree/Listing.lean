import LiquidLint.Proofs.FileTree.Content
import LiquidLint.Proofs.Path.Join
import Mathlib.Data.List.Nodup

/-!
# Trees with the same files

Writing to files that exist changes what they hold and nothing else. `Rewritten` says so of two trees
and of the keys at which something may have changed: paths name the same keys as before, directories
have the same files below them, and files at other keys are read as before.

Trees that are made of named files, one by one, are proper (`Proper.create`): no key is there twice,
and names have no slashes. In such a tree the files below a directory are found where their names say
(`eq_append_of_resolve`).
-/

namespace LiquidLint.FileTree

variable {t t' t'' : FileTree} {p q base : Path} {key k x : List String} {c c' : Content}
  {K : List String → Prop}

/-! ### Proper trees -/

/-- The keys of a tree, in order. -/
def keys (t : FileTree) : List (List String) := t.entries.map (·.1)

/-- No key is there twice, and the names on the way to a file are names. -/
structure Proper (t : FileTree) : Prop where
  nodup : t.keys.Nodup
  isName : ∀ key ∈ t.keys, ∀ n ∈ key, Path.IsName n

instance (t : FileTree) : Decidable t.Proper :=
  decidable_of_iff (t.keys.Nodup ∧ ∀ key ∈ t.keys, ∀ n ∈ key, Path.IsName n)
    ⟨fun ⟨hnodup, hname⟩ => ⟨hnodup, hname⟩, fun h => ⟨h.nodup, h.isName⟩⟩

theorem keys_put_of_isSome (h : (t.entries.lookup key).isSome = true) (e : Entry) :
    (t.put key e).keys = t.keys := by
  unfold keys put
  rw [if_pos h, List.map_map]
  refine List.map_congr_left fun old _ => ?_
  show (if old.1 = key then (old.1, e) else (old.1, old.2)).1 = old.1
  split <;> rfl

theorem proper_empty : empty.Proper := ⟨List.nodup_nil, by simp [keys, empty]⟩

theorem Proper.put (h : t.Proper) (hnames : ∀ n ∈ key, Path.IsName n) (e : Entry) :
    (t.put key e).Proper := by
  by_cases hsome : (t.entries.lookup key).isSome = true
  · have hkeys := keys_put_of_isSome hsome e
    exact ⟨hkeys ▸ h.nodup, hkeys ▸ h.isName⟩
  · have hkeys : (t.put key e).keys = t.keys ++ [key] := by
      unfold keys FileTree.put
      rw [if_neg hsome, List.map_append]
      rfl
    have hnew : key ∉ t.keys := by
      intro hmem
      obtain ⟨old, hold, heq⟩ := List.mem_map.1 hmem
      have hnone := List.lookup_eq_none_iff.1 (Option.not_isSome_iff_eq_none.1 hsome) old hold
      simp [heq] at hnone
    refine ⟨?_, ?_⟩
    · rw [hkeys, List.nodup_append]
      refine ⟨h.nodup, List.pairwise_singleton _ _, ?_⟩
      rintro k hk _ hmem rfl
      exact hnew (List.mem_singleton.1 hmem ▸ hk)
    · intro k hk
      rcases List.mem_append.1 (hkeys ▸ hk) with hk | hk
      · exact h.isName k hk
      · rw [List.mem_singleton.1 hk]
        exact hnames

/-- **Trees made of named files**, one by one, are proper. -/
theorem Proper.create (h : t.Proper) (hnames : ∀ n ∈ key, Path.IsName n) (e : Entry) :
    (t.create key e).Proper := by
  have hfold : ∀ (ds : List (List String)) (t : FileTree), (∀ d ∈ ds, ∀ n ∈ d, Path.IsName n) →
      t.Proper → (ds.foldl
        (fun t d => if (t.entry? d).isSome then t else t.put d .directory) t).Proper := by
    intro ds
    induction ds with
    | nil => exact fun t _ ht => ht
    | cons d ds ih =>
      intro t hds ht
      obtain ⟨hd, hds⟩ := List.forall_mem_cons.1 hds
      rw [List.foldl_cons]
      apply ih _ hds
      split
      · exact ht
      · exact ht.put hd .directory
  refine (hfold _ t (fun d hd n hn => ?_) h).put hnames e
  -- the directories on the way have some of the names
  obtain ⟨i, -, rfl⟩ := List.mem_map.1 hd
  exact hnames n (List.mem_of_mem_take hn)

theorem lookup_of_mem (hnodup : t.keys.Nodup) {e : Entry} (h : (key, e) ∈ t.entries) :
    t.entries.lookup key = some e := by
  unfold keys at hnodup
  induction ht : t.entries generalizing t with
  | nil =>
    rw [ht] at h
    cases h
  | cons first rest ih =>
    rw [ht] at h hnodup
    obtain ⟨hfirst, hrest⟩ := List.nodup_cons.1 hnodup
    rcases List.mem_cons.1 h with rfl | h
    · simp
    · have hne : (key == first.1) = false := by
        rw [beq_eq_false_iff_ne]
        rintro rfl
        exact hfirst (List.mem_map.2 ⟨_, h, rfl⟩)
      rw [List.lookup_cons, hne]
      exact ih (t := { t with entries := rest }) hrest h rfl

/-- Whether a key is that of a file. -/
def hasFile (t : FileTree) (key : List String) : Bool :=
  (t.entry? key).map Entry.isDirectory == some false

/-- The files below a directory, by their keys. -/
theorem filesBelow_eq (hnodup : t.keys.Nodup) (key : List String) :
    t.filesBelow key = t.keys.filterMap fun k =>
      if t.hasFile k ∧ key.isPrefixOf k ∧ key.length < k.length then some (k.drop key.length)
      else none := by
  unfold filesBelow files keys
  rw [List.filterMap_filterMap, List.filterMap_map]
  refine List.filterMap_congr fun e he => ?_
  obtain ⟨k, entry⟩ := e
  by_cases habove : k.isPrefixOf t.home = true
  · -- the working directory and those above it are no files
    have hentry : t.entry? k = some .directory := if_pos habove
    cases entry with
    | directory => simp [hasFile, hentry, Entry.isDirectory]
    | file c =>
      dsimp only [Function.comp_apply]
      rw [if_pos habove]
      simp [hasFile, hentry, Entry.isDirectory]
  · have hentry : t.entry? k = some entry := by
      unfold entry?
      rw [if_neg habove]
      exact lookup_of_mem hnodup he
    cases entry with
    | directory => simp [hasFile, hentry, Entry.isDirectory]
    | file c =>
      dsimp only [Function.comp_apply]
      rw [if_neg habove]
      simp [hasFile, hentry, Entry.isDirectory]

theorem nodup_filesBelow (hnodup : t.keys.Nodup) (key : List String) :
    (t.filesBelow key).Nodup := by
  rw [filesBelow_eq hnodup]
  refine List.Nodup.filterMap (fun k k' m hk hk' => ?_) hnodup
  -- two keys with the same rest below `key` are the same
  have hsplit : ∀ k : List String, m ∈ (if t.hasFile k ∧ key.isPrefixOf k ∧
      key.length < k.length then some (k.drop key.length) else none) → k = key ++ m := by
    intro k hk
    rw [Option.mem_def] at hk
    split at hk
    · rename_i hbelow
      obtain ⟨rest, rfl⟩ := List.isPrefixOf_iff_prefix.1 hbelow.2.1
      rw [List.drop_left] at hk
      rw [Option.some.inj hk]
    · cases hk
  rw [hsplit k hk, hsplit k' hk']

/-- What is listed below a directory has names. -/
theorem Proper.of_mem_filesBelow (h : t.Proper) (hk : k ∈ t.filesBelow key) :
    k ≠ [] ∧ ∀ n ∈ k, Path.IsName n := by
  rw [filesBelow_eq h.nodup] at hk
  obtain ⟨full, hfull, hif⟩ := List.mem_filterMap.1 hk
  split at hif
  · rename_i hbelow
    obtain rfl := Option.some.inj hif
    refine ⟨?_, fun n hn => h.isName full hfull n (List.mem_of_mem_drop hn)⟩
    intro hnil
    have hlength := List.drop_eq_nil_iff.1 hnil
    omega
  · cases hif

/-! ### Following names -/

theorem follow_append (t : FileTree) (here : List String) (cs ds : List Path.Component) :
    t.follow here (cs ++ ds) = (t.follow here cs).bind fun mid => t.follow mid ds := by
  generalize hnext : (fun mid => t.follow mid ds) = next
  induction cs generalizing here with
  | nil => exact congrFun hnext here
  | cons c cs ih =>
    rw [List.cons_append]
    unfold follow
    split
    · rfl
    · rfl
    · split
      · exact ih []
      · exact ih here
      · exact ih here.dropLast
      · rename_i n
        exact ih (here ++ [n])

/-- What a single component does: it leads from one directory to another, or to a file. -/
inductive Moves (here : List String) : Path.Component → List String → Prop where
  | root : Moves here .root []
  | here : Moves here .here here
  | up : Moves here .up here.dropLast
  | name (n : String) : Moves here (.name n) (here ++ [n])

/-- The last component of a path starts from a directory. -/
theorem follow_concat_iff {here : List String} {cs : List Path.Component} {c : Path.Component} :
    t.follow here (cs ++ [c]) = .ok k ↔ ∃ mid, t.follow here cs = .ok mid ∧
      t.entry? mid = some .directory ∧ Moves mid c k := by
  have hlast (mid : List String) : t.follow mid [c] = .ok k ↔
      t.entry? mid = some .directory ∧ Moves mid c k := by
    constructor
    · intro h
      unfold follow at h
      split at h
      · cases h
      · cases h
      rename_i hdirectory
      refine ⟨hdirectory, ?_⟩
      cases c with
      | root =>
        obtain rfl := Except.ok.inj h
        exact .root
      | here =>
        obtain rfl := Except.ok.inj h
        exact .here
      | up =>
        obtain rfl := Except.ok.inj h
        exact .up
      | name n =>
        obtain rfl := Except.ok.inj h
        exact .name n
    · rintro ⟨hdirectory, hmove⟩
      unfold follow
      rw [hdirectory]
      cases hmove <;> rfl
  rw [follow_append]
  cases t.follow here cs with
  | error e => simp [Except.bind]
  | ok mid => simp [Except.bind, hlast]

/-- What is above the working directory is a directory. -/
theorem directory_above_home (h : key <+: t.home) : t.entry? key = some .directory :=
  if_pos (List.isPrefixOf_iff_prefix.2 h)

/-- A path leads through directories. -/
theorem directory_of_follow {here : List String} {cs : List Path.Component}
    (hhere : ∀ j < here.length, t.entry? (here.take j) = some .directory)
    (h : t.follow here cs = .ok k) : ∀ j < k.length, t.entry? (k.take j) = some .directory := by
  -- along the components, the last of which is taken off
  induction cs using List.reverseRecOn generalizing k with
  | nil =>
    obtain rfl := Except.ok.inj h
    exact hhere
  | append_singleton cs c ih =>
    obtain ⟨mid, hmid, hdirectory, hmove⟩ := follow_concat_iff.1 h
    have hbefore := ih hmid
    cases hmove with
    | root => exact fun j hj => absurd hj (Nat.not_lt_zero j)
    | here => exact hbefore
    -- above a directory are the directories that were above it
    | up =>
      intro j hj
      rw [List.length_dropLast] at hj
      rw [List.dropLast_eq_take, List.take_take, Nat.min_eq_left (by omega)]
      exact hbefore j (by omega)
    -- below a directory one more is on the way, which is that directory
    | name n =>
      intro j hj
      rw [List.length_append, List.length_singleton] at hj
      rw [List.take_append_of_le_length (by omega)]
      by_cases hlast : j = mid.length
      · rw [hlast, List.take_length]
        exact hdirectory
      · exact hbefore j (by omega)

/-- What it means that a path names a file. -/
theorem isFile_iff : t.isFile p = true ↔ p.text.isEmpty = false ∧ namesDirectory p = false ∧
    ∃ k c, t.follow t.home p.components = .ok k ∧ t.entry? k = some (.file c) := by
  unfold isFile find
  constructor
  · -- what is found is a file, so the path does not ask for a directory
    intro h
    cases hresolve : t.resolve p with
    | error e =>
      rw [hresolve] at h
      cases h
    | ok k =>
      rw [hresolve] at h
      obtain ⟨hempty, hfollow, hnames⟩ := resolve_eq_ok_iff.1 hresolve
      dsimp only at h
      cases hentry : t.entry? k with
      | none =>
        rw [hentry] at h
        cases h
      | some e =>
        rw [hentry] at h
        cases e with
        | directory => cases h
        | file c => exact ⟨hempty, hnames ⟨c, hentry⟩, k, c, hfollow, hentry⟩
  · rintro ⟨hempty, hnames, k, c, hfollow, hentry⟩
    rw [resolve_eq_ok_iff.2 ⟨hempty, hfollow, fun _ => hnames⟩]
    dsimp only
    rw [hentry]

/-- Paths of one file: from the working directory, from the top, and up beyond the top. -/
example :
    let t : FileTree :=
      { entries := [(["w"], .directory), (["w", "a"], .file (.text []))], home := ["w"] }
    ["a", "./a", "/w/a", "../../w/a"].map (fun p => t.isFile ⟨p⟩) = [true, true, true, true] := by
  decide +kernel

/-- Names lead down to themselves. -/
theorem eq_append_of_follow {names here : List String}
    (h : t.follow here (names.map .name) = .ok x) : x = here ++ names := by
  induction names generalizing here with
  | nil =>
    obtain rfl := Except.ok.inj h
    exact (List.append_nil _).symm
  | cons n names ih =>
    rw [List.map_cons, follow] at h
    split at h
    · cases h
    · cases h
    · rw [ih h]
      simp

/-- The path of what is listed below a directory. -/
def below (base : Path) (names : List String) : Path :=
  let name : Path := ⟨keyText names⟩
  if base.text = "." then name else base.join name

/-- **What is listed below a directory is found there.** -/
theorem eq_append_of_resolve (hbase : t.resolve base = .ok key) {names : List String}
    (hne : names ≠ []) (hnames : ∀ n ∈ names, Path.IsName n)
    (h : t.resolve (below base names) = .ok x) : x = key ++ names := by
  obtain ⟨hempty, hfollow, -⟩ := resolve_eq_ok_iff.1 hbase
  obtain ⟨-, hx, -⟩ := resolve_eq_ok_iff.1 h
  unfold below at hx
  dsimp only at hx
  split at hx
  · rename_i hdot
    -- the working directory leaves no trace in the path
    have hkey : t.home = key := by
      have hcomponents : base.components = [.here] := by
        rw [show base = ⟨"."⟩ from congrArg Path.mk hdot]
        rfl
      rw [hcomponents, follow, entry?_home] at hfollow
      exact Except.ok.inj hfollow
    have hcomponents : (Path.mk (keyText names)).components = names.map .name :=
      Path.components_ofNames hne hnames
    rw [hcomponents] at hx
    rw [← hkey]
    exact eq_append_of_follow hx
  · have hcomponents : (base.join ⟨keyText names⟩).components = base.components ++ names.map .name :=
      Path.components_join hempty hne hnames
    rw [hcomponents, follow_append, hfollow] at hx
    exact eq_append_of_follow hx

/-! ### Rewriting files -/

/-- One tree is another with new texts in files, at some of the keys `K`. -/
structure Rewritten (K : List String → Prop) (t t' : FileTree) : Prop where
  keys : t'.keys = t.keys
  shape : SameShape t t'
  kept : ∀ key, ¬ K key → t'.entry? key = t.entry? key

theorem Rewritten.refl (K : List String → Prop) (t : FileTree) : Rewritten K t t :=
  ⟨rfl, .refl t, fun _ _ => rfl⟩

theorem Rewritten.trans (h : Rewritten K t t') (h' : Rewritten K t' t'') : Rewritten K t t'' := by
  refine ⟨h'.keys.trans h.keys, h.shape.trans h'.shape, fun key hkey => ?_⟩
  rw [h'.kept key hkey, h.kept key hkey]

/-- A file in place of a file. -/
theorem rewritten_put (hkey : K key) (h : t.entry? key = some (.file c)) :
    Rewritten K t (t.put key (.file c')) := by
  have hdir : t.entry? key ≠ some .directory := by simp [h]
  have hsome : (t.entries.lookup key).isSome = true := by
    rw [← entry?_of_ne hdir, h]
    rfl
  refine ⟨?_, sameShape_put h, fun k hk => entry?_put_of_ne hdir _ ?_⟩
  · exact keys_put_of_isSome hsome _
  · rintro rfl
    exact hk hkey

namespace Rewritten

theorem hasFile (h : Rewritten K t t') (key : List String) : t'.hasFile key = t.hasFile key := by
  unfold FileTree.hasFile
  rw [h.shape.kind key]

/-- Directories have the same files below them. -/
theorem filesBelow (h : Rewritten K t t') (hnodup : t.keys.Nodup) (key : List String) :
    t'.filesBelow key = t.filesBelow key := by
  rw [filesBelow_eq hnodup, filesBelow_eq (h.keys ▸ hnodup), h.keys]
  refine List.filterMap_congr fun k _ => ?_
  rw [h.hasFile]

/-- Files at other keys are read as before, if they can be read at all. -/
theorem read (h : Rewritten K t t') (hp : ∀ key, t.resolve p = .ok key → ¬ K key) :
    t'.read p = t.read p := by
  unfold FileTree.read find
  rw [h.shape.resolve]
  cases hresolve : t.resolve p with
  | error e => rfl
  | ok key =>
    dsimp only
    rw [h.kept key (hp key hresolve)]

theorem hasEntry (h : Rewritten K t t') (p : Path) : t'.hasEntry p = t.hasEntry p := by
  unfold FileTree.hasEntry find
  rw [h.shape.resolve]
  cases t.resolve p with
  | error e => rfl
  | ok key =>
    dsimp only
    rcases h.shape.cases key with ⟨h1, h2⟩ | ⟨h1, h2⟩ | ⟨_, _, h1, h2⟩
    · rw [h1, h2]
    · rw [h1, h2]
    · rw [h1, h2]
      rfl

theorem isDirectory (h : Rewritten K t t') (p : Path) : t'.isDirectory p = t.isDirectory p := by
  unfold FileTree.isDirectory find
  rw [h.shape.resolve]
  cases t.resolve p with
  | error e => rfl
  | ok key =>
    dsimp only
    rcases h.shape.cases key with ⟨h1, h2⟩ | ⟨h1, h2⟩ | ⟨_, _, h1, h2⟩ <;> rw [h1, h2]

end Rewritten

end LiquidLint.FileTree
