import LiquidLint.Proofs.Config.Choice
import LiquidLint.Proofs.Theme.Stored

/-!
# Loading a theme again

A theme is loaded by listing directories and reading what they list. In a proper tree no file is
listed twice and templates and JSON files are told apart by the ends of their names, so a theme that
was loaded is stored (`stored_of_load`). Saving changes does not change what is listed nor what JSON
files hold, so loading the theme again gives the one in memory (`load_of_saved`).
-/

namespace LiquidLint

/-- Results with what they were computed from. -/
theorem mapM_pair_eq_ok_iff {α β ε : Type} {f : α → Except ε β} {l : List α} {r : List (α × β)} :
    (l.mapM fun x => (f x).map (x, ·)) = .ok r ↔
      r.map (·.1) = l ∧ ∀ e ∈ r, f e.1 = .ok e.2 := by
  induction l generalizing r with
  | nil =>
    constructor
    · intro h
      obtain rfl := Except.ok.inj h
      exact ⟨rfl, by simp⟩
    · rintro ⟨hr, -⟩
      obtain rfl := List.map_eq_nil_iff.1 hr
      rfl
  | cons x l ih =>
    rw [List.mapM_cons]
    constructor
    · -- both sides fail or succeed with the first element, and the rest is the hypothesis
      intro h
      obtain ⟨e, he, hrest⟩ := exists_of_bind_eq_ok h
      obtain ⟨rest, hmap, hr⟩ := exists_of_bind_eq_ok hrest
      obtain rfl := Except.ok.inj hr
      obtain ⟨hkeys, hvalues⟩ := ih.1 hmap
      cases hx : f x with
      | error err =>
        rw [hx] at he
        cases he
      | ok y =>
        rw [hx] at he
        obtain rfl := Except.ok.inj he
        exact ⟨congrArg (x :: ·) hkeys, List.forall_mem_cons.2 ⟨hx, hvalues⟩⟩
    · rintro ⟨hkeys, hvalues⟩
      obtain ⟨e, rest, rfl, rfl, hrest⟩ := List.map_eq_cons_iff.1 hkeys
      obtain ⟨hfirst, hvalues⟩ := List.forall_mem_cons.1 hvalues
      rw [hfirst, ih.2 ⟨hrest, hvalues⟩]
      rfl

theorem mapM_congr {α β ε : Type} {f g : α → Except ε β} {l : List α} (h : ∀ x ∈ l, f x = g x) :
    l.mapM f = l.mapM g := by
  induction l with
  | nil => rfl
  | cons x l ih =>
    obtain ⟨hx, hl⟩ := List.forall_mem_cons.1 h
    rw [List.mapM_cons, List.mapM_cons, hx, ih hl]

namespace Theme

variable {theme theme' : Theme} {tree tree' : FileTree} {root p : Path} {ignore : List String}
  {directory : String} {ending : Text} {key x : List String} {K : List String → Prop}

/-! ### Listing -/

/-- The last name along the way to a file ends with `ending`. -/
def EndsWith (ending : Text) (key : List String) : Bool :=
  ((key.getLast?.map String.toList).bind (Text.dropStop? ending)).isSome

/-- **What is listed**: files below one directory whose names have the ending, if anything. -/
theorem list_cases (tree : FileTree) (directory : String) (ending : Text) :
    list tree directory ending = [] ∨
      ∃ base key, reach tree (Text.splitOn (· == '/') directory.toList) = some base ∧
        tree.resolve base = .ok key ∧ list tree directory ending =
          (((tree.filesBelow key).filter (EndsWith ending)).map (FileTree.below base)).mergeSort
            Path.le := by
  unfold list
  split
  · exact .inl rfl
  · rename_i base hreach
    split
    · exact .inl rfl
    · rename_i key hkey
      split
      · exact .inr ⟨base, key, hreach, hkey, rfl⟩
      · exact .inl rfl

/-- The key of a listed file has the ending. -/
theorem endsWith_of_mem_list (htree : tree.Proper) (hp : p ∈ list tree directory ending)
    (hx : tree.resolve p = .ok x) : EndsWith ending x = true := by
  rcases list_cases tree directory ending with hnil | ⟨base, key, -, hbase, hlist⟩
  · rw [hnil] at hp
    cases hp
  · rw [hlist, List.mem_mergeSort] at hp
    obtain ⟨k, hk, rfl⟩ := List.mem_map.1 hp
    obtain ⟨hbelow, hends⟩ := List.mem_filter.1 hk
    obtain ⟨hne, hnames⟩ := htree.of_mem_filesBelow hbelow
    rw [FileTree.eq_append_of_resolve hbase hne hnames hx]
    -- the name is the last one below the directory
    unfold EndsWith at hends ⊢
    rwa [List.getLast?_append_of_ne_nil _ hne]

/-- What holds of files with different names below one directory holds of those that are listed. -/
theorem pairwise_list_of_below {R : Path → Path → Prop} (hsymm : ∀ {p q}, R p q → R q p)
    (htree : tree.Proper) (h : ∀ base key,
      reach tree (Text.splitOn (· == '/') directory.toList) = some base →
      tree.resolve base = .ok key → ∀ names names', names ≠ names' →
      (names ≠ [] ∧ ∀ n ∈ names, Path.IsName n) → (names' ≠ [] ∧ ∀ n ∈ names', Path.IsName n) →
      R (FileTree.below base names) (FileTree.below base names')) :
    (list tree directory ending).Pairwise R := by
  rcases list_cases tree directory ending with hnil | ⟨base, key, hreach, hbase, hlist⟩
  · rw [hnil]
    exact List.Pairwise.nil
  · rw [hlist, (List.mergeSort_perm _ _).pairwise_iff hsymm, List.pairwise_map]
    have hnodup : ((tree.filesBelow key).filter (EndsWith ending)).Nodup :=
      (FileTree.nodup_filesBelow htree.nodup key).filter _
    refine List.Pairwise.imp_of_mem (fun {names names'} hn hn' hne => ?_) hnodup
    exact h base key hreach hbase names names' hne (htree.of_mem_filesBelow (List.mem_filter.1 hn).1)
      (htree.of_mem_filesBelow (List.mem_filter.1 hn').1)

/-- **No file is listed twice.** -/
theorem pairwise_list (htree : tree.Proper) (directory : String) (ending : Text) :
    (list tree directory ending).Pairwise fun p q =>
      ∀ key, tree.resolve p = .ok key → tree.resolve q ≠ .ok key := by
  refine pairwise_list_of_below (fun h key hq hp => h key hp hq) htree ?_
  rintro base key - hbase names names' hne ⟨h0, hnames⟩ ⟨h0', hnames'⟩ x hx hx'
  -- each file is found at its own key
  have h1 := FileTree.eq_append_of_resolve hbase h0 hnames hx
  have h2 := FileTree.eq_append_of_resolve hbase h0' hnames' hx'
  exact hne (List.append_cancel_left (h1.symm.trans h2))

theorem not_endsWith_json (h : EndsWith ".liquid".toList x = true) :
    EndsWith ".json".toList x = false := by
  unfold EndsWith at h ⊢
  cases hlast : x.getLast? with
  | none => rfl
  | some n =>
    rw [hlast, Option.map_some, Option.bind_some] at h
    rw [Option.map_some, Option.bind_some]
    obtain ⟨t, ht⟩ := Option.isSome_iff_exists.1 h
    have hn := Text.dropStop?_eq_some_iff.1 ht
    rw [hn]
    unfold Text.dropStop?
    rw [List.reverse_append]
    rfl

/-- The same is listed when files are rewritten. -/
theorem list_of_rewritten (htree : tree.Proper) (h : FileTree.Rewritten K tree tree')
    (directory : String) (ending : Text) :
    list tree' directory ending = list tree directory ending := by
  have hdescend : descend tree' = descend tree := by
    funext p segment
    unfold descend
    simp only [h.isDirectory, h.hasEntry]
  have hreach : reach tree' = reach tree := by
    funext segments
    unfold reach
    rw [hdescend]
  unfold list
  rw [hreach]
  simp only [h.shape.resolve, h.isDirectory, h.filesBelow htree.nodup]

/-! ### Reading -/

/-- The paths of the files that are read. -/
def kept (root : Path) (patterns : List (List Glob.Piece)) (paths : List Path) : List Path :=
  paths.filter fun p => !isIgnored patterns (p.relativeTo root)

theorem readFile_eq_ok_iff {f : SourceFile} : readFile tree root p = .ok f ↔
    tree.read p = .ok f.source ∧ f.relativePath = p.relativeTo root := by
  unfold readFile
  cases tree.read p with
  | error e => simp
  | ok source =>
    obtain ⟨path, text⟩ := f
    simp [and_comm, eq_comm]

/-- **What is read**: the kept files, with what they hold. -/
theorem readAll_eq_ok_iff {patterns : List (List Glob.Piece)} {paths : List Path}
    {files : List (Path × SourceFile)} : readAll tree root patterns paths = .ok files ↔
      files.map (·.1) = kept root patterns paths ∧
        ∀ f ∈ files, tree.read f.1 = .ok f.2.source ∧ f.2.relativePath = f.1.relativeTo root := by
  unfold readAll
  rw [mapM_pair_eq_ok_iff]
  simp only [readFile_eq_ok_iff]
  rfl

/-- Reading gives the same where all files hold the same. -/
theorem readAll_of_read {patterns : List (List Glob.Piece)} {paths : List Path}
    (h : ∀ p ∈ paths, tree'.read p = tree.read p) :
    readAll tree' root patterns paths = readAll tree root patterns paths := by
  unfold readAll
  refine mapM_congr fun p hp => ?_
  unfold readFile
  rw [h p (List.mem_of_mem_filter hp)]

/-! ### Loading -/

/-- The JSON files in one of the directories of a theme. -/
def readJson (tree : FileTree) (root : Path) (patterns : List (List Glob.Piece)) (d : String) :
    Except ThemeError (List (Path × SourceFile)) :=
  readAll tree root patterns (list tree (root.text ++ "/" ++ d) ".json".toList)

/-- What a theme holds after it was loaded, with ignore patterns that have been read. -/
structure Loaded (tree : FileTree) (root : Path) (patterns : List (List Glob.Piece))
    (theme : Theme) : Prop where
  paths : theme.templates.map (·.path) = kept root patterns (list tree root.text ".liquid".toList)
  read : ∀ t ∈ theme.templates,
    tree.read t.path = .ok t.source ∧ t.relativePath = t.path.relativeTo root
  json : ∃ json, jsonDirectories.mapM (readJson tree root patterns) = .ok json ∧
    theme.jsonFiles = (json.flatten.map fun f => JsonFile.mk f.2).mergeSort fun a b =>
      fileLe a.toSourceFile b.toSourceFile
  root : theme.root = root

/-- **What loading a theme gives.** -/
theorem load_eq_ok_iff : load tree root ignore = .ok theme ↔
    ∃ patterns, (ignore.mapM fun p => (Glob.parse p.toList).mapError ThemeError.glob) = .ok patterns ∧
      Loaded tree root patterns theme := by
  unfold load
  rw [mapM_congr (g := fun p => (Glob.parse p.toList).mapError ThemeError.glob) fun p _ => by
    cases Glob.parse p.toList <;> rfl]
  constructor
  · intro h
    obtain ⟨patterns, hignore, h⟩ := exists_of_bind_eq_ok h
    obtain ⟨files, hfiles, h⟩ := exists_of_bind_eq_ok h
    obtain ⟨json, hjson, h⟩ := exists_of_bind_eq_ok h
    obtain rfl := Except.ok.inj h
    obtain ⟨hpaths, hread⟩ := readAll_eq_ok_iff.1 hfiles
    refine ⟨patterns, hignore, ?_, fun t ht => ?_, ⟨json, hjson, rfl⟩, rfl⟩
    · rw [← hpaths, List.map_map]
      rfl
    · obtain ⟨f, hf, rfl⟩ := List.mem_map.1 ht
      exact hread f hf
  · rintro ⟨patterns, hignore, hpaths, hread, ⟨json, hjson, hjsonFiles⟩, hroot⟩
    have hfiles : readAll tree root patterns (list tree root.text ".liquid".toList) =
        .ok (theme.templates.map fun t => (t.path, t.toSourceFile)) := by
      refine readAll_eq_ok_iff.2 ⟨?_, fun f hf => ?_⟩
      · rw [← hpaths, List.map_map]
        rfl
      · obtain ⟨t, ht, rfl⟩ := List.mem_map.1 hf
        exact hread t ht
    refine bind_eq_ok hignore (bind_eq_ok hfiles (bind_eq_ok hjson (congrArg Except.ok ?_)))
    obtain ⟨_, templates, _⟩ := theme
    obtain rfl := hroot
    obtain rfl := hjsonFiles
    -- taking the templates apart and putting them together again changes nothing
    rw [List.map_map]
    exact congrArg (fun ts => Theme.mk _ ts _) (List.map_id templates)

/-- **A theme that was loaded is stored.** -/
theorem stored_of_load (htree : tree.Proper) (h : load tree root ignore = .ok theme) :
    theme.Stored tree := by
  obtain ⟨patterns, -, hloaded⟩ := load_eq_ok_iff.1 h
  refine ⟨fun t ht => (hloaded.read t ht).1, ?_⟩
  unfold OwnFiles
  rw [hloaded.paths]
  exact (pairwise_list htree _ _).filter _

/-- The templates of a loaded theme are where templates are. -/
theorem Loaded.endsWith {patterns : List (List Glob.Piece)} (htree : tree.Proper)
    (h : Loaded tree root patterns theme) (hkey : theme.At tree key) :
    EndsWith ".liquid".toList key = true := by
  obtain ⟨p, hp, hresolve⟩ := hkey
  rw [h.paths] at hp
  exact endsWith_of_mem_list htree (List.mem_of_mem_filter hp) hresolve

/-- **Loading a saved theme again** gives the theme that was saved. -/
theorem load_of_saved (htree : tree.Proper) (h : load tree root ignore = .ok theme)
    (hsaved : Saved theme tree theme' tree') : load tree' root ignore = .ok theme' := by
  obtain ⟨patterns, hignore, hloaded⟩ := load_eq_ok_iff.1 h
  have hlist := list_of_rewritten htree hsaved.rewritten
  refine load_eq_ok_iff.2 ⟨patterns, hignore, ?_, fun t ht => ⟨?_, ?_⟩, ?_, ?_⟩
  · rw [hsaved.files.paths, hloaded.paths, hlist]
  · exact hsaved.stored.read t ht
  · -- the file of a template goes by the same name as before
    have hmem : (t.path, t.relativePath) ∈
        theme.templates.map fun t => (t.path, t.relativePath) := by
      rw [← hsaved.files.templates]
      exact List.mem_map.2 ⟨t, ht, rfl⟩
    obtain ⟨u, hu, heq⟩ := List.mem_map.1 hmem
    obtain ⟨hpath, hrelative⟩ := Prod.mk.inj heq
    rw [← hrelative, ← hpath]
    exact (hloaded.read u hu).2
  · obtain ⟨json, hjson, hjsonFiles⟩ := hloaded.json
    refine ⟨json, ?_, hsaved.files.jsonFiles.trans hjsonFiles⟩
    rw [← hjson]
    refine mapM_congr fun d _ => ?_
    unfold readJson
    rw [hlist]
    refine readAll_of_read fun p hp => hsaved.rewritten.read fun key hkey hat => ?_
    -- no JSON file is a template
    have hends := endsWith_of_mem_list htree hp hkey
    rw [not_endsWith_json (hloaded.endsWith htree hat)] at hends
    cases hends
  · rw [hsaved.files.root, hloaded.root]

end Theme

end LiquidLint
