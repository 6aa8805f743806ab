import LiquidLint.Proofs.Config.Choice
import LiquidLint.Proofs.FileTree.Listing
import LiquidLint.Proofs.Path.Ancestors
import LiquidLint.Regex.Parse
import Mathlib.Data.List.Find

/-!
# The nearest settings file

Settings are searched in the directory where a run starts and in those above it (`Path.IsChain`). The
first file that is there decides (`SettingsSource.finds_nearest?`), so files in other directories and in
those further up do not matter, whether they come, go or change (`SettingsSource.nearest?_congr`,
`SettingsSource.resolve_of_changedElsewhere`). Paths in the settings are seen from the directory where
they were found. It is read off from the path of the settings file, but has the same components
(`SettingsSource.components_baseDirectory`), and so has everything that is joined to it.
-/

namespace LiquidLint

/-! ### Files in trees -/

/-- What is no directory is named by a name, and stands in the directory that the parent leads to. -/
theorem FileTree.exists_parent_of_follow {tree : FileTree} {dir : List String} {n : String} {p : Path}
    (h : tree.follow tree.home p.components = .ok (dir ++ [n]))
    (hfile : tree.entry? (dir ++ [n]) ≠ some .directory) :
    ∃ q, p.parent? = some q ∧ q.IsParent p ∧ tree.follow tree.home q.components = .ok dir := by
  rcases Path.parent?_cases p with ⟨-, hnil | hroot⟩ | ⟨q, hq, hparent⟩
  · rw [hnil] at h
    rw [← Except.ok.inj h] at hfile
    exact absurd tree.entry?_home hfile
  · rw [hroot, follow, entry?_home] at h
    exact absurd (Except.ok.inj h).symm (by simp)
  · refine ⟨q, hq, hparent, ?_⟩
    rw [← List.dropLast_concat_getLast hparent.ne_nil, ← hparent.components] at h
    obtain ⟨mid, hmid, hdirectory, hmove⟩ := follow_concat_iff.1 h
    generalize hc : p.components.getLast hparent.ne_nil = c at hmove
    generalize hkey : dir ++ [n] = key at hmove hfile
    -- a dot or two dots lead to a directory
    cases hmove with
    | root => exact absurd (directory_above_home List.nil_prefix) hfile
    | here => exact absurd hdirectory hfile
    | up =>
      by_cases hnil : mid = []
      · rw [hnil] at hfile
        exact absurd (directory_above_home List.nil_prefix) hfile
      have hpos := List.length_pos_iff.2 hnil
      have hup := directory_of_follow (fun j _ => directory_above_home <| List.take_prefix j _) hmid
        (mid.length - 1) (by omega)
      rw [← List.dropLast_eq_take] at hup
      exact absurd hup hfile
    | name m =>
      obtain ⟨rfl, -⟩ := List.append_inj' hkey rfl
      exact hmid

namespace SettingsSource

variable {isFile isFile' : Path → Bool} {start d : Path} {near far : List Path}
  {tree tree' : FileTree}

/-! ### Candidates -/

theorem candidate_eq (d : Path) : candidate d = d.join (Path.ofNames [fileName]) := rfl

/-- The settings file of a directory has its name behind the components of the directory. -/
theorem components_candidate (d : Path) :
    (candidate d).components = d.components ++ [.name fileName] := by
  have hname : ∀ n ∈ [fileName], Path.IsName n := by decide
  rw [candidate_eq]
  by_cases hempty : d.text.isEmpty = true
  · have hnil := Path.components_eq_nil_iff.2 hempty
    unfold Path.join
    rw [hempty, Bool.or_true, if_pos rfl, hnil, Path.components_ofNames (List.cons_ne_nil _ _) hname]
    rfl
  · rw [Bool.not_eq_true] at hempty
    exact Path.components_join hempty (List.cons_ne_nil _ _) hname

theorem exists_text_candidate (d : Path) : ∃ s, (candidate d).text.toList = s ++ fileName.toList := by
  by_cases hempty : d.text.isEmpty = true
  · refine ⟨[], ?_⟩
    unfold candidate Path.join
    rw [hempty, Bool.or_true, if_pos rfl, List.nil_append]
  · rw [Bool.not_eq_true] at hempty
    obtain ⟨s, hs, -⟩ := Path.exists_text_join hempty (q := ⟨fileName⟩) rfl
    exact ⟨s ++ ['/'], by rw [candidate, hs, List.append_assoc]; rfl⟩

theorem isFile_candidate_iff : tree.isFile (candidate d) = true ↔ ∃ dir c,
    tree.follow tree.home d.components = .ok dir ∧ tree.entry? dir = some .directory ∧
      tree.entry? (dir ++ [fileName]) = some (.file c) := by
  obtain ⟨s, hs⟩ := exists_text_candidate d
  -- the path ends with the name of the settings file, so it is not empty and asks for no directory
  have hempty : (candidate d).text.isEmpty = false := by
    rw [Bool.eq_false_iff, ne_eq, String.isEmpty_iff, ← String.toList_eq_nil_iff, hs]
    simp [fileName]
  have hnames : FileTree.namesDirectory (candidate d) = false := by
    unfold FileTree.namesDirectory
    rw [hs, List.reverse_append]
    rfl
  rw [FileTree.isFile_iff, components_candidate]
  constructor
  · rintro ⟨-, -, k, c, hfollow, hentry⟩
    obtain ⟨dir, hdir, hdirectory, hmove⟩ := FileTree.follow_concat_iff.1 hfollow
    cases hmove
    exact ⟨dir, c, hdir, hdirectory, hentry⟩
  · rintro ⟨dir, c, hfollow, hdirectory, hentry⟩
    refine ⟨hempty, hnames, dir ++ [fileName], c, ?_, hentry⟩
    exact FileTree.follow_concat_iff.2 ⟨dir, hfollow, hdirectory, .name fileName⟩

/-! ### Searches -/

/-- What a search in some directories finds: the file of the first directory that has one. -/
def Finds (isFile : Path → Bool) (dirs : List Path) : Option Path → Prop
  | some f => ∃ near d far, dirs = near ++ d :: far ∧ f = candidate d ∧ isFile f = true ∧
      ∀ e ∈ near, isFile (candidate e) = false
  | none => ∀ d ∈ dirs, isFile (candidate d) = false

/-- **The nearest file is found.** -/
theorem finds_nearest? (isFile : Path → Bool) (start : Path) :
    Finds isFile (searched isFile start) (nearest? isFile start) := by
  unfold nearest?
  rw [List.find?_map]
  cases hfind : (searched isFile start).find? (isFile ∘ candidate) with
  | none =>
    intro d hd
    simpa using List.find?_eq_none.1 hfind d hd
  | some d =>
    obtain ⟨hfile, near, far, hdirs, hnear⟩ := List.find?_eq_some_iff_append.1 hfind
    exact ⟨near, d, far, hdirs, rfl, hfile, fun e he => by simpa using hnear e he⟩

/-- Whether nothing behind the directories `near` matters to a search: there is a file in one of them,
or there are no further directories. -/
def Suffices (isFile : Path → Bool) (near far : List Path) : Prop :=
  (∃ d ∈ near, isFile (candidate d) = true) ∨ far = []

/-- **Only the directories up to the one that is found matter.** -/
theorem nearest?_congr (hstart : isFile' start = isFile start)
    (hdirs : searched isFile start = near ++ far) (hnear : Suffices isFile near far)
    (h : ∀ d ∈ near, isFile' (candidate d) = isFile (candidate d)) :
    nearest? isFile' start = nearest? isFile start := by
  have hsearched : searched isFile' start = searched isFile start := by
    unfold searched startDirectory
    rw [hstart]
  have hsame : near.find? (isFile' ∘ candidate) = near.find? (isFile ∘ candidate) :=
    List.find?_congr h
  unfold nearest?
  rw [hsearched, hdirs, List.find?_map, List.find?_map, List.find?_append, List.find?_append, hsame]
  rcases hnear with ⟨d, hd, hfile⟩ | rfl
  · have hsome : (near.find? (isFile ∘ candidate)).isSome = true := List.find?_isSome.2 ⟨d, hd, hfile⟩
    rw [Option.or_of_isSome hsome, Option.or_of_isSome hsome]
  · rfl

/-- A directory before which nothing is found has to be searched. -/
theorem Suffices.mem (h : Suffices isFile near far) {front rest : List Path}
    (hdirs : near ++ far = front ++ d :: rest) (hfront : ∀ e ∈ front, isFile (candidate e) = false) :
    d ∈ near := by
  have hnone : ∀ e ∈ front, ¬ isFile (candidate e) = true := by
    intro e he
    rw [hfront e he]
    exact Bool.false_ne_true
  -- `near` ends before `d` or behind it, and in the first case it is a part of `front`
  rcases List.append_eq_append_iff.1 hdirs with ⟨middle, rfl, rfl⟩ | ⟨middle, rfl, hrest⟩
  · rcases h with ⟨e, he, hfile⟩ | hnil
    · exact absurd hfile (hnone e (List.mem_append_left _ he))
    · exact absurd hnil (by simp)
  · cases middle with
    | nil =>
      rcases h with ⟨e, he, hfile⟩ | rfl
      · rw [List.append_nil] at he
        exact absurd hfile (hnone e he)
      · cases hrest
    | cons e middle =>
      rw [(List.cons.inj hrest).1]
      exact List.mem_append_right _ List.mem_cons_self

/-- A start that is a settings file, or could become one, stands in a directory that is searched. -/
theorem exists_mem_near (hdirs : searched tree.isFile start = near ++ far)
    (hnear : Suffices tree.isFile near far) {dir : List String}
    (hstart : tree.follow tree.home start.components = .ok (dir ++ [fileName]))
    (hfile : tree.entry? (dir ++ [fileName]) ≠ some .directory) :
    ∃ d ∈ near, tree.follow tree.home d.components = .ok dir := by
  obtain ⟨q, hq, hparent, hfollow⟩ := FileTree.exists_parent_of_follow hstart hfile
  refine ⟨q, ?_, hfollow⟩
  by_cases hs : tree.isFile start = true
  · have hsearched : searched tree.isFile start = q.ancestors := by
      unfold searched startDirectory
      rw [if_pos hs, hq]
      rfl
    exact hnear.mem (hdirs.symm.trans hsearched) (List.forall_mem_nil _)
  · have hsearched : searched tree.isFile start = [start] ++ q.ancestors := by
      unfold searched startDirectory
      rw [if_neg hs]
      exact Path.ancestors_of_some hq hparent
    -- the start itself is no directory, and so the search goes on
    have hno : tree.isFile (candidate start) = false := by
      rw [Bool.eq_false_iff]
      intro hyes
      obtain ⟨dir', c, hdir', hdirectory, -⟩ := isFile_candidate_iff.1 hyes
      obtain rfl := Except.ok.inj (hstart.symm.trans hdir')
      exact hfile hdirectory
    exact hnear.mem (hdirs.symm.trans hsearched) fun e he => by rwa [List.mem_singleton.1 he]

/-! ### Changes elsewhere -/

/-- What it means that settings files come, go or change in directories other than those of `near`, and
nothing else happens. -/
structure ChangedElsewhere (near : List Path) (tree tree' : FileTree) : Prop where
  home : tree'.home = tree.home
  entry : ∀ key, tree'.entry? key = tree.entry? key ∨ ∃ dir, key = dir ++ [fileName] ∧
    tree.entry? key ≠ some .directory ∧ tree'.entry? key ≠ some .directory ∧
      ∀ d ∈ near, tree.follow tree.home d.components ≠ .ok dir

namespace ChangedElsewhere

variable {k : List String} {cs : List Path.Component}

theorem directory_iff (h : ChangedElsewhere near tree tree') (key : List String) :
    tree'.entry? key = some .directory ↔ tree.entry? key = some .directory := by
  rcases h.entry key with hsame | ⟨dir, -, hdir, hdir', -⟩
  · rw [hsame]
  · exact iff_of_false hdir' hdir

theorem follow_iff (h : ChangedElsewhere near tree tree') :
    tree'.follow tree'.home cs = .ok k ↔ tree.follow tree.home cs = .ok k := by
  rw [h.home]
  exact FileTree.follow_of_directories h.directory_iff tree.home cs

theorem isFile_candidate (h : ChangedElsewhere near tree tree') (hd : d ∈ near) :
    tree'.isFile (candidate d) = tree.isFile (candidate d) := by
  have hentry : ∀ dir, tree.follow tree.home d.components = .ok dir →
      tree'.entry? (dir ++ [fileName]) = tree.entry? (dir ++ [fileName]) := by
    intro dir hfollow
    rcases h.entry (dir ++ [fileName]) with hsame | ⟨dir', hkey, -, -, hother⟩
    · exact hsame
    · rw [(List.append_inj' hkey rfl).1] at hfollow
      exact absurd hfollow (hother d hd)
  rw [Bool.eq_iff_iff, isFile_candidate_iff, isFile_candidate_iff]
  refine exists_congr fun dir => exists_congr fun c => ?_
  rw [h.follow_iff, h.directory_iff]
  refine and_congr_right fun hfollow => ?_
  rw [hentry dir hfollow]

/-- The start is a file as before: if it is a settings file, then it is in the first directory that is
searched. -/
theorem isFile_start (h : ChangedElsewhere near tree tree')
    (hdirs : searched tree.isFile start = near ++ far) (hnear : Suffices tree.isFile near far) :
    tree'.isFile start = tree.isFile start := by
  have hentry : ∀ k, tree.follow tree.home start.components = .ok k →
      tree'.entry? k = tree.entry? k := by
    intro k hk
    rcases h.entry k with hsame | ⟨dir, rfl, hdir, -, hother⟩
    · exact hsame
    · obtain ⟨d, hd, hfollow⟩ := exists_mem_near hdirs hnear hk hdir
      exact absurd hfollow (hother d hd)
  rw [Bool.eq_iff_iff, FileTree.isFile_iff, FileTree.isFile_iff]
  refine and_congr_right fun _ => and_congr_right fun _ => ?_
  refine exists_congr fun k => exists_congr fun c => ?_
  rw [h.follow_iff]
  refine and_congr_right fun hfollow => ?_
  rw [hentry k hfollow]

end ChangedElsewhere

/-- **Settings files elsewhere do not matter.** -/
theorem resolve_of_changedElsewhere (hdirs : searched tree.isFile start = near ++ far)
    (hnear : Suffices tree.isFile near far) (h : ChangedElsewhere near tree tree') :
    resolve tree' start none = resolve tree start none := by
  unfold resolve
  rw [nearest?_congr (h.isFile_start hdirs hnear) hdirs hnear fun d hd => h.isFile_candidate hd]

/-! ### Directories of settings -/

/-- A directory as it is named where a path may not be empty. -/
def shown (d : Path) : Path := if d.text.isEmpty then ⟨"."⟩ else d

/-- **Paths in a settings file are seen from its directory.** -/
theorem components_baseDirectory (d : Path) :
    (Config.baseDirectory (candidate d)).text.isEmpty = false ∧
      (Config.baseDirectory (candidate d)).components = (shown d).components := by
  have hcomponents := components_candidate d
  rcases Path.parent?_cases (candidate d) with ⟨-, hnil | hroot⟩ | ⟨q, hq, hparent⟩
  · -- the path of a settings file has a component, and the last one is no root
    rw [hcomponents] at hnil
    exact absurd hnil (by simp)
  · rw [hcomponents] at hroot
    exact absurd (List.append_eq_singleton_iff.1 hroot) (by simp)
  · have hsame : q.components = d.components := by
      rw [hparent.components, hcomponents, List.dropLast_concat]
    -- the base directory is empty exactly when the directory is
    have hempty : q.text.isEmpty = d.text.isEmpty := by
      rw [Bool.eq_iff_iff, ← Path.components_eq_nil_iff, ← Path.components_eq_nil_iff, hsame]
    unfold Config.baseDirectory shown
    rw [hq]
    dsimp only
    rw [hempty]
    by_cases hd : d.text.isEmpty = true
    · rw [if_pos hd, if_pos hd]
      exact ⟨rfl, rfl⟩
    · rw [if_neg hd, if_neg hd]
      exact ⟨by rw [hempty]; simpa using hd, hsame⟩

end SettingsSource

namespace Config

variable {c : Config} {tree : FileTree} {d start : Path} {s : Settings} {r : Registry}

open SettingsSource

/-- What it means that the root of a configuration is the one that settings in the directory `d` set:
the directory joined with what they say, or the directory. -/
def RootedAt (c : Config) (d : Path) (root : Option Path) : Prop :=
  c.root.components = (match root with
    | some root => (shown d).join root
    | none => shown d).components

theorem rootedAt_of_new [RegexEngine] (h : new tree (baseDirectory (candidate d)) s r = .ok c) :
    c.RootedAt d s.root := by
  obtain ⟨hempty, hbase⟩ := components_baseDirectory d
  have hshown : (shown d).text.isEmpty = false := by
    unfold shown
    split
    · rfl
    · rename_i hd
      simpa using hd
  obtain ⟨registry, -, hc⟩ := exists_of_bind_eq_ok h
  obtain rfl := Except.ok.inj hc
  unfold RootedAt
  cases s.root with
  | some root => exact Path.components_join_congr hempty hshown hbase root
  | none => exact hbase

theorem rootedAt_of_ofSource [RegexEngine]
    (h : ofSource tree start (.discovered (candidate d)) r = .ok c) :
    c.source = .discovered (candidate d) ∧
      ∃ s, Settings.ofFile tree (candidate d) = .ok s ∧ c.RootedAt d s.root := by
  obtain ⟨s, hs, hrest⟩ := exists_of_bind_eq_ok h
  obtain ⟨config, hnew, hc⟩ := exists_of_bind_eq_ok hrest
  obtain rfl := Except.ok.inj hc
  exact ⟨rfl, s, hs, rootedAt_of_new (c := config) hnew⟩

/-- **The nearest settings file decides**, and nothing else does: which file is found, from which
directories, what does not change it, and what the root is. -/
theorem nearest_settings [RegexEngine] (start : Path) :
    (∀ isFile : Path → Bool, ∃ first : Path,
      (first = start ∧ (isFile start = true → start.components = [] ∨ start.components = [.root]) ∨
        isFile start = true ∧ first.IsParent start) ∧
      first.IsChain (searched isFile start) ∧
      Finds isFile (searched isFile start) (nearest? isFile start) ∧
      ∀ (isFile' : Path → Bool) (near far : List Path), isFile' start = isFile start →
        searched isFile start = near ++ far → Suffices isFile near far →
        (∀ d ∈ near, isFile' (candidate d) = isFile (candidate d)) →
          nearest? isFile' start = nearest? isFile start) ∧
    (∀ tree : FileTree,
      resolve tree start none = (nearest? tree.isFile start).elim .default .discovered ∧
      ∀ (tree' : FileTree) (near far : List Path), searched tree.isFile start = near ++ far →
        Suffices tree.isFile near far → ChangedElsewhere near tree tree' →
          resolve tree' start none = resolve tree start none) ∧
    (∀ (tree : FileTree) (r : Registry), nearest? tree.isFile start = none →
      ∃ c, ofSource tree start (resolve tree start none) r = .ok c ∧ c.source = .default ∧
        c.root = start) ∧
    (∀ (tree : FileTree) (r : Registry) (d : Path) (c : Config),
      nearest? tree.isFile start = some (candidate d) →
      ofSource tree start (resolve tree start none) r = .ok c →
        c.source = .discovered (candidate d) ∧
          ∃ s, Settings.ofFile tree (candidate d) = .ok s ∧ c.RootedAt d s.root) ∧
    ∀ (tree : FileTree) (r : Registry) (d : Path) (s : Settings) (c : Config),
      new tree (baseDirectory (candidate d)) s r = .ok c → c.RootedAt d s.root := by
  have hresolve (tree : FileTree) :
      resolve tree start none = (nearest? tree.isFile start).elim .default .discovered := by
    unfold resolve
    dsimp only
    cases nearest? tree.isFile start <;> rfl
  refine ⟨fun isFile => ⟨startDirectory isFile start, ?_, Path.isChain_ancestors _,
      finds_nearest? isFile start, fun isFile' near far hstart hdirs hnear hsame =>
        nearest?_congr hstart hdirs hnear hsame⟩,
    fun tree => ⟨hresolve tree, fun tree' near far hdirs hnear h =>
      resolve_of_changedElsewhere hdirs hnear h⟩,
    fun tree r hnone => ?_, fun tree r d c hfound hc => ?_, fun tree r d s c => rootedAt_of_new⟩
  · unfold startDirectory
    -- a start that is a file has a parent, unless its path is empty or the root alone
    by_cases hfile : isFile start = true
    · rw [if_pos hfile]
      rcases Path.parent?_cases start with ⟨hnone, hcases⟩ | ⟨q, hq, hparent⟩
      · rw [hnone]
        exact Or.inl ⟨rfl, fun _ => hcases⟩
      · rw [hq]
        exact Or.inr ⟨hfile, hparent⟩
    · rw [if_neg hfile]
      exact Or.inl ⟨rfl, fun h => absurd h hfile⟩
  · rw [hresolve, hnone]
    exact ⟨_, rfl, rfl, rfl⟩
  · rw [hresolve, hfound] at hc
    exact rootedAt_of_ofSource hc

/-- A start that is a file, below a directory with settings. The settings further up go, and others come
beside the way. -/
theorem nearest_settings_between :
    let settings : Entry := .file (.text "root: dist".toList)
    let below : List (List String × Entry) := [(["a"], .directory), (["a", fileName], settings),
      (["a", "b"], .directory), (["a", "b", "x"], .file (.text [])), (["c"], .directory)]
    let tree : FileTree := { entries := ([fileName], settings) :: below }
    let tree' : FileTree := { entries := (["c", fileName], settings) :: below }
    let start : Path := ⟨"a/b/x"⟩
    searched tree.isFile start = [⟨"a/b"⟩, ⟨"a"⟩, ⟨""⟩] ∧
      resolve tree start none = .discovered ⟨"a/.theme-check.yml"⟩ ∧
      resolve tree' start none = resolve tree start none ∧
      ∃ c, ofSource tree start (resolve tree start none) {} = .ok c ∧ c.RootedAt ⟨"a"⟩ (some ⟨"dist"⟩) ∧
        c.root = ⟨"a/dist"⟩ := by
  intro settings below tree tree' start
  obtain ⟨-, htree, -, hroot, -⟩ := nearest_settings start
  have hdirs : searched tree.isFile start = [⟨"a/b"⟩, ⟨"a"⟩, ⟨""⟩] := by decide +kernel
  have hfound : nearest? tree.isFile start = some (candidate ⟨"a"⟩) := by decide +kernel
  -- the file of `a` ends the search, so what is further up does not matter
  have hnear : Suffices tree.isFile [⟨"a/b"⟩, ⟨"a"⟩] [⟨""⟩] :=
    Or.inl ⟨⟨"a"⟩, by decide, by decide +kernel⟩
  -- the file at the top goes, another one comes in `c`, and all other entries are the same
  have hchanged : ChangedElsewhere [⟨"a/b"⟩, ⟨"a"⟩] tree tree' := by
    refine ⟨rfl, fun key => ?_⟩
    by_cases htop : key = [fileName]
    · exact Or.inr ⟨[], htop, by rw [htop]; decide, by rw [htop]; decide, by decide +kernel⟩
    · by_cases hbeside : key = ["c", fileName]
      · exact Or.inr ⟨["c"], hbeside, by rw [hbeside]; decide, by rw [hbeside]; decide,
          by decide +kernel⟩
      · have hskip (k : List String) (hk : key ≠ k) :
            FileTree.entry? { entries := (k, settings) :: below } key =
              FileTree.entry? { entries := below } key := by
          unfold FileTree.entry?
          rw [List.lookup_cons, beq_eq_false_iff_ne.2 hk]
        exact Or.inl ((hskip _ hbeside).trans (hskip _ htop).symm)
  have hrun : (ofSource tree start (resolve tree start none) {}).toOption.map (·.root) =
      some ⟨"a/dist"⟩ := by decide +kernel
  have hfile : (Settings.ofFile tree (candidate ⟨"a"⟩)).toOption.map (·.root) =
      some (some ⟨"dist"⟩) := by decide +kernel
  refine ⟨hdirs, by decide +kernel, (htree tree).2 tree' _ _ hdirs hnear hchanged, ?_⟩
  cases hc : ofSource tree start (resolve tree start none) {} with
  | error e =>
    rw [hc] at hrun
    cases hrun
  | ok c =>
    rw [hc] at hrun
    obtain ⟨-, s, hs, hrooted⟩ := hroot tree {} ⟨"a"⟩ c hfound hc
    rw [hs] at hfile
    have hset : s.root = some ⟨"dist"⟩ := Option.some.inj hfile
    rw [hset] at hrooted
    exact ⟨c, rfl, hrooted, Option.some.inj hrun⟩

end Config

end LiquidLint
