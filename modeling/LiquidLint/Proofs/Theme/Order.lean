import LiquidLint.Proofs.Path.Relative
import LiquidLint.Proofs.Theme.Reload

/-!
# The order of files

A theme that is loaded has its files in the order of their paths below the root (`ordered_of_load`).
For JSON files that is how they are sorted. Templates are sorted by the paths under which they are
listed, and these are the paths below the root behind one and the same directory: the one that is
reached by following the text of the root. It has the components of the root, but for a leading dot,
which is left out when the root is followed and does not come off the paths then.

For the same reason different files keep different paths. What is said of themes without shared paths
holds of every theme that is loaded (`distinct_of_load`).
-/

namespace LiquidLint

/-- The components that a directory leaves in the paths of what is listed below it: the working
directory leaves none. -/
def Path.trace (base : Path) : List Component := if base.text = "." then [] else base.components

namespace Theme

variable {theme : Theme} {tree : FileTree} {root base p q : Path} {ignore : List String}
  {ending s : Text} {names : List String}

/-! ### Following the root -/

/-- A step down adds the component of the segment to the trace. -/
theorem trace_of_descend (hp : p.text.isEmpty = false) (hs : ∀ c ∈ s, (c == '/') = false)
    (h : descend tree p s = some q) :
    q.text.isEmpty = false ∧ q.trace = p.trace ++ Path.componentsFrom 1 [s] := by
  -- the next path is not empty: nothing is found under an empty path
  have hempty : s = [] → p.text = "." → False := by
    rintro rfl hdot
    unfold descend at h
    dsimp only at h
    rw [if_pos hdot, if_neg (by simp)] at h
    cases h
  have hq : q = if p.text = "." then ⟨String.ofList s⟩ else p.join ⟨String.ofList s⟩ := by
    unfold descend at h
    dsimp only at h
    generalize (if p.text = "." then (⟨String.ofList s⟩ : Path) else p.join ⟨String.ofList s⟩) =
      next at h ⊢
    split at h
    · split at h
      · exact (Option.some.inj h).symm
      · cases h
    · split at h
      · exact (Option.some.inj h).symm
      · cases h
  by_cases hdot : p.text = "."
  · rw [if_pos hdot] at hq
    have hne : s ≠ [] := fun hnil => hempty hnil hdot
    subst hq
    refine ⟨?_, ?_⟩
    · simpa using hne
    · rw [Path.trace, Path.trace, if_pos hdot, List.nil_append, Path.components_segment hs,
        Path.componentsFrom_singleton, Path.componentsFrom_singleton, if_neg hne, if_neg hne]
      by_cases hs' : s = ['.']
      · simp [hs']
      · have hne' : String.ofList s ≠ "." := by
          intro heq
          apply hs'
          rw [← String.toList_ofList (l := s), heq]
          rfl
        simp [hs', hne']
  · rw [if_neg hdot] at hq
    obtain ⟨hcomponents, hslash⟩ := Path.components_join_segment hp hs
    rw [← hq] at hcomponents hslash
    have hqdot : q.text ≠ "." := by
      intro heq
      rw [heq] at hslash
      simp at hslash
    refine ⟨?_, ?_⟩
    · rw [Bool.eq_false_iff]
      intro hnil
      rw [String.isEmpty_iff.1 hnil] at hslash
      simp at hslash
    · rw [Path.trace, Path.trace, if_neg hdot, if_neg hqdot, hcomponents]

/-- Steps down add the components of the segments. -/
theorem trace_of_foldlM {ss : List Text} (hp : p.text.isEmpty = false)
    (hss : ∀ s ∈ ss, ∀ c ∈ s, (c == '/') = false) (h : ss.foldlM (descend tree) p = some q) :
    q.text.isEmpty = false ∧ q.trace = p.trace ++ Path.componentsFrom 1 ss := by
  induction ss generalizing p with
  | nil =>
    obtain rfl := Option.some.inj h
    exact ⟨hp, (List.append_nil _).symm⟩
  | cons s ss ih =>
    obtain ⟨hs, hss⟩ := List.forall_mem_cons.1 hss
    rw [List.foldlM_cons] at h
    obtain ⟨next, hnext, hrest⟩ := Option.bind_eq_some_iff.1 h
    obtain ⟨hempty, htrace⟩ := trace_of_descend hp hs hnext
    obtain ⟨hempty', htrace'⟩ := ih hempty hss hrest
    refine ⟨hempty', ?_⟩
    rw [htrace', htrace, List.append_assoc, Path.componentsFrom_of_pos Nat.one_pos ss,
      Path.componentsFrom_of_pos Nat.one_pos (s :: ss), List.flatMap_cons]

/-- The directory reached from the working directory has the components of the text, but for a leading
dot. -/
theorem componentsFrom_of_relative {ss : List Text} (hss : ∀ s ∈ ss, ∀ c ∈ s, (c == '/') = false)
    (h : ss.foldlM (descend tree) ⟨"."⟩ = some base) :
    base.text.isEmpty = false ∧
      (Path.componentsFrom 0 ss = base.trace ∨
        Path.componentsFrom 0 ss = .here :: base.trace ∧ Path.Component.here ∉ base.trace) := by
  obtain ⟨hempty, htrace⟩ := trace_of_foldlM (p := ⟨"."⟩) rfl hss h
  refine ⟨hempty, ?_⟩
  rw [show Path.trace ⟨"."⟩ = [] from rfl, List.nil_append] at htrace
  -- a leading dot is the one segment that leaves a component and no trace
  cases ss with
  | nil => exact .inl htrace.symm
  | cons s ss =>
    rw [Path.componentsFrom_cons] at htrace ⊢
    rw [Path.componentsFrom_of_pos (by omega) ss, Path.componentsFrom_singleton] at htrace ⊢
    by_cases hs : s = ['.']
    · right
      subst hs
      refine ⟨by rw [htrace]; rfl, ?_⟩
      rw [htrace]
      have hnot := Path.here_not_mem_componentsFrom Nat.one_pos ss
      rw [Path.componentsFrom_of_pos Nat.one_pos] at hnot
      exact hnot
    · left
      rw [htrace]
      simp [hs]

/-- **The directory reached from a root** has the components of the root, but for a leading dot. An
empty root leads to the top. -/
theorem components_of_reach
    (h : reach tree (Text.splitOn (· == '/') root.text.toList) = some base) :
    base.text.isEmpty = false ∧
      (root.components = base.trace ∨
        root.components = .here :: base.trace ∧ Path.Component.here ∉ base.trace ∨
        root.components = [] ∧ base = ⟨"/"⟩) := by
  have hslashes := fun s hs => Text.not_mem_of_mem_splitOn (p := (· == '/')) (s := s)
    (t := root.text.toList) hs
  rw [Path.components_eq]
  cases htext : root.text.toList with
  | nil =>
    rw [htext] at h
    obtain rfl := Option.some.inj h
    exact ⟨rfl, .inr (.inr ⟨rfl, rfl⟩)⟩
  | cons c rest =>
    rw [htext] at h hslashes
    by_cases hc : c = '/'
    · -- an absolute path is followed from the top
      subst hc
      have hsplit : Text.splitOn (· == '/') ('/' :: rest) = [] :: Text.splitOn (· == '/') rest := rfl
      rw [hsplit] at h hslashes ⊢
      obtain ⟨hempty, htrace⟩ := trace_of_foldlM (p := ⟨"/"⟩) rfl
        (List.forall_mem_cons.1 hslashes).2 h
      refine ⟨hempty, .inl ?_⟩
      rw [htrace, Path.componentsFrom_cons, Path.componentsFrom_singleton, if_pos rfl]
      rfl
    · obtain ⟨first, ss, -, hsplit⟩ := Text.splitOn_cons_of_not (p := (· == '/')) (c := c)
        (by simpa using hc) rest
      rw [hsplit] at h hslashes ⊢
      have hroot : Path.rootOf (c :: rest) = [] := if_neg (by simpa using hc)
      rw [hroot, List.nil_append]
      obtain ⟨hempty, hcomponents⟩ := componentsFrom_of_relative hslashes h
      exact ⟨hempty, hcomponents.imp_right .inl⟩

/-! ### Paths below the root -/

theorem components_below (hbase : base.text.isEmpty = false) (hne : names ≠ [])
    (hnames : ∀ n ∈ names, Path.IsName n) :
    (FileTree.below base names).components = base.trace ++ names.map .name := by
  unfold FileTree.below Path.trace
  dsimp only
  split
  · exact Path.components_ofNames hne hnames
  · exact Path.components_join hbase hne hnames

/-- Seen from the root, what is listed below it is where its names say, or where it is listed. -/
theorem relativeTo_below (h : reach tree (Text.splitOn (· == '/') root.text.toList) = some base) :
    (∀ names, names ≠ [] → (∀ n ∈ names, Path.IsName n) →
      (FileTree.below base names).relativeTo root = Path.ofNames names) ∨
    (∀ names, names ≠ [] → (∀ n ∈ names, Path.IsName n) →
      (FileTree.below base names).relativeTo root = FileTree.below base names) := by
  obtain ⟨hbase, hroot | ⟨hroot, hhere⟩ | ⟨hroot, rfl⟩⟩ := components_of_reach h
  · refine .inl fun names hne hnames => ?_
    unfold FileTree.below
    unfold Path.trace at hroot
    dsimp only
    split
    · rename_i hdot
      rw [if_pos hdot] at hroot
      exact Path.relativeTo_ofNames hroot hne hnames
    · rename_i hdot
      rw [if_neg hdot] at hroot
      exact Path.relativeTo_join hbase hroot.symm hne hnames
  · -- a leading dot does not come off, since no listed path has one
    refine .inr fun names hne hnames => Path.relativeTo_of_not fun hprefix => ?_
    rw [components_below hbase hne hnames, hroot] at hprefix
    have hmem : Path.Component.here ∈ base.trace ++ names.map Path.Component.name :=
      hprefix.subset List.mem_cons_self
    rcases List.mem_append.1 hmem with hmem | hmem
    · exact hhere hmem
    · obtain ⟨n, -, hn⟩ := List.mem_map.1 hmem
      cases hn
  · exact .inr fun names hne hnames => Path.relativeTo_top hroot hne hnames

/-- **Listed paths keep their order** when they are seen from the root. -/
theorem pairwise_relativeTo_list (htree : tree.Proper) (root : Path) (ending : Text) :
    (list tree root.text ending).Pairwise fun p q =>
      (p.relativeTo root).le (q.relativeTo root) = true := by
  rcases list_cases tree root.text ending with hnil | ⟨base, key, hreach, -, hlist⟩
  · rw [hnil]
    exact List.Pairwise.nil
  · have hsorted := @List.pairwise_mergeSort _ Path.le (fun _ _ _ => Path.le_trans) Path.le_total
      (((tree.filesBelow key).filter (EndsWith ending)).map (FileTree.below base))
    rw [← hlist] at hsorted
    -- both paths lie below the base, so they compare as their names do
    refine hsorted.imp_of_mem fun {p q} hp hq hle => ?_
    have hlisted : ∀ p ∈ list tree root.text ending, ∃ names, p = FileTree.below base names ∧
        names ≠ [] ∧ ∀ n ∈ names, Path.IsName n := by
      intro p hp
      rw [hlist, List.mem_mergeSort] at hp
      obtain ⟨names, hnames, rfl⟩ := List.mem_map.1 hp
      exact ⟨names, rfl, htree.of_mem_filesBelow (List.mem_filter.1 hnames).1⟩
    obtain ⟨names, rfl, hne, hnames⟩ := hlisted p hp
    obtain ⟨names', rfl, hne', hnames'⟩ := hlisted q hq
    rcases relativeTo_below hreach with hrelative | hrelative
    · obtain ⟨hbase, -⟩ := components_of_reach hreach
      rw [hrelative names hne hnames, hrelative names' hne' hnames']
      unfold Path.le Path.compare at hle ⊢
      rw [components_below hbase hne hnames, components_below hbase hne' hnames',
        Path.compareComponents_append] at hle
      rw [Path.components_ofNames hne hnames, Path.components_ofNames hne' hnames']
      exact hle
    · rw [hrelative names hne hnames, hrelative names' hne' hnames']
      exact hle

/-- **Listed paths stay different** when they are seen from the root. -/
theorem pairwise_same_list (htree : tree.Proper) (root : Path) (ending : Text) :
    (list tree root.text ending).Pairwise fun p q =>
      (p.relativeTo root).same (q.relativeTo root) = false := by
  refine pairwise_list_of_below (fun {p q} hpq => ?_) htree ?_
  · rw [Bool.eq_false_iff, ne_eq, Path.same_iff] at hpq ⊢
    exact fun hqp => hpq hqp.symm
  · rintro base key hreach - names names' hdiffer ⟨hne, hnames⟩ ⟨hne', hnames'⟩
    rw [Bool.eq_false_iff, ne_eq, Path.same_iff]
    intro hsame
    -- the components end with the names
    have heq : names.map Path.Component.name = names'.map .name := by
      rcases relativeTo_below hreach with hrelative | hrelative
      · rwa [hrelative names hne hnames, hrelative names' hne' hnames',
          Path.components_ofNames hne hnames, Path.components_ofNames hne' hnames'] at hsame
      · obtain ⟨hbase, -⟩ := components_of_reach hreach
        rw [hrelative names hne hnames, hrelative names' hne' hnames',
          components_below hbase hne hnames, components_below hbase hne' hnames'] at hsame
        exact List.append_cancel_left hsame
    exact hdiffer (List.map_injective_iff.2 (fun _ _ hname => Path.Component.name.inj hname) heq)

/-! ### Themes that are loaded -/

/-- The files of a theme are in the order of their paths. -/
structure Ordered (theme : Theme) : Prop where
  templates : theme.templates.Pairwise fun s t => s.relativePath.le t.relativePath = true
  jsonFiles : theme.jsonFiles.Pairwise fun f g => f.relativePath.le g.relativePath = true

/-- Files that are sorted by path are in the order of their paths. -/
theorem pairwise_sorted {α : Type} (file : α → SourceFile) (files : List α) :
    (files.mergeSort fun f g => fileLe (file f) (file g)).Pairwise fun f g =>
      (file f).relativePath.le (file g).relativePath = true :=
  @List.pairwise_mergeSort _ (fun f g => (file f).relativePath.le (file g).relativePath)
    (fun _ _ _ => Path.le_trans) (fun _ _ => Path.le_total _ _) files

/-- **Themes that are loaded are ordered.** -/
theorem ordered_of_load (htree : tree.Proper) (h : load tree root ignore = .ok theme) :
    theme.Ordered := by
  obtain ⟨patterns, -, hloaded⟩ := load_eq_ok_iff.1 h
  refine ⟨?_, ?_⟩
  · have hpaths : (theme.templates.map (·.path)).Pairwise fun p q =>
        (p.relativeTo root).le (q.relativeTo root) = true := by
      rw [hloaded.paths]
      exact (pairwise_relativeTo_list htree root ".liquid".toList).filter _
    refine (List.pairwise_map.1 hpaths).imp_of_mem fun {s t} hs ht hle => ?_
    rw [(hloaded.read s hs).2, (hloaded.read t ht).2]
    exact hle
  · obtain ⟨json, -, hjson⟩ := hloaded.json
    rw [hjson]
    exact pairwise_sorted JsonFile.toSourceFile _

/-- **Themes that are loaded share no paths.** -/
theorem distinct_of_load (htree : tree.Proper) (h : load tree root ignore = .ok theme) :
    theme.Distinct := by
  obtain ⟨patterns, -, hloaded⟩ := load_eq_ok_iff.1 h
  have hpaths : (theme.templates.map (·.path)).Pairwise fun p q =>
      (p.relativeTo root).same (q.relativeTo root) = false := by
    rw [hloaded.paths]
    exact (pairwise_same_list htree root ".liquid".toList).filter _
  refine (List.pairwise_map.1 hpaths).imp_of_mem fun {s t} hs ht hdiffer => ?_
  rw [(hloaded.read s hs).2, (hloaded.read t ht).2]
  exact hdiffer

/-- The templates of a theme that is made of files are ordered. -/
theorem pairwise_templates_ofFiles (root : Path) (templates : List Template)
    (jsonFiles : List JsonFile) : (ofFiles root templates jsonFiles).templates.Pairwise fun s t =>
      s.relativePath.le t.relativePath = true :=
  pairwise_sorted Template.toSourceFile templates

end Theme

end LiquidLint
