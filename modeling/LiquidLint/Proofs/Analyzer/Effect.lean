import LiquidLint.Proofs.Analyzer.Kept
import LiquidLint.Proofs.FileTree.Content
import Mathlib.Algebra.BigOperators.Group.List.Basic

/-!
# What a correction changes

A correction that succeeds changes the templates that have an edit to apply, in memory and in their
files, and nothing else: `correct_exact`. The edits of a template are those of the offenses with its
path, in the order of the report (`chosen_edits`), and the counts of the summary are sums over the
templates (`sum_patches`). A second correction finds no offense with an edit and does nothing.

Edits are applied path by path. `Step` says what can happen to one path, and `Written` what has
happened to the files after all of them. A file that two templates share would hold the text of the
later one (`file_overwritten_shared`), so what a file holds is said of templates with files of their
own.
-/

namespace LiquidLint

open Correction (applyAll applyAll_of_increasing)

/-! ### Themes and their files -/

namespace Theme

variable {theme : Theme} {path : Path} {source : Text} {t : Template} {tree : FileTree}

/-- No two templates are stored in the same file. -/
def OwnFiles (theme : Theme) (tree : FileTree) : Prop :=
  (theme.templates.map (·.path)).Pairwise fun p q =>
    ∀ key, tree.resolve p = .ok key → tree.resolve q ≠ .ok key

/-- A new source is put in place of the old one, and the templates around it stay. -/
theorem exists_setSource (h : theme.templateAt? path = some t) :
    ∃ before after, theme.templates = before ++ t :: after ∧
      ∀ source, (theme.setSource path source).templates =
        before ++ t.setSource source :: after := by
  obtain ⟨hsame, before, after, htemplates, hbefore⟩ := List.find?_eq_some_iff_append.1 h
  refine ⟨before, after, htemplates, fun source => ?_⟩
  show setSourceIn path source theme.templates = _
  rw [htemplates]
  clear htemplates h
  induction before with
  | nil => exact if_pos hsame
  | cons s before ih =>
    have hs : ¬ s.relativePath.same path = true := by
      have := hbefore s (List.mem_cons_self ..)
      simpa using this
    have hrest := ih fun r hr => hbefore r (List.mem_cons_of_mem _ hr)
    rw [List.cons_append, setSourceIn, if_neg hs, hrest]
    rfl

theorem files_setSource (theme : Theme) (path : Path) (source : Text) :
    (theme.setSource path source).templates.map (·.path) = theme.templates.map (·.path) := by
  show (setSourceIn path source theme.templates).map (·.path) = _
  induction theme.templates with
  | nil => rfl
  | cons t ts ih =>
    unfold setSourceIn
    split
    · rfl
    · rw [List.map_cons, ih, List.map_cons]

/-- Templates with other paths are those that were there before. -/
theorem mem_setSource_of_not_same (h : ¬ path.same t.relativePath = true) :
    t ∈ (theme.setSource path source).templates ↔ t ∈ theme.templates := by
  have hne : t.relativePath.components ≠ path.components :=
    fun heq => h (Path.same_iff.2 heq.symm)
  show t ∈ setSourceIn path source theme.templates ↔ _
  induction theme.templates with
  | nil => exact Iff.rfl
  | cons s ts ih =>
    unfold setSourceIn
    split
    · rename_i hsame
      -- neither the new nor the old template at this place has the path of `t`
      have hs : s.relativePath.components = path.components := Path.same_iff.1 hsame
      have h1 : t ≠ s.setSource source := by
        rintro rfl
        exact hne hs
      have h2 : t ≠ s := by
        rintro rfl
        exact hne hs
      rw [List.mem_cons, List.mem_cons, or_iff_right h1, or_iff_right h2]
    · rw [List.mem_cons, List.mem_cons, ih]

/-- Files of their own stay so when a file is put where no directory is. -/
theorem OwnFiles.put {theme' : Theme} {key : List String} {c : Content} (h : theme.OwnFiles tree)
    (hfiles : theme'.templates.map (·.path) = theme.templates.map (·.path))
    (hdir : tree.entry? key ≠ some .directory) : theme'.OwnFiles (tree.put key (.file c)) := by
  unfold OwnFiles at h ⊢
  rw [hfiles]
  refine h.imp fun {p q} hpq k hp hq => ?_
  exact hpq k (FileTree.resolve_of_put hdir hp) (FileTree.resolve_of_put hdir hq)

/-- Templates that are stored in the same file are the same one. -/
theorem OwnFiles.eq (h : theme.OwnFiles tree) {s : Template} (hs : s ∈ theme.templates)
    (ht : t ∈ theme.templates) {key : List String} (hskey : tree.resolve s.path = .ok key)
    (htkey : tree.resolve t.path = .ok key) : s = t := by
  by_contra hne
  have hpairs : theme.templates.Pairwise fun s t : Template =>
      ∀ key, tree.resolve s.path = .ok key → tree.resolve t.path ≠ .ok key :=
    List.pairwise_map.1 h
  have hsymm : Std.Symm fun s t : Template =>
      ∀ key, tree.resolve s.path = .ok key → tree.resolve t.path ≠ .ok key :=
    ⟨fun s t hst key ht hs => hst key hs ht⟩
  exact List.Pairwise.forall hpairs hs ht hne key hskey htkey

end Theme

namespace Analyzer

variable {a : Analyzer} {edits : Edits} {e : Path × List Correction} {theme theme₁ theme' : Theme}
  {c c' : CachedTheme} {tree tree₁ tree' : FileTree} {summary summary₁ summary' : CorrectionSummary}
  {t : Template}

/-! ### Edits of a template -/

/-- The edits for the offenses with the path of a template, in the order of the report. -/
def ownEdits (a : Analyzer) (t : Template) : List Correction :=
  (a.offenses.filter (·.location.path.same t.relativePath)).filterMap a.correction?

theorem chosen_addEdit (h : Sorted edits) (path : Path) (c : Correction) :
    chosen (addEdit path c edits) t =
      if path.same t.relativePath then chosen edits t ++ [c] else chosen edits t := by
  -- along the groups, which are sorted, so that at most one of them has the path of `t`
  induction edits with
  | nil =>
    unfold addEdit
    split
    · rename_i hsame
      exact chosen_cons_of_same hsame
    · rename_i hsame
      exact chosen_cons_of_not (by simpa using hsame)
  | cons e edits ih =>
    obtain ⟨p, cs⟩ := e
    unfold addEdit
    split
    · -- the path is new and comes before all others
      rename_i hlt
      split
      · rename_i hsame
        have hnone : ∀ e ∈ (p, cs) :: edits, ¬ e.1.same t.relativePath = true := by
          have hsorted : Sorted ((path, [c]) :: (p, cs) :: edits) := by
            refine List.pairwise_cons.2 ⟨fun e he => ?_, h⟩
            rcases List.mem_cons.1 he with rfl | he
            · exact hlt
            · exact Path.compare_trans hlt ((List.pairwise_cons.1 h).1 e he)
          exact hsorted.later hsame
        rw [chosen_cons_of_same hsame, chosen_of_forall hnone]
        rfl
      · rename_i hsame
        exact chosen_cons_of_not (by simpa using hsame)
    · rename_i heq
      have hpath : path.same t.relativePath = p.same t.relativePath := by
        unfold Path.same
        rw [Path.compare_eq_iff.1 heq]
      rw [hpath]
      split
      · rename_i hsame
        rw [chosen_cons_of_same hsame, chosen_cons_of_same hsame]
      · rename_i hsame
        rw [chosen_cons_of_not (by simpa using hsame), chosen_cons_of_not (by simpa using hsame)]
    · -- the path comes later, so it is not this one
      rename_i hgt
      by_cases hsame : p.same t.relativePath = true
      · have hnot : ¬ path.same t.relativePath = true := by
          intro hpath
          have heq : path.compare p = .eq := by
            rw [Path.compare_eq_iff, Path.same_iff.1 hpath, Path.same_iff.1 hsame]
          rw [hgt] at heq
          cases heq
        rw [chosen_cons_of_same hsame, if_neg hnot, chosen_cons_of_same hsame]
      · rw [chosen_cons_of_not hsame, chosen_cons_of_not hsame]
        exact ih (List.pairwise_cons.1 h).2

/-- The edits of the offenses with the paths they are for, one by one. -/
def placedEdits (a : Analyzer) : List (Path × Correction) :=
  a.offenses.filterMap fun o => (a.correction? o).map (o.location.path, ·)

theorem edits_eq (a : Analyzer) :
    a.edits = a.placedEdits.foldl (fun edits e => addEdit e.1 e.2 edits) [] := by
  unfold edits placedEdits
  generalize ([] : Edits) = start
  induction a.offenses generalizing start with
  | nil => rfl
  | cons o offenses ih =>
    rw [List.foldl_cons, List.filterMap_cons]
    cases a.correction? o with
    | none => exact ih start
    | some c => exact ih (addEdit o.location.path c start)

/-- **The edits of a template** are those of its offenses. -/
theorem chosen_edits (a : Analyzer) (t : Template) : chosen a.edits t = a.ownEdits t := by
  have hfold : ∀ (placed : List (Path × Correction)) (edits : Edits), Sorted edits →
      chosen (placed.foldl (fun edits e => addEdit e.1 e.2 edits) edits) t =
        chosen edits t ++ (placed.filter (·.1.same t.relativePath)).map (·.2) := by
    intro placed
    induction placed with
    | nil =>
      intro edits _
      exact (List.append_nil _).symm
    | cons e placed ih =>
      intro edits hsorted
      rw [List.foldl_cons, ih _ (sorted_addEdit hsorted).1, chosen_addEdit hsorted]
      by_cases hsame : e.1.same t.relativePath = true
      · rw [if_pos hsame, List.filter_cons_of_pos (by exact hsame), List.map_cons, List.append_assoc]
        rfl
      · rw [if_neg hsame, List.filter_cons_of_neg (by exact hsame)]
  rw [edits_eq, hfold a.placedEdits [] List.Pairwise.nil]
  -- picking offenses by path comes to the same before and after their edits are taken
  show [] ++ _ = a.ownEdits t
  unfold placedEdits ownEdits
  rw [List.nil_append, List.filter_filterMap, List.map_filterMap, List.filterMap_filter]
  refine List.filterMap_congr fun o _ => ?_
  cases a.correction? o with
  | none => simp
  | some c =>
    by_cases hsame : o.location.path.same t.relativePath = true
    · simp [Option.filter_some, hsame]
    · simp [Option.filter_some, hsame]

/-- What the edits of a template make of it. -/
def patch (edits : Edits) (t : Template) : Correction.Patch := applyAll t.source (chosen edits t)

theorem patch_of_forall (h : ∀ e ∈ edits, ¬ e.1.same t.relativePath = true) :
    patch edits t = .start t.source := by
  unfold patch
  rw [chosen_of_forall h, Correction.applyAll_nil]

theorem patch_cons_of_not (h : ¬ e.1.same t.relativePath = true) :
    patch (e :: edits) t = patch edits t := by
  unfold patch
  rw [chosen_cons_of_not h]

theorem patch_cons_of_same (h : e.1.same t.relativePath = true) :
    patch (e :: edits) t = applyAll t.source e.2 := by
  unfold patch
  rw [chosen_cons_of_same h]

/-- A template that has an edit to apply. -/
def Changed (edits : Edits) (theme : Theme) (t : Template) : Prop :=
  t ∈ theme.templates ∧ (patch edits t).applied ≠ 0

/-! ### Path by path -/

namespace Step

/-- The files of the templates stay apart. -/
theorem ownFiles (h : Step e theme tree summary theme₁ tree₁ summary₁)
    (hfiles : theme.OwnFiles tree) : theme₁.OwnFiles tree₁ := by
  cases h with
  | missing hfound => exact hfiles
  | idle hfound hzero => exact hfiles
  | changed hfound happlied hwrite =>
    obtain ⟨key, -, hdir, -, rfl⟩ := FileTree.exists_put_of_write hwrite
    exact hfiles.put (Theme.files_setSource ..) hdir

/-- A step changes templates only. -/
theorem theme_eq (h : Step e theme tree summary theme₁ tree₁ summary₁) :
    theme₁ = { theme with templates := theme₁.templates } := by
  cases h with
  | _ => rfl

/-- A step counts its file when something is applied. -/
theorem filesWritten_eq (h : Step e theme tree summary theme₁ tree₁ summary₁) :
    summary₁.filesWritten = summary.filesWritten +
      (([e].filterMap (patch? theme)).map fun p => if p.applied = 0 then 0 else 1).sum := by
  cases h with
  | missing hfound => simp [patch?, hfound]
  | idle hfound hzero => simp [patch?, hfound, hzero]
  | changed hfound happlied hwrite => simp [patch?, hfound, happlied]

/-- Templates with other paths are the same before and after. -/
theorem mem_of_not_same (h : Step e theme tree summary theme₁ tree₁ summary₁)
    (ht : ¬ e.1.same t.relativePath = true) : t ∈ theme₁.templates ↔ t ∈ theme.templates := by
  cases h with
  | missing hfound => exact Iff.rfl
  | idle hfound hzero => exact Iff.rfl
  | changed hfound happlied hwrite => exact Theme.mem_setSource_of_not_same ht

/-- What is still to be changed after a step are the templates with other paths. -/
theorem changed_iff (h : Step e theme tree summary theme₁ tree₁ summary₁)
    (hsorted : Sorted (e :: edits)) :
    Changed edits theme₁ t ↔ Changed (e :: edits) theme t ∧ ¬ e.1.same t.relativePath = true := by
  unfold Changed
  by_cases hsame : e.1.same t.relativePath = true
  · -- no later group of edits has the path
    have hstart : (patch edits t).applied = 0 := by
      rw [patch_of_forall (hsorted.later hsame)]
      rfl
    simp [hstart, hsame]
  · rw [h.mem_of_not_same hsame, patch_cons_of_not hsame]
    simp [hsame]

end Step

/-! ### Files -/

/-- What applying some edits does to the files of a theme. -/
structure Written (edits : Edits) (theme : Theme) (tree tree' : FileTree) : Prop where
  /-- Changed templates are stored, in files of their own. -/
  stored : theme.OwnFiles tree →
    ∀ t, Changed edits theme t → tree'.read t.path = .ok (patch edits t).text
  /-- No other key changes. -/
  kept : ∀ key, (∀ t, Changed edits theme t → tree.resolve t.path ≠ .ok key) →
    tree'.entry? key = tree.entry? key
  /-- Other files are read as before. -/
  read : ∀ p text, tree.read p = .ok text →
    (∀ t, Changed edits theme t → ∀ key, tree.resolve t.path = .ok key →
      tree.resolve p ≠ .ok key) → tree'.read p = .ok text

theorem Written.nil : Written [] theme tree tree := by
  have hnone : ∀ t, ¬ Changed [] theme t := by
    rintro t ⟨-, happlied⟩
    apply happlied
    rw [patch_of_forall (by simp)]
    rfl
  exact ⟨fun _ t ht => absurd ht (hnone t), fun _ _ => rfl, fun _ _ h _ => h⟩

/-- A path for which nothing happens makes no difference. -/
theorem Written.of_unchanged (h : Written edits theme tree tree')
    (hiff : ∀ t, Changed (e :: edits) theme t ↔ Changed edits theme t)
    (hpatch : ∀ t, Changed edits theme t → patch (e :: edits) t = patch edits t) :
    Written (e :: edits) theme tree tree' := by
  refine ⟨fun hfiles t ht => ?_, fun key hkey => ?_, fun p text hread hp => ?_⟩
  · rw [hpatch t ((hiff t).1 ht)]
    exact h.stored hfiles t ((hiff t).1 ht)
  · exact h.kept key fun t ht => hkey t ((hiff t).2 ht)
  · exact h.read p text hread fun t ht => hp t ((hiff t).2 ht)

/-- **The files after one more path.** -/
theorem Written.cons (hsorted : Sorted (e :: edits)) (hpaths : theme.Distinct)
    (hstep : Step e theme tree summary theme₁ tree₁ summary₁)
    (h : Written edits theme₁ tree₁ tree') : Written (e :: edits) theme tree tree' := by
  have hlater := fun t => hstep.changed_iff (t := t) hsorted
  have hapart := hstep.ownFiles
  -- a template that is found at the path is the only one there
  have hsole : ∀ s t, theme.templateAt? e.1 = some s → t ∈ theme.templates →
      e.1.same t.relativePath = true → t = s := by
    intro s t hs ht hsame
    refine hpaths.eq ht (List.mem_of_find?_eq_some hs) ?_
    rw [Theme.components_of_templateAt? hs, Path.same_iff.1 hsame]
  cases hstep with
  | missing hfound =>
    have hnot : ∀ t ∈ theme.templates, ¬ e.1.same t.relativePath = true := by
      intro t ht hsame
      refine List.find?_eq_none.1 hfound t ht ?_
      exact Path.same_iff.2 (Path.same_iff.1 hsame).symm
    refine h.of_unchanged (fun t => ?_) fun t ht => patch_cons_of_not (hnot t ht.1)
    rw [hlater]
    exact ⟨fun ht => ⟨ht, hnot t ht.1⟩, fun ht => ht.1⟩
  | @idle s hfound hzero =>
    have hnot : ∀ t, Changed (e :: edits) theme t → ¬ e.1.same t.relativePath = true := by
      intro t ht hsame
      obtain rfl := hsole s t hfound ht.1 hsame
      exact ht.2 (by rw [patch_cons_of_same hsame, hzero])
    refine h.of_unchanged (fun t => ?_) fun t ht => patch_cons_of_not ((hlater t).1 ht).2
    rw [hlater]
    exact ⟨fun ht => ⟨ht, hnot t ht⟩, fun ht => ht.1⟩
  | @changed s _ hfound happlied hwrite =>
    obtain ⟨key₁, hkey₁, hdir, -, rfl⟩ := FileTree.exists_put_of_write hwrite
    have hs : s ∈ theme.templates := List.mem_of_find?_eq_some hfound
    have hsame : e.1.same s.relativePath = true :=
      Path.same_iff.2 (Theme.components_of_templateAt? hfound).symm
    have hchanged : Changed (e :: edits) theme s := by
      refine ⟨hs, ?_⟩
      rw [patch_cons_of_same hsame]
      exact happlied
    refine ⟨fun hfiles t ht => ?_, fun key hkey => ?_, fun p text hread hp => ?_⟩
    · by_cases htsame : e.1.same t.relativePath = true
      · obtain rfl := hsole s t hfound ht.1 htsame
        rw [patch_cons_of_same htsame]
        -- later paths write to other files than this one
        refine h.read _ _ (FileTree.read_of_write hwrite) fun u hu key hukey htkey => ?_
        obtain ⟨hu, hnot⟩ := (hlater u).1 hu
        have hukey' := FileTree.resolve_of_put hdir hukey
        have htkey' := FileTree.resolve_of_put hdir htkey
        obtain rfl := hfiles.eq hu.1 hs hukey' htkey'
        exact hnot hsame
      · rw [patch_cons_of_not htsame]
        exact h.stored (hapart hfiles) t ((hlater t).2 ⟨ht, htsame⟩)
    · have hkeyne : key ≠ key₁ := by
        rintro rfl
        exact hkey s hchanged hkey₁
      rw [h.kept key fun t ht htkey => ?_, FileTree.entry?_put_of_ne hdir _ hkeyne]
      exact hkey t ((hlater t).1 ht).1 (FileTree.resolve_of_put hdir htkey)
    · refine h.read p text ?_ fun t ht key htkey hpkey => ?_
      · exact FileTree.read_put hdir (hp s hchanged key₁ hkey₁) hread
      · exact hp t ((hlater t).1 ht).1 key (FileTree.resolve_of_put hdir htkey)
          (FileTree.resolve_of_put hdir hpkey)

/-- **The files after all edits**, when they can be written. -/
theorem written_of_ok (hsorted : Sorted edits) (hpaths : c.theme.Distinct)
    (h : applyEdits c tree summary edits = (c', tree', .ok summary')) :
    Written edits c.theme tree tree' := by
  induction edits generalizing c tree summary with
  | nil =>
    simp only [applyEdits, Prod.mk.injEq, Except.ok.injEq] at h
    obtain ⟨-, rfl, -⟩ := h
    exact .nil
  | cons e edits ih =>
    obtain ⟨c₁, tree₁, summary₁, hstep, hrest⟩ := exists_step h
    have hlater := ih (List.pairwise_cons.1 hsorted).2 (hpaths.of_paths hstep.mended.paths) hrest
    exact .cons hsorted hpaths hstep hlater

/-! ### Counts -/

/-- The number of files written is the number of paths with something applied. -/
theorem filesWritten_of_ok (hsorted : Sorted edits)
    (h : applyEdits c tree summary edits = (c', tree', .ok summary')) :
    summary'.filesWritten = summary.filesWritten +
      ((edits.filterMap (patch? c.theme)).map fun p => if p.applied = 0 then 0 else 1).sum := by
  induction edits generalizing c tree summary with
  | nil =>
    simp only [applyEdits, Prod.mk.injEq, Except.ok.injEq] at h
    obtain ⟨-, -, rfl⟩ := h
    rfl
  | cons e edits ih =>
    obtain ⟨c₁, tree₁, summary₁, hstep, hrest⟩ := exists_step h
    have hcons : (e :: edits).filterMap (patch? c.theme) =
        [e].filterMap (patch? c.theme) ++ edits.filterMap (patch? c.theme) := by
      rw [← List.filterMap_append]
      rfl
    rw [ih (List.pairwise_cons.1 hsorted).2 hrest, hstep.mended.patch? hsorted,
      hstep.filesWritten_eq, hcons, List.map_append, List.sum_append, Nat.add_assoc]

theorem sum_map_ite {α : Type} (p : α → Bool) (f : α → Nat) (l : List α) :
    (l.map fun x => if p x then f x else 0).sum = ((l.filter p).map f).sum := by
  induction l with
  | nil => rfl
  | cons x l ih =>
    rw [List.map_cons, List.sum_cons, ih]
    by_cases hx : p x = true
    · rw [if_pos hx, List.filter_cons_of_pos hx, List.map_cons, List.sum_cons]
    · rw [if_neg hx, List.filter_cons_of_neg hx, Nat.zero_add]

/-- **Sums over paths are sums over templates**, for what is zero where nothing is edited. -/
theorem sum_patches (hsorted : Sorted edits) (hpaths : theme.Distinct)
    {f : Correction.Patch → Nat} (hstart : ∀ source, f (.start source) = 0) :
    ((edits.filterMap (patch? theme)).map f).sum =
      (theme.templates.map fun t => f (patch edits t)).sum := by
  induction edits with
  | nil =>
    have hzero : ∀ t, f (patch [] t) = 0 := by
      intro t
      rw [patch_of_forall (by simp)]
      exact hstart t.source
    simp [hzero]
  | cons e edits ih =>
    -- each template gets its share from this path or from later ones
    have hshare : ∀ t, f (patch (e :: edits) t) =
        (if e.1.same t.relativePath then f (applyAll t.source e.2) else 0) +
          f (patch edits t) := by
      intro t
      by_cases hsame : e.1.same t.relativePath = true
      · rw [if_pos hsame, patch_cons_of_same hsame, patch_of_forall (hsorted.later hsame), hstart]
        rfl
      · rw [if_neg hsame, patch_cons_of_not hsame, Nat.zero_add]
    have hpath : (([e].filterMap (patch? theme)).map f).sum = (theme.templates.map fun t =>
        if e.1.same t.relativePath then f (applyAll t.source e.2) else 0).sum := by
      have hswap : ∀ t : Template, e.1.same t.relativePath = t.relativePath.same e.1 := by
        intro t
        rw [Bool.eq_iff_iff, Path.same_iff, Path.same_iff]
        exact eq_comm
      cases hfound : theme.templateAt? e.1 with
      | none =>
        have hnot : ∀ t ∈ theme.templates, (if e.1.same t.relativePath then
            f (applyAll t.source e.2) else 0) = 0 := by
          intro t ht
          rw [hswap]
          exact if_neg (List.find?_eq_none.1 hfound t ht)
        rw [List.map_congr_left hnot]
        simp [patch?, hfound]
      | some s =>
        have hs : s ∈ theme.templates := List.mem_of_find?_eq_some hfound
        have hcomponents := Theme.components_of_templateAt? hfound
        -- the sum is over the templates with the path, which is one
        have hfilter : theme.templates.filter (fun t => e.1.same t.relativePath) = [s] := by
          rw [← hpaths.sole hs]
          refine List.filter_congr fun t _ => ?_
          rw [hswap]
          unfold Path.same
          rw [hcomponents]
        rw [sum_map_ite, hfilter]
        simp [patch?, hfound]
    have hcons : (e :: edits).filterMap (patch? theme) =
        [e].filterMap (patch? theme) ++ edits.filterMap (patch? theme) := by
      rw [← List.filterMap_append]
      rfl
    rw [hcons, List.map_append, List.sum_append, ih (List.pairwise_cons.1 hsorted).2, hpath,
      ← List.sum_map_add]
    exact congrArg List.sum (List.map_congr_left fun t _ => (hshare t).symm)

/-- **The counts** of edits that are applied from the start on. -/
theorem summary_of_ok (hsorted : Sorted edits) (hpaths : c.theme.Distinct)
    (h : applyEdits c tree ⟨0, 0, 0⟩ edits = (c', tree', .ok summary')) : summary' =
      { filesWritten := c.theme.templates.countP fun t => (patch edits t).applied ≠ 0
        applied := (c.theme.templates.map fun t => (patch edits t).applied).sum
        skipped := (c.theme.templates.map fun t => (patch edits t).skipped).sum } := by
  have hwritten := filesWritten_of_ok hsorted h
  have happlied := (mended_of_ok hsorted h).applied
  have hskipped := (mended_of_ok hsorted h).skipped
  rw [sum_patches hsorted hpaths fun _ => rfl, Nat.zero_add] at hwritten happlied hskipped
  -- one file is counted for each template that is changed
  have hcount : (c.theme.templates.map fun t => if (patch edits t).applied = 0 then 0 else 1).sum =
      c.theme.templates.countP fun t => (patch edits t).applied ≠ 0 := by
    induction c.theme.templates with
    | nil => rfl
    | cons t ts ih =>
      rw [List.map_cons, List.sum_cons, ih, List.countP_cons]
      by_cases hzero : (patch edits t).applied = 0
      · simp [hzero]
      · simp [hzero, Nat.add_comm]
  obtain ⟨written, applied, skipped⟩ := summary'
  simp only at hwritten happlied hskipped
  rw [hwritten, happlied, hskipped, hcount]

/-! ### Corrections -/

theorem mend_eq (edits : Edits) : mend edits = fun t =>
    if (patch edits t).applied = 0 then t else t.setSource (patch edits t).text := by
  funext t
  show t.setSource (patch edits t).text = _
  split
  · rename_i hzero
    have htext : (patch edits t).text = t.source := Correction.text_of_applied hzero
    rw [htext]
    rfl
  · rfl

/-- Edits change templates only. -/
theorem theme_of_ok (h : applyEdits c tree summary edits = (c', tree', .ok summary')) :
    c'.theme = { c.theme with templates := c'.theme.templates } := by
  induction edits generalizing c tree summary with
  | nil =>
    simp only [applyEdits, Prod.mk.injEq, Except.ok.injEq] at h
    obtain ⟨rfl, -, -⟩ := h
    rfl
  | cons e edits ih =>
    obtain ⟨c₁, tree₁, summary₁, hstep, hrest⟩ := exists_step h
    rw [ih hrest, hstep.theme_eq]

/-- **Without edits a correction does nothing.** -/
theorem correct_of_forall (hauto : a.autoCorrect = true)
    (hnone : ∀ o ∈ a.offenses, a.correction? o = none) (tree : FileTree) :
    a.correct tree = (a, tree, .ok ⟨0, 0, 0⟩) := by
  have hedits : a.edits = [] := by
    have hplaced : a.placedEdits = [] := by
      refine List.filterMap_eq_nil_iff.2 fun o ho => ?_
      rw [hnone o ho]
      rfl
    rw [edits_eq, hplaced]
    rfl
  have hoffenses : a.uncorrectable = a.offenses := by
    refine List.filter_eq_self.2 fun o ho => ?_
    rw [hnone o ho]
    rfl
  unfold correct
  rw [if_pos hauto, hedits, hoffenses]
  rfl

/-- What the edits of its offenses make of a template. -/
def ownPatch (a : Analyzer) (t : Template) : Correction.Patch := applyAll t.source (a.ownEdits t)

theorem patch_edits (a : Analyzer) : patch a.edits = a.ownPatch := by
  funext t
  unfold patch ownPatch
  rw [chosen_edits]

/-- **A correction does what it has edits for, and nothing else.** Of a theme whose templates have
different paths, let a correction of some offenses succeed, such as those of an analysis. Templates
with an edit to apply have the patched source in memory, and in their files when no two templates
share one. Nothing else is changed in the theme, nor at any other key of the file tree. The summary
counts these templates, and what was applied and skipped in all of them. The offenses without an edit
are left, in their order, and a second correction changes nothing and counts nothing. -/
theorem correct_exact (hpaths : a.theme.Distinct)
    (hok : (a.correct tree).2.2 = .ok summary) :
    let after := (a.correct tree).1
    let tree' := (a.correct tree).2.1
    after.theme = { a.theme with
      templates := a.theme.templates.map fun t =>
        if (a.ownPatch t).applied = 0 then t else t.setSource (a.ownPatch t).text } ∧
    (a.theme.OwnFiles tree → ∀ t ∈ a.theme.templates, (a.ownPatch t).applied ≠ 0 →
      tree'.read t.path = .ok (a.ownPatch t).text) ∧
    (∀ key, (∀ t ∈ a.theme.templates, (a.ownPatch t).applied ≠ 0 →
      tree.resolve t.path ≠ .ok key) → tree'.entry? key = tree.entry? key) ∧
    summary =
      { filesWritten := a.theme.templates.countP fun t => (a.ownPatch t).applied ≠ 0
        applied := (a.theme.templates.map fun t => (a.ownPatch t).applied).sum
        skipped := (a.theme.templates.map fun t => (a.ownPatch t).skipped).sum } ∧
    after.offenses = a.offenses.filter (fun o => a.correction? o = none) ∧
    after.correct tree' = (after, tree', .ok ⟨0, 0, 0⟩) := by
  obtain ⟨c, tree₁, happly, hcorrect, hauto⟩ := exists_applyEdits hok
  have hsorted := sorted_edits a
  have hmended := mended_of_ok hsorted happly
  have hwritten := written_of_ok hsorted hpaths happly
  rw [hcorrect]
  intro after tree'
  refine ⟨?_, fun hfiles t ht happlied => ?_, fun key hkey => ?_, ?_, ?_, ?_⟩
  · -- the theme: a template without an applied edit is mended by doing nothing
    show c.theme = _
    rw [theme_of_ok happly, hmended.templates hpaths, mend_eq, patch_edits]
  · rw [← patch_edits] at happlied ⊢
    exact hwritten.stored hfiles t ⟨ht, happlied⟩
  · refine hwritten.kept key fun t ht => hkey t ht.1 ?_
    rw [← patch_edits]
    exact ht.2
  · rw [← patch_edits]
    exact summary_of_ok hsorted hpaths happly
  · refine List.filter_congr fun o _ => ?_
    cases a.correction? o <;> rfl
  · refine correct_of_forall (a := after) hauto (fun o ho => ?_) tree'
    exact (mem_uncorrectable.1 ho).2

/-- A template in which two edits are applied and a third one overlaps them, beside one without edits
and a file that is no template. -/
theorem correct_exact_overlapping :
    let source : Text := "\x7b%assign x = 1%\x7d".toList
    let t : Template := ⟨⟨⟨"a.liquid"⟩, source⟩, ⟨"a.liquid"⟩⟩
    let other : Template := ⟨⟨⟨"b.liquid"⟩, ['b']⟩, ⟨"b.liquid"⟩⟩
    let theme : Theme := ⟨⟨"."⟩, [t, other], [⟨⟨⟨"config/c.json"⟩, ['x']⟩⟩]⟩
    let tree : FileTree := { entries :=
      [(["a.liquid"], .file (.text source)), (["b.liquid"], .file (.text ['b'])),
        (["config"], .directory), (["config", "c.json"], .file (.text ['x']))] }
    let fresh := new theme [.unusedAssign .empty, .spaceInsideBraces, .validJson] (fun _ => none) true
    let a := fresh.analyze
    let after := (a.correct tree).1
    let tree' := (a.correct tree).2.1
    (a.correct tree).2.2 = .ok ⟨1, 2, 1⟩ ∧
      tree'.read ⟨"a.liquid"⟩ = .ok "\x7b% assign x = 1 %\x7d".toList ∧
      (∀ key, key ≠ ["a.liquid"] → tree'.entry? key = tree.entry? key) ∧
      after.offenses.map (·.check) = ["ValidJson"] ∧
      after.correct tree' = (after, tree', .ok ⟨0, 0, 0⟩) := by
  intro source t other theme tree fresh a after tree'
  have hpaths : a.theme.Distinct := List.pairwise_pair.2 (by decide +kernel)
  have hfiles : a.theme.OwnFiles tree := by
    -- the two templates are stored in files of their own
    have hkeys : tree.resolve ⟨"a.liquid"⟩ = .ok ["a.liquid"] ∧
        tree.resolve ⟨"b.liquid"⟩ = .ok ["b.liquid"] := by decide +kernel
    refine List.pairwise_pair.2 fun key h1 h2 => ?_
    have heq := hkeys.1.symm.trans (h1.trans (h2.symm.trans hkeys.2))
    exact absurd (Except.ok.inj heq) (by decide)
  have hexists : ∀ t ∈ a.theme.templates, tree.isFile t.path = true := by decide +kernel
  obtain ⟨summary, hok⟩ : ∃ summary, (a.correct tree).2.2 = .ok summary :=
    (round_of_isFile (a := fresh) rfl hexists).1
  have hoffenses : a.offenses = fresh.reported :=
    offenses_of_pairwise (fresh_new ..) (by decide +kernel)
  -- the deletion of the tag and the two spaces in it, in the order in which they are scheduled
  have hedits : a.ownEdits t = [.delete ⟨0, 16⟩, .insert 2 " ", .insert 14 " "] := by
    unfold ownEdits
    rw [hoffenses]
    decide +kernel
  have hnone : a.ownEdits other = [] := by
    unfold ownEdits
    rw [hoffenses]
    decide +kernel
  -- the spaces come later in the text and are applied first, and then the deletion reaches into
  -- them
  have hpatch : (a.ownPatch t).text = "\x7b% assign x = 1 %\x7d".toList ∧
      (a.ownPatch t).applied = 2 ∧ (a.ownPatch t).skipped = 1 := by
    unfold ownPatch
    rw [hedits, applyAll_of_increasing (by decide)]
    decide +kernel
  have hother : a.ownPatch other = .start ['b'] := by
    unfold ownPatch
    rw [hnone, Correction.applyAll_nil]
  obtain ⟨htheme, hstored, hkept, hsummary, hleft, hagain⟩ := correct_exact hpaths hok
  -- one file is written, two edits are applied, and the deletion is skipped
  obtain rfl : summary = ⟨1, 2, 1⟩ := by
    rw [hsummary]
    show CorrectionSummary.mk ([t, other].countP fun t => (a.ownPatch t).applied ≠ 0)
      ([t, other].map fun t => (a.ownPatch t).applied).sum
      ([t, other].map fun t => (a.ownPatch t).skipped).sum = _
    simp [hpatch, hother, Correction.Patch.start]
  refine ⟨hok, ?_, fun key hkey => hkept key fun u hu happlied hresolve => ?_, ?_, hagain⟩
  · rw [← hpatch.1]
    refine hstored hfiles t (List.mem_cons_self ..) ?_
    rw [hpatch.2.1]
    decide
  · rcases List.mem_cons.1 hu with rfl | hu
    · have hresolve' : tree.resolve t.path = .ok ["a.liquid"] := by decide +kernel
      exact hkey (Except.ok.inj (hresolve.symm.trans hresolve'))
    · obtain rfl := List.mem_singleton.1 hu
      rw [hother] at happlied
      exact happlied rfl
  · rw [hleft, hoffenses]
    decide +kernel

/-- **Templates that share a file** under different paths are all written to it, so it does not hold
what was made of each of them. -/
theorem file_overwritten_shared :
    let first : Template := ⟨⟨⟨"./a.liquid"⟩, "\x7b\x7by\x7d\x7d".toList⟩, ⟨"./a.liquid"⟩⟩
    let second : Template := ⟨⟨⟨"a.liquid"⟩, "\x7b\x7bx\x7d\x7d".toList⟩, ⟨"a.liquid"⟩⟩
    let theme : Theme := ⟨⟨"."⟩, [first, second], []⟩
    let tree : FileTree := { entries := [(["a.liquid"], .file (.text second.source))] }
    let a := (new theme [.spaceInsideBraces] (fun _ => none) true).analyze
    a.theme.Distinct ∧ (∃ summary, (a.correct tree).2.2 = .ok summary) ∧
      ∃ t ∈ a.theme.templates, (a.ownPatch t).applied ≠ 0 ∧
        (a.correct tree).2.1.read t.path ≠ .ok (a.ownPatch t).text := by
  intro first second theme tree a
  have hpaths : a.theme.Distinct := List.pairwise_pair.2 (by decide +kernel)
  have hfiles : ∀ t ∈ theme.templates, tree.isFile t.path = true := by decide +kernel
  have hoffenses : a.offenses = (new theme [.spaceInsideBraces] (fun _ => none) true).reported :=
    List.mergeSort_of_pairwise (by decide +kernel)
  have hedits : ∀ t ∈ theme.templates, a.ownEdits t = [.insert 2 " ", .insert 3 " "] := by
    unfold ownEdits
    rw [hoffenses]
    decide +kernel
  -- both templates get two spaces, the later one first
  have hpatch : ∀ t ∈ theme.templates, a.ownPatch t =
      [Correction.insert 3 " ", .insert 2 " "].foldl (Correction.Patch.edit t.source)
        (.start t.source) := by
    intro t ht
    unfold ownPatch
    rw [hedits t ht, applyAll_of_increasing (by decide)]
    rfl
  have happlied : ∀ t ∈ theme.templates, (a.ownPatch t).applied ≠ 0 := by
    intro t ht
    rw [hpatch t ht]
    revert t
    decide +kernel
  have hfirst : first ∈ theme.templates := List.mem_cons_self ..
  have hsecond : second ∈ theme.templates := List.mem_cons_of_mem _ (List.mem_cons_self ..)
  have htexts : (a.ownPatch first).text ≠ (a.ownPatch second).text := by
    rw [hpatch first hfirst, hpatch second hsecond]
    decide +kernel
  -- a leading dot does not matter, so both paths read the same file
  have hread : ∀ t : FileTree, t.read first.path = t.read second.path := by
    intro t
    have hresolve : t.resolve first.path = t.resolve second.path := by
      have hpath : first.path.components = .here :: second.path.components ∧
          first.path.text.isEmpty = second.path.text.isEmpty ∧
          FileTree.namesDirectory first.path = FileTree.namesDirectory second.path := by
        decide +kernel
      have hdot : t.follow t.home (.here :: second.path.components) =
          t.follow t.home second.path.components := by
        rw [FileTree.follow, t.entry?_home]
      unfold FileTree.resolve
      rw [hpath.1, hpath.2.1, hpath.2.2, hdot]
    unfold FileTree.read FileTree.find
    rw [hresolve]
  refine ⟨hpaths, (round_of_isFile rfl hfiles).1, ?_⟩
  by_cases h : (a.correct tree).2.1.read first.path = .ok (a.ownPatch first).text
  · refine ⟨second, hsecond, happlied second hsecond, fun h' => htexts ?_⟩
    exact Except.ok.inj (h.symm.trans ((hread _).trans h'))
  · exact ⟨first, hfirst, happlied first hfirst, h⟩

end Analyzer

end LiquidLint
