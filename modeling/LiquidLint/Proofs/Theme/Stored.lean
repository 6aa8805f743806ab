import LiquidLint.Proofs.Analyzer.Effect
import LiquidLint.Proofs.Analyzer.Memory
import LiquidLint.Proofs.FileTree.Listing

/-!
# Themes that are stored

A theme is stored when every template holds what its file holds. Corrections that succeed keep themes
stored, whatever they change: a changed template is written before the next one is looked at. `Saved`
says what one correction, and so any number of calls, leaves of a theme and of the file tree: the
theme has the same files, and the tree is the same but for what the files of templates hold.
-/

namespace LiquidLint

namespace Theme

variable {theme theme' theme'' : Theme} {tree tree' tree'' : FileTree} {path : Path} {source : Text}
  {t : Template} {key : List String}

/-- Every template holds what its file holds, which is not the file of another template. -/
structure Stored (theme : Theme) (tree : FileTree) : Prop where
  read : ∀ t ∈ theme.templates, tree.read t.path = .ok t.source
  ownFiles : theme.OwnFiles tree

/-- Themes of the same files, whatever the templates hold. -/
structure SameFiles (theme theme' : Theme) : Prop where
  root : theme'.root = theme.root
  jsonFiles : theme'.jsonFiles = theme.jsonFiles
  templates : theme'.templates.map (fun t => (t.path, t.relativePath)) =
    theme.templates.map (fun t => (t.path, t.relativePath))

theorem SameFiles.refl (theme : Theme) : SameFiles theme theme := ⟨rfl, rfl, rfl⟩

theorem SameFiles.trans (h : SameFiles theme theme') (h' : SameFiles theme' theme'') :
    SameFiles theme theme'' :=
  ⟨h'.root.trans h.root, h'.jsonFiles.trans h.jsonFiles, h'.templates.trans h.templates⟩

theorem SameFiles.paths (h : SameFiles theme theme') :
    theme'.templates.map (·.path) = theme.templates.map (·.path) := by
  have hfirst := congrArg (List.map Prod.fst) h.templates
  rwa [List.map_map, List.map_map] at hfirst

/-- Another source does not make another file. -/
theorem sameFiles_setSource (h : theme.templateAt? path = some t) (source : Text) :
    SameFiles theme (theme.setSource path source) := by
  obtain ⟨before, after, htemplates, hset⟩ := exists_setSource h
  refine ⟨rfl, rfl, ?_⟩
  rw [hset source, htemplates, List.map_append, List.map_append]
  rfl

/-- A template is stored at a key. -/
def At (theme : Theme) (tree : FileTree) (key : List String) : Prop :=
  ∃ p ∈ theme.templates.map (·.path), tree.resolve p = .ok key

/-! ### Saving -/

/-- What saving changes leaves of a theme and a file tree. -/
structure Saved (theme : Theme) (tree : FileTree) (theme' : Theme) (tree' : FileTree) : Prop where
  stored : theme'.Stored tree'
  files : SameFiles theme theme'
  rewritten : FileTree.Rewritten (theme.At tree) tree tree'

theorem Saved.refl (h : theme.Stored tree) : Saved theme tree theme tree :=
  ⟨h, .refl theme, .refl _ tree⟩

theorem Saved.at_iff (h : Saved theme tree theme' tree') : theme'.At tree' key ↔ theme.At tree key := by
  unfold At
  rw [h.files.paths]
  simp only [h.rewritten.shape.resolve]

theorem Saved.trans (h : Saved theme tree theme' tree') (h' : Saved theme' tree' theme'' tree'') :
    Saved theme tree theme'' tree'' := by
  have hkeys : theme'.At tree' = theme.At tree := funext fun key => propext h.at_iff
  refine ⟨h'.stored, h.files.trans h'.files, h.rewritten.trans ?_⟩
  rw [← hkeys]
  exact h'.rewritten

/-- **A template that is changed and written** leaves the theme stored. -/
theorem saved_setSource {e : Path} (h : theme.Stored tree) (hfound : theme.templateAt? e = some t)
    (hwrite : tree.write t.path source = .ok tree') :
    Saved theme tree (theme.setSource e source) tree' := by
  have ht : t ∈ theme.templates := List.mem_of_find?_eq_some hfound
  have hback := FileTree.read_of_write hwrite
  obtain ⟨key, hkey, hdir, -, rfl⟩ := FileTree.exists_put_of_write hwrite
  obtain ⟨before, after, htemplates, hset⟩ := exists_setSource hfound
  -- the other templates have other files
  have hother : ∀ u ∈ before ++ after, tree.resolve u.path ≠ .ok key := by
    have hpairs := h.ownFiles
    unfold OwnFiles at hpairs
    rw [htemplates, List.pairwise_map, List.pairwise_append, List.pairwise_cons] at hpairs
    obtain ⟨-, ⟨hafter, -⟩, hbefore⟩ := hpairs
    intro u hu
    rcases List.mem_append.1 hu with hu | hu
    · intro hukey
      exact hbefore u hu t (List.mem_cons_self ..) key hukey hkey
    · exact hafter u hu key hkey
  refine ⟨⟨fun u hu => ?_, ?_⟩, sameFiles_setSource hfound source, ?_⟩
  · rw [hset source, List.mem_append, List.mem_cons, or_left_comm, ← List.mem_append] at hu
    rcases hu with rfl | hu
    · exact hback
    · have hmem : u ∈ theme.templates := by
        rw [htemplates, List.mem_append, List.mem_cons, or_left_comm, ← List.mem_append]
        exact .inr hu
      exact FileTree.read_put hdir (hother u hu) (h.read u hmem)
  · exact h.ownFiles.put (files_setSource ..) hdir
  · -- the file was there, since the template could be read
    obtain ⟨k, hk, hfile⟩ := FileTree.read_eq_ok_iff.1 (h.read t ht)
    obtain rfl := Except.ok.inj (hkey.symm.trans hk)
    exact FileTree.rewritten_put ⟨t.path, List.mem_map.2 ⟨t, ht, rfl⟩, hkey⟩ hfile

end Theme

/-! ### Corrections -/

namespace Analyzer

open Theme (Saved)

variable {a : Analyzer} {edits : Edits} {e : Path × List Correction} {theme theme₁ theme' : Theme}
  {tree tree₁ tree' : FileTree} {summary summary₁ summary' : CorrectionSummary}

/-- One path after the other, themes stay stored. -/
theorem Step.saved (h : Step e theme tree summary theme₁ tree₁ summary₁) (hs : theme.Stored tree) :
    Saved theme tree theme₁ tree₁ := by
  cases h with
  | missing hfound => exact .refl hs
  | idle hfound hzero => exact .refl hs
  | changed hfound happlied hwrite => exact Theme.saved_setSource hs hfound hwrite

theorem saved_of_ok {c c' : CachedTheme} (hs : c.theme.Stored tree)
    (h : applyEdits c tree summary edits = (c', tree', .ok summary')) :
    Saved c.theme tree c'.theme tree' := by
  induction edits generalizing c tree summary with
  | nil =>
    simp only [applyEdits, Prod.mk.injEq, Except.ok.injEq] at h
    obtain ⟨rfl, rfl, -⟩ := h
    exact .refl hs
  | cons e edits ih =>
    obtain ⟨c₁, tree₁, summary₁, hstep, hrest⟩ := exists_step h
    have hfirst := hstep.saved hs
    exact hfirst.trans (ih hfirst.stored hrest)

/-- **A correction that succeeds saves what it changes.** -/
theorem saved_correct (hs : a.theme.Stored tree) (hok : (a.correct tree).2.2 = .ok summary) :
    Saved a.theme tree (a.correct tree).1.theme (a.correct tree).2.1 := by
  obtain ⟨c, tree', happly, hcorrect, -⟩ := exists_applyEdits hok
  rw [hcorrect]
  exact saved_of_ok hs happly

/-- A correction changes templates only. -/
theorem theme_correct {a : Analyzer} (hok : (a.correct tree).2.2 = .ok summary) :
    (a.correct tree).1.theme =
      { a.theme with templates := (a.correct tree).1.theme.templates } := by
  obtain ⟨c, tree', happly, hcorrect, -⟩ := exists_applyEdits hok
  rw [hcorrect]
  exact theme_of_ok happly

end Analyzer

namespace Call

variable {s s' : State} {calls : List Call} {call : Call}

theorem saved_perform (hs : s.1.theme.Stored s.2) (h : perform s call = some s') :
    Theme.Saved s.1.theme s.2 s'.1.theme s'.2 := by
  rcases perform_cases h with rfl | ⟨summary, hok, rfl⟩ | rfl
  · exact .refl hs
  · exact Analyzer.saved_correct hs hok
  · exact .refl hs

/-- **Calls save what they change.** -/
theorem saved_performAll (hs : s.1.theme.Stored s.2) (h : performAll s calls = some s') :
    Theme.Saved s.1.theme s.2 s'.1.theme s'.2 := by
  refine performAll_induction (P := fun r => Theme.Saved s.1.theme s.2 r.1.theme r.2)
    (fun r call r' hr hcall => ?_) (.refl hs) h
  exact hr.trans (saved_perform hr.stored hcall)

theorem theme_perform (h : perform s call = some s') :
    s'.1.theme = { s.1.theme with templates := s'.1.theme.templates } := by
  rcases perform_cases h with rfl | ⟨summary, hok, rfl⟩ | rfl
  · rfl
  · exact Analyzer.theme_correct hok
  · rfl

/-- **Calls change templates only**, so JSON files go on holding what they held. -/
theorem theme_performAll (h : performAll s calls = some s') :
    s'.1.theme = { s.1.theme with templates := s'.1.theme.templates } := by
  refine performAll_induction
    (P := fun r => r.1.theme = { s.1.theme with templates := r.1.theme.templates })
    (fun r call r' hr hcall => ?_) rfl h
  rw [theme_perform hcall, hr]

end Call

end LiquidLint
