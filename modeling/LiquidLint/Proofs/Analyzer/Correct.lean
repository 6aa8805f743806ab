import LiquidLint.Proofs.Analyzer.Reports
import LiquidLint.Proofs.Correction.Taken
import Mathlib.Algebra.GroupWithZero.Nat

/-!
# What a round of corrections does to a theme

The edits of a round are grouped by path, so each template gets its own pending corrections
(`mem_chosen_edits`). Paths are handled one after the other, and a path reaches one template only,
so the order does not matter: when all files can be written, every template is passed over once
(`Ready.round`).
-/

namespace LiquidLint

open Correction (applyAll schedule)

/-! ### Edits by path -/

namespace Analyzer

/-- Edits grouped by path, in the order of paths. -/
abbrev Edits := List (Path × List Correction)

/-- The edits for a template. -/
def chosen (edits : Edits) (t : Template) : List Correction :=
  ((edits.find? fun e => e.1.same t.relativePath).map (·.2)).getD []

/-- No path has two groups. -/
def Sorted (edits : Edits) : Prop := edits.Pairwise fun e e' => e.1.compare e'.1 = .lt

variable {edits : Edits} {path : Path} {c d : Correction} {t : Template}

theorem sorted_addEdit (h : Sorted edits) : Sorted (addEdit path c edits) ∧
    ∀ q : Path, q.compare path = .lt → (∀ e ∈ edits, q.compare e.1 = .lt) →
      ∀ e ∈ addEdit path c edits, q.compare e.1 = .lt := by
  -- the second part keeps the rest of the list above its first path, so both are shown together
  induction edits with
  | nil =>
    refine ⟨List.pairwise_singleton _ _, fun q hq _ e he => ?_⟩
    rw [List.mem_singleton.1 he]
    exact hq
  | cons e edits ih =>
    obtain ⟨p, cs⟩ := e
    obtain ⟨hfirst, hrest⟩ := List.pairwise_cons.1 h
    unfold addEdit
    split
    · -- the path is new and comes first
      rename_i hlt
      refine ⟨List.pairwise_cons.2 ⟨fun e he => ?_, h⟩, fun q hq hall e he => ?_⟩
      · rcases List.mem_cons.1 he with rfl | he
        · exact hlt
        · exact Path.compare_trans hlt (hfirst e he)
      · rcases List.mem_cons.1 he with rfl | he
        · exact hq
        · exact hall e he
    · refine ⟨List.pairwise_cons.2 ⟨hfirst, hrest⟩, fun q hq hall e he => ?_⟩
      rcases List.mem_cons.1 he with rfl | he
      · exact hall (p, cs) (List.mem_cons_self ..)
      · exact hall e (List.mem_cons_of_mem _ he)
    · rename_i hgt
      obtain ⟨hsorted, hbelow⟩ := ih hrest
      refine ⟨List.pairwise_cons.2 ⟨?_, hsorted⟩, fun q hq hall e he => ?_⟩
      · exact hbelow p (Path.compare_lt_of_gt hgt) hfirst
      · rcases List.mem_cons.1 he with rfl | he
        · exact hall (p, cs) (List.mem_cons_self ..)
        · exact hbelow q hq (fun e he => hall e (List.mem_cons_of_mem _ he)) e he

theorem mem_addEdit {r : Path} : (∃ e ∈ addEdit path c edits, e.1.same r = true ∧ d ∈ e.2) ↔
    (path.same r = true ∧ d = c) ∨ ∃ e ∈ edits, e.1.same r = true ∧ d ∈ e.2 := by
  induction edits with
  | nil => simp [addEdit]
  | cons e edits ih =>
    obtain ⟨p, cs⟩ := e
    unfold addEdit
    split
    · simp only [List.exists_mem_cons_iff, List.mem_singleton]
    · rename_i heq
      -- the group has the path of the edit
      have hsame : path.same r = p.same r := by
        unfold Path.same
        rw [Path.compare_eq_iff.1 heq]
      simp only [List.exists_mem_cons_iff, List.mem_append, List.mem_singleton, hsame]
      rw [and_or_left, or_assoc, or_left_comm]
    · rw [List.exists_mem_cons_iff, List.exists_mem_cons_iff, ih, or_left_comm]

theorem chosen_cons_of_same {cs : List Correction} (h : path.same t.relativePath = true) :
    chosen ((path, cs) :: edits) t = cs := by
  unfold chosen
  rw [List.find?_cons_of_pos (by exact h)]
  rfl

theorem chosen_cons_of_not {cs : List Correction} (h : ¬ path.same t.relativePath = true) :
    chosen ((path, cs) :: edits) t = chosen edits t := by
  unfold chosen
  rw [List.find?_cons_of_neg (by exact h)]

theorem chosen_of_forall (h : ∀ e ∈ edits, ¬ e.1.same t.relativePath = true) :
    chosen edits t = [] := by
  unfold chosen
  rw [List.find?_eq_none.2 h]
  rfl

theorem Sorted.mem_chosen (h : Sorted edits) :
    c ∈ chosen edits t ↔ ∃ e ∈ edits, e.1.same t.relativePath = true ∧ c ∈ e.2 := by
  induction edits with
  | nil => simp [chosen]
  | cons e edits ih =>
    obtain ⟨p, cs⟩ := e
    obtain ⟨hfirst, hrest⟩ := List.pairwise_cons.1 h
    rw [List.exists_mem_cons_iff]
    by_cases hsame : p.same t.relativePath = true
    · -- no later group has the path
      have hlater : ¬ ∃ e ∈ edits, e.1.same t.relativePath = true ∧ c ∈ e.2 := by
        rintro ⟨e, he, hsame', -⟩
        have heq : p.compare e.1 = .eq := by
          rw [Path.compare_eq_iff, Path.same_iff.1 hsame, Path.same_iff.1 hsame']
        rw [hfirst e he] at heq
        cases heq
      rw [chosen_cons_of_same hsame]
      simp only [hsame, true_and, hlater, or_false]
    · rw [chosen_cons_of_not hsame, ih hrest]
      simp only [hsame, Bool.false_eq_true, false_and, false_or]

/-- The groups of a list of offenses. -/
theorem mem_edits (a : Analyzer) (offenses : List Offense) (edits : Edits) (h : Sorted edits) :
    let all := offenses.foldl
      (fun edits o =>
        match a.correction? o with
        | some c => addEdit o.location.path c edits
        | none => edits) edits
    Sorted all ∧ ∀ r, (∃ e ∈ all, e.1.same r = true ∧ c ∈ e.2) ↔
      (∃ o ∈ offenses, o.location.path.same r = true ∧ a.correction? o = some c) ∨
        ∃ e ∈ edits, e.1.same r = true ∧ c ∈ e.2 := by
  -- the induction is on the offenses that are still to be sorted into groups
  induction offenses generalizing edits with
  | nil => exact ⟨h, by simp⟩
  | cons o offenses ih =>
    rw [List.foldl_cons]
    cases hc : a.correction? o with
    | none =>
      obtain ⟨hsorted, hmem⟩ := ih edits h
      refine ⟨hsorted, fun r => ?_⟩
      rw [hmem, List.exists_mem_cons_iff, hc]
      simp
    | some c' =>
      obtain ⟨hsorted, hmem⟩ := ih (addEdit o.location.path c' edits) (sorted_addEdit h).1
      refine ⟨hsorted, fun r => ?_⟩
      rw [hmem, mem_addEdit, List.exists_mem_cons_iff, hc, Option.some.injEq]
      constructor
      · -- an edit is the new one or was there before, and the two sides list these cases differently
        rintro (h | ⟨h1, rfl⟩ | h)
        · exact Or.inl (Or.inr h)
        · exact Or.inl (Or.inl ⟨h1, rfl⟩)
        · exact Or.inr h
      · rintro ((⟨h1, rfl⟩ | h) | h)
        · exact Or.inr (Or.inl ⟨h1, rfl⟩)
        · exact Or.inl h
        · exact Or.inr (Or.inr h)

theorem sorted_edits (a : Analyzer) : Sorted a.edits :=
  (mem_edits (c := .insert 0 "") a a.offenses [] List.Pairwise.nil).1

/-- The edits for a template are those of the offenses with its path. -/
theorem mem_chosen_edits_iff {a : Analyzer} : c ∈ chosen a.edits t ↔
    ∃ o ∈ a.offenses, o.location.path.same t.relativePath = true ∧ a.correction? o = some c := by
  obtain ⟨hsorted, hmem⟩ := mem_edits (c := c) a a.offenses [] List.Pairwise.nil
  refine (Sorted.mem_chosen hsorted).trans ((hmem t.relativePath).trans ?_)
  simp only [List.not_mem_nil, false_and, exists_false, or_false]

/-- Offenses of an analysis are mended by the corrections they carry. -/
theorem OfBuiltins.correction?_eq {a : Analyzer} (h : a.OfBuiltins) {o : Offense}
    (ho : o ∈ a.analyze.offenses) : a.analyze.correction? o = o.correction := by
  -- no built-in check mends in a way of its own
  have hcorrect : ∀ i, a.analyze.instance? o.check = some i → i.check.correct o = o.correction := by
    intro i hi
    obtain ⟨hbuiltin, -⟩ := h.analyze.instance? hi
    cases hcheck : i.check with
    | scripted s =>
      rw [hcheck] at hbuiltin
      cases hbuiltin
    | _ => rfl
  unfold correction?
  -- without an attached edit there is none, whatever the check is allowed to do
  cases hc : o.correction with
  | none =>
    split
    · rename_i i hi
      rw [hcorrect i hi, hc]
      split <;> rfl
    · rfl
  | some c =>
    -- an attached edit comes from a correcting check, whose instance may use it
    obtain ⟨d, hd, hname, -⟩ := h.exists_template ho hc
    split
    · rename_i i hi
      obtain ⟨hbuiltin, hname'⟩ := h.analyze.instance? hi
      have hcan := (hbuiltin.canCorrect_of_name hd (hname'.trans hname)).1
      rw [if_pos hcan, hcorrect i hi, hc]
    · -- the check that reported the offense is still there
      rename_i hnone
      obtain ⟨⟨i, hi, f, -, rfl⟩, -⟩ := (mem_offenses_analyze h.fresh).1 ho
      obtain ⟨j, hj, hname'⟩ := exists_instance_analyze hi
      have hne := List.find?_eq_none.1 hnone j hj
      exact absurd hname' (by simpa [Instance.offense] using hne)

theorem OfBuiltins.mem_pending_of_chosen {a : Analyzer} (h : a.OfBuiltins) (hsole : a.theme.Sole t)
    (hc : c ∈ chosen a.analyze.edits t) : c ∈ t.pending := by
  obtain ⟨o, ho, hsame, hc⟩ := mem_chosen_edits_iff.1 hc
  exact h.mem_pending hsole ho hsame ((h.correction?_eq ho).symm.trans hc)

/-- **The edits for a template** are its pending corrections. -/
theorem Ready.mem_chosen_edits {a : Analyzer} (h : a.Ready) (hsole : a.theme.Sole t) :
    c ∈ chosen a.analyze.edits t ↔ c ∈ t.pending := by
  refine ⟨h.toOfBuiltins.mem_pending_of_chosen hsole, fun hc => ?_⟩
  obtain ⟨o, ho, hsame, hc⟩ := (h.exists_offense_iff hsole).2 hc
  exact mem_chosen_edits_iff.2 ⟨o, ho, hsame, (h.toOfBuiltins.correction?_eq ho).trans hc⟩

end Analyzer

/-! ### Edits path by path -/

namespace Theme

variable {theme : Theme} {path p q : Path} {source : Text} {t : Template}

theorem templateAt?_congr (h : p.components = q.components) :
    theme.templateAt? p = theme.templateAt? q := by
  unfold templateAt? Path.same
  rw [h]

theorem components_of_templateAt? (h : theme.templateAt? path = some t) :
    t.relativePath.components = path.components := by
  have hsame : t.relativePath.same path = true := by simpa using List.find?_some h
  exact Path.same_iff.1 hsame

theorem Sole.templateAt? (h : theme.Sole t) : theme.templateAt? t.relativePath = some t := by
  unfold Theme.templateAt?
  rw [← List.head?_filter, h]
  rfl

/-- A new source is found where it was put. -/
theorem templateAt?_setSource (h : q.components = path.components) :
    (theme.setSource path source).templateAt? q = (theme.templateAt? q).map (·.setSource source) := by
  have hsame : ∀ r : Path, r.same path = r.same q := by
    intro r
    unfold Path.same
    rw [h]
  unfold setSource templateAt?
  induction theme.templates with
  | nil => rfl
  | cons t ts ih =>
    unfold setSourceIn
    rw [hsame]
    split
    · rename_i hreached
      rw [List.find?_cons_of_pos (by exact hreached), List.find?_cons_of_pos (by exact hreached)]
      rfl
    · rename_i hmissed
      rw [List.find?_cons_of_neg (by exact hmissed), List.find?_cons_of_neg (by exact hmissed)]
      exact ih

/-- Nothing else changes. -/
theorem templateAt?_setSource_of_ne (h : q.components ≠ path.components) :
    (theme.setSource path source).templateAt? q = theme.templateAt? q := by
  unfold setSource templateAt?
  induction theme.templates with
  | nil => rfl
  | cons t ts ih =>
    unfold setSourceIn
    split
    · rename_i hreached
      have hmissed : ¬ t.relativePath.same q = true := by
        intro hsame
        exact h ((Path.same_iff.1 hsame).symm.trans (Path.same_iff.1 hreached))
      rw [List.find?_cons_of_neg (by exact hmissed), List.find?_cons_of_neg (by exact hmissed)]
    · by_cases hsame : t.relativePath.same q = true
      · rw [List.find?_cons_of_pos (by exact hsame), List.find?_cons_of_pos (by exact hsame)]
      · rw [List.find?_cons_of_neg (by exact hsame), List.find?_cons_of_neg (by exact hsame)]
        exact ih

theorem paths_setSource (theme : Theme) (path : Path) (source : Text) :
    (theme.setSource path source).templates.map (·.relativePath) =
      theme.templates.map (·.relativePath) := by
  unfold setSource
  induction theme.templates with
  | nil => rfl
  | cons t ts ih =>
    unfold setSourceIn
    split
    · rfl
    · rw [List.map_cons, ih, List.map_cons]

/-- The templates are those found at their paths. -/
theorem Distinct.map_templateAt? (h : theme.Distinct) :
    (theme.templates.map (·.relativePath)).map theme.templateAt? = theme.templates.map some := by
  rw [List.map_map]
  exact List.map_congr_left fun t ht => (h.sole ht).templateAt?

/-- Templates that keep their paths keep them apart. -/
theorem Distinct.of_paths {theme' : Theme} (h : theme.Distinct)
    (hpaths : theme'.templates.map (·.relativePath) = theme.templates.map (·.relativePath)) :
    theme'.Distinct := by
  unfold Distinct at h ⊢
  rw [← List.pairwise_map (f := fun t : Template => t.relativePath)
    (R := fun p q => p.same q = false)] at h ⊢
  rw [hpaths]
  exact h

end Theme

namespace Analyzer

variable {edits : Edits} {e : Path × List Correction} {theme theme₁ theme' : Theme}
  {c c' : CachedTheme} {tree tree₁ tree' : FileTree} {summary summary₁ summary' : CorrectionSummary}
  {t : Template}

/-- A template with its edits applied. -/
def mend (edits : Edits) (t : Template) : Template :=
  t.setSource (applyAll t.source (chosen edits t)).text

/-- What a group of edits makes of the template with its path, if there is one. -/
def patch? (theme : Theme) (e : Path × List Correction) : Option Correction.Patch :=
  (theme.templateAt? e.1).map fun t => applyAll t.source e.2

theorem mend_of_forall (h : ∀ e ∈ edits, ¬ e.1.same t.relativePath = true) : mend edits t = t := by
  unfold mend
  rw [chosen_of_forall h, Correction.applyAll_nil]
  rfl

theorem mend_singleton (h : e.1.same t.relativePath = true) :
    mend [e] t = t.setSource (applyAll t.source e.2).text := by
  unfold mend
  rw [chosen_cons_of_same h]

theorem mend_singleton_of_not (h : ¬ e.1.same t.relativePath = true) : mend [e] t = t :=
  mend_of_forall (by simpa using h)

theorem Sorted.later (h : Sorted (e :: edits)) (hsame : e.1.same t.relativePath = true) :
    ∀ e' ∈ edits, ¬ e'.1.same t.relativePath = true := by
  intro e' he' hsame'
  have heq : e.1.compare e'.1 = .eq := by
    rw [Path.compare_eq_iff, Path.same_iff.1 hsame, Path.same_iff.1 hsame']
  rw [(List.pairwise_cons.1 h).1 e' he'] at heq
  cases heq

/-- A group of edits does not get in the way of later ones. -/
theorem Sorted.mend_cons (h : Sorted (e :: edits)) (t : Template) :
    mend (e :: edits) t = mend edits (mend [e] t) := by
  by_cases hsame : e.1.same t.relativePath = true
  · rw [mend_singleton hsame]
    have hlater := mend_of_forall (t := t.setSource (applyAll t.source e.2).text) (h.later hsame)
    rw [hlater]
    unfold mend
    rw [chosen_cons_of_same hsame]
  · rw [mend_singleton_of_not hsame]
    unfold mend
    rw [chosen_cons_of_not hsame]

theorem Sorted.chosen_eq (h : Sorted edits) (he : e ∈ edits)
    (hsame : e.1.same t.relativePath = true) : chosen edits t = e.2 := by
  induction edits with
  | nil => cases he
  | cons e' edits ih =>
    rcases List.mem_cons.1 he with rfl | he
    · exact chosen_cons_of_same hsame
    · have hnot : ¬ e'.1.same t.relativePath = true := fun hsame' => h.later hsame' e he hsame
      exact (chosen_cons_of_not hnot).trans (ih (List.pairwise_cons.1 h).2 he)

/-- What holds of all patches holds of what the edits make of the templates. -/
theorem Sorted.forall_patch_iff (h : Sorted edits) {P : Correction.Patch → Prop}
    (hstart : ∀ source, P (.start source)) :
    (∀ p ∈ edits.filterMap (patch? theme), P p) ↔
      ∀ path t, theme.templateAt? path = some t → P (applyAll t.source (chosen edits t)) := by
  constructor
  · intro hall path t ht
    -- a template without a group is as when patching starts
    by_cases hnone : ∀ e ∈ edits, ¬ e.1.same t.relativePath = true
    · rw [chosen_of_forall hnone, Correction.applyAll_nil]
      exact hstart t.source
    · -- otherwise its patch is that of the one group for its path
      push Not at hnone
      obtain ⟨e, he, hsame⟩ := hnone
      rw [h.chosen_eq he hsame]
      refine hall _ (List.mem_filterMap.2 ⟨e, he, ?_⟩)
      have hcomponents := (Path.same_iff.1 hsame).trans (Theme.components_of_templateAt? ht)
      unfold patch?
      rw [Theme.templateAt?_congr hcomponents, ht]
      rfl
  · intro hall p hp
    obtain ⟨e, he, hp⟩ := List.mem_filterMap.1 hp
    obtain ⟨t, ht, rfl⟩ := Option.map_eq_some_iff.1 hp
    have hsame : e.1.same t.relativePath = true :=
      Path.same_iff.2 (Theme.components_of_templateAt? ht).symm
    rw [← h.chosen_eq he hsame]
    exact hall e.1 t ht

/-- What some edits do to a theme and to the counts. -/
structure Mended (edits : Edits) (theme theme' : Theme) (summary summary' : CorrectionSummary) :
    Prop where
  templateAt? : ∀ path, theme'.templateAt? path = (theme.templateAt? path).map (mend edits)
  paths : theme'.templates.map (·.relativePath) = theme.templates.map (·.relativePath)
  applied : summary'.applied =
    summary.applied + ((edits.filterMap (patch? theme)).map (·.applied)).sum
  skipped : summary'.skipped =
    summary.skipped + ((edits.filterMap (patch? theme)).map (·.skipped)).sum

/-- Later groups of edits find their templates as they were. -/
theorem Mended.patch? (h : Mended [e] theme theme' summary summary')
    (hsorted : Sorted (e :: edits)) :
    edits.filterMap (patch? theme') = edits.filterMap (patch? theme) := by
  refine List.filterMap_congr fun e' he' => ?_
  unfold Analyzer.patch?
  rw [h.templateAt? e'.1]
  cases ht : theme.templateAt? e'.1 with
  | none => rfl
  | some t =>
    have hsame : e'.1.same t.relativePath = true :=
      Path.same_iff.2 (Theme.components_of_templateAt? ht).symm
    rw [Option.map_some, mend_singleton_of_not fun hsame' => hsorted.later hsame' e' he' hsame]

/-- **Edits of one path and those of later ones.** -/
theorem Mended.cons (hsorted : Sorted (e :: edits))
    (h₁ : Mended [e] theme theme₁ summary summary₁)
    (h : Mended edits theme₁ theme' summary₁ summary') :
    Mended (e :: edits) theme theme' summary summary' := by
  -- the patches of later groups are the same before and after the first group
  have hcons : (e :: edits).filterMap (Analyzer.patch? theme) =
      [e].filterMap (Analyzer.patch? theme) ++ edits.filterMap (Analyzer.patch? theme₁) := by
    rw [h₁.patch? hsorted, ← List.filterMap_append]
    rfl
  refine ⟨fun path => ?_, h.paths.trans h₁.paths, ?_, ?_⟩
  · rw [h.templateAt?, h₁.templateAt?, Option.map_map]
    congr 1
    funext t
    exact (hsorted.mend_cons t).symm
  · rw [hcons, List.map_append, List.sum_append, h.applied, h₁.applied, Nat.add_assoc]
  · rw [hcons, List.map_append, List.sum_append, h.skipped, h₁.skipped, Nat.add_assoc]

/-- Edits of another path leave a template alone. -/
theorem templateAt?_mend_of_ne {q : Path} (hne : q.components ≠ e.1.components) :
    (theme.templateAt? q).map (mend [e]) = theme.templateAt? q := by
  cases ht : theme.templateAt? q with
  | none => rfl
  | some t =>
    have hcomponents := Theme.components_of_templateAt? ht
    rw [Option.map_some, mend_singleton_of_not fun hsame => ?_]
    exact hne ((Path.same_iff.1 hsame).trans hcomponents).symm

/-- Edits of a path that no template has do nothing. -/
theorem mended_of_none (hnone : theme.templateAt? e.1 = none) :
    Mended [e] theme theme summary summary := by
  have hpatch : [e].filterMap (Analyzer.patch? theme) = [] := by simp [Analyzer.patch?, hnone]
  refine ⟨fun q => ?_, rfl, ?_, ?_⟩
  · by_cases hq : q.components = e.1.components
    · rw [Theme.templateAt?_congr hq, hnone]
      rfl
    · exact (templateAt?_mend_of_ne hq).symm
  · rw [hpatch]
    rfl
  · rw [hpatch]
    rfl

/-- Edits of the path of a template are applied to it and to no other, and are counted. -/
theorem mended_of_some (hfound : theme.templateAt? e.1 = some t)
    (hmend : theme'.templateAt? e.1 = some (t.setSource (applyAll t.source e.2).text))
    (hother : ∀ q : Path, q.components ≠ e.1.components →
      theme'.templateAt? q = theme.templateAt? q)
    (hpaths : theme'.templates.map (·.relativePath) = theme.templates.map (·.relativePath))
    (happlied : summary'.applied = summary.applied + (applyAll t.source e.2).applied)
    (hskipped : summary'.skipped = summary.skipped + (applyAll t.source e.2).skipped) :
    Mended [e] theme theme' summary summary' := by
  -- the list has one path, and the patch for it is that of `t`
  have hpatch : [e].filterMap (Analyzer.patch? theme) = [applyAll t.source e.2] := by
    simp [Analyzer.patch?, hfound]
  have hsame : e.1.same t.relativePath = true :=
    Path.same_iff.2 (Theme.components_of_templateAt? hfound).symm
  refine ⟨fun q => ?_, hpaths, ?_, ?_⟩
  · by_cases hq : q.components = e.1.components
    · rw [Theme.templateAt?_congr hq, Theme.templateAt?_congr hq, hmend, hfound, Option.map_some,
        mend_singleton hsame]
    · rw [hother q hq, templateAt?_mend_of_ne hq]
  · rw [hpatch]
    exact happlied
  · rw [hpatch]
    exact hskipped

/-- What can happen to the edits of one path. -/
inductive Step (e : Path × List Correction) (theme : Theme) (tree : FileTree)
    (summary : CorrectionSummary) : Theme → FileTree → CorrectionSummary → Prop
  /-- There is no template with the path. -/
  | missing (hfound : theme.templateAt? e.1 = none) : Step e theme tree summary theme tree summary
  /-- Nothing is applied. -/
  | idle {t : Template} (hfound : theme.templateAt? e.1 = some t)
      (hzero : (applyAll t.source e.2).applied = 0) :
      Step e theme tree summary theme tree
        { summary with
          applied := summary.applied + (applyAll t.source e.2).applied
          skipped := summary.skipped + (applyAll t.source e.2).skipped }
  /-- The template is changed and written. -/
  | changed {t : Template} {tree₁ : FileTree} (hfound : theme.templateAt? e.1 = some t)
      (happlied : (applyAll t.source e.2).applied ≠ 0)
      (hwrite : tree.write t.path (applyAll t.source e.2).text = .ok tree₁) :
      Step e theme tree summary (theme.setSource e.1 (applyAll t.source e.2).text) tree₁
        { filesWritten := summary.filesWritten + 1
          applied := summary.applied + (applyAll t.source e.2).applied
          skipped := summary.skipped + (applyAll t.source e.2).skipped }

/-- **Edits are applied path by path**, when all files can be written. -/
theorem exists_step (h : applyEdits c tree summary (e :: edits) = (c', tree', .ok summary')) :
    ∃ c₁ tree₁ summary₁, Step e c.theme tree summary c₁.theme tree₁ summary₁ ∧
      applyEdits c₁ tree₁ summary₁ edits = (c', tree', .ok summary') := by
  unfold applyEdits at h
  split at h
  · rename_i hnone
    exact ⟨c, tree, summary, .missing hnone, h⟩
  · rename_i t hfound
    dsimp only at h
    split at h
    · rename_i hzero
      exact ⟨c, tree, _, .idle hfound hzero, h⟩
    · rename_i happlied
      split at h
      · cases h
      · rename_i tree₁ hwrite
        exact ⟨_, tree₁, _, .changed hfound happlied hwrite, h⟩

/-- One step mends the template with its path. -/
theorem Step.mended (h : Step e theme tree summary theme₁ tree₁ summary₁) :
    Mended [e] theme theme₁ summary summary₁ := by
  cases h with
  | missing hfound => exact mended_of_none hfound
  | @idle t hfound hzero =>
    have hsame : theme.templateAt? e.1 = some (t.setSource (applyAll t.source e.2).text) := by
      rw [Correction.text_of_applied hzero]
      exact hfound
    exact mended_of_some hfound hsame (fun _ _ => rfl) rfl rfl rfl
  | @changed t _ hfound happlied hwrite =>
    have hset : (theme.setSource e.1 (applyAll t.source e.2).text).templateAt? e.1 =
        some (t.setSource (applyAll t.source e.2).text) := by
      rw [Theme.templateAt?_setSource rfl, hfound, Option.map_some]
    exact mended_of_some hfound hset (fun _ hne => Theme.templateAt?_setSource_of_ne hne)
      (Theme.paths_setSource ..) rfl rfl

/-- **Edits reach every path once**, when all files can be written. -/
theorem mended_of_ok (hsorted : Sorted edits)
    (h : applyEdits c tree summary edits = (c', tree', .ok summary')) :
    Mended edits c.theme c'.theme summary summary' := by
  induction edits generalizing c tree summary with
  | nil =>
    simp only [applyEdits, Prod.mk.injEq, Except.ok.injEq] at h
    obtain ⟨rfl, -, rfl⟩ := h
    have hmend : mend [] = id := funext fun t => mend_of_forall (by simp)
    exact ⟨fun path => by rw [hmend, Option.map_id_apply], rfl, rfl, rfl⟩
  | cons e edits ih =>
    obtain ⟨c₁, tree₁, summary₁, hstep, hrest⟩ := exists_step h
    exact hstep.mended.cons hsorted (ih (List.pairwise_cons.1 hsorted).2 hrest)

/-- In a theme without shared paths, all templates have their edits applied. -/
theorem Mended.templates (h : Mended edits theme theme' summary summary')
    (hpaths : theme.Distinct) : theme'.templates = theme.templates.map (mend edits) := by
  refine (List.map_inj_right fun _ _ => Option.some.inj).1 ?_
  calc theme'.templates.map some
      = (theme'.templates.map (·.relativePath)).map theme'.templateAt? :=
        (hpaths.of_paths h.paths).map_templateAt?.symm
    _ = ((theme.templates.map (·.relativePath)).map theme.templateAt?).map
          (Option.map (mend edits)) := by
        rw [h.paths, List.map_map (g := Option.map _)]
        exact List.map_congr_left fun path _ => h.templateAt? path
    _ = (theme.templates.map (mend edits)).map some := by
        rw [hpaths.map_templateAt?, List.map_map, List.map_map]
        rfl

/-- Nothing is applied exactly when nothing is applied to any template. -/
theorem Mended.applied_eq_zero_iff (h : Mended edits theme theme' summary summary')
    (hsorted : Sorted edits) : summary'.applied = 0 ↔ summary.applied = 0 ∧
      ∀ path t, theme.templateAt? path = some t →
        (applyAll t.source (chosen edits t)).applied = 0 := by
  rw [h.applied, Nat.add_eq_zero_iff, List.sum_eq_zero_iff_forall_eq_nat, List.forall_mem_map,
    hsorted.forall_patch_iff fun _ => rfl]

/-- Nothing is skipped exactly when nothing is skipped in any template. -/
theorem Mended.skipped_eq_zero_iff (h : Mended edits theme theme' summary summary')
    (hsorted : Sorted edits) : summary'.skipped = 0 ↔ summary.skipped = 0 ∧
      ∀ path t, theme.templateAt? path = some t →
        (applyAll t.source (chosen edits t)).skipped = 0 := by
  rw [h.skipped, Nat.add_eq_zero_iff, List.sum_eq_zero_iff_forall_eq_nat, List.forall_mem_map,
    hsorted.forall_patch_iff fun _ => rfl]

/-- Edits leave no stale cell, also when a file cannot be written. -/
theorem fresh_applyEdits (h : c.Fresh) :
    (applyEdits c tree summary edits).1.Fresh := by
  induction edits generalizing c tree summary with
  | nil => exact h
  | cons e edits ih =>
    unfold applyEdits
    split
    · exact ih h
    · dsimp only
      split
      · exact ih h
      · -- a template has another source from here on, whether its file is written or not
        split
        · exact h.setSource
        · exact ih h.setSource

/-- A correction leaves no stale cell. -/
theorem fresh_correct {a : Analyzer} (h : a.Fresh) (tree : FileTree) :
    (a.correct tree).1.Fresh := by
  unfold correct
  split
  · exact fresh_applyEdits h
  · exact h

/-- What a correction that succeeds has done. -/
theorem exists_applyEdits {a : Analyzer} (h : (a.correct tree).2.2 = .ok summary) :
    ∃ c tree', applyEdits a.toCachedTheme tree ⟨0, 0, 0⟩ a.edits = (c, tree', .ok summary) ∧
      a.correct tree = ({ a with toCachedTheme := c, offenses := a.uncorrectable }, tree', .ok summary) ∧
      a.autoCorrect = true := by
  unfold correct at h ⊢
  split at h
  · rename_i hauto
    rw [if_pos hauto]
    obtain ⟨c, tree', result, happly⟩ :
        ∃ c tree' result, applyEdits a.toCachedTheme tree ⟨0, 0, 0⟩ a.edits
          = (c, tree', result) := ⟨_, _, _, rfl⟩
    rw [happly] at h ⊢
    cases result with
    | error e => cases h
    | ok summary' =>
      obtain rfl := Except.ok.inj h
      exact ⟨c, tree', rfl, rfl, hauto⟩
  · cases h

/-- A correction that succeeds mends the theme. -/
theorem mended_of_correct {a : Analyzer} (h : (a.correct tree).2.2 = .ok summary) :
    Mended a.edits a.theme (a.correct tree).1.theme ⟨0, 0, 0⟩ summary := by
  obtain ⟨c, tree', happly, hcorrect, -⟩ := exists_applyEdits h
  rw [hcorrect]
  exact mended_of_ok (sorted_edits a) happly

/-- A correction whose edits are all skipped changes no template and no file. -/
theorem correct_of_skipped {a : Analyzer} {path : Path} {cs : List Correction}
    (hauto : a.autoCorrect = true) (hedits : a.edits = [(path, cs)])
    (hfound : a.theme.templateAt? path = some t) {patch : Correction.Patch}
    (hpatch : applyAll t.source cs = patch) (hnone : patch.applied = 0) :
    a.correct tree =
      ({ a with offenses := a.uncorrectable }, tree, .ok ⟨0, 0, patch.skipped⟩) := by
  have happly : applyEdits a.toCachedTheme tree ⟨0, 0, 0⟩ [(path, cs)] =
      (a.toCachedTheme, tree, .ok ⟨0, 0, patch.skipped⟩) := by
    unfold applyEdits
    rw [hfound]
    dsimp only
    rw [hpatch, if_pos hnone, hnone, Nat.zero_add, Nat.zero_add]
    rfl
  unfold correct
  rw [if_pos hauto, hedits, happly]
  rfl

/-- A correction with edits for one path changes one template and writes its file. -/
theorem correct_of_written {a : Analyzer} {tree' : FileTree} {path : Path} {cs : List Correction}
    (hauto : a.autoCorrect = true) (hedits : a.edits = [(path, cs)])
    (hfound : a.theme.templateAt? path = some t) {patch : Correction.Patch}
    (hpatch : applyAll t.source cs = patch) (happlied : patch.applied ≠ 0)
    (hwrite : tree.write t.path patch.text = .ok tree') :
    a.correct tree =
      ({ a with
          toCachedTheme := a.toCachedTheme.setSource path patch.text, offenses := a.uncorrectable },
        tree', .ok ⟨1, patch.applied, patch.skipped⟩) := by
  have happly : applyEdits a.toCachedTheme tree ⟨0, 0, 0⟩ [(path, cs)] =
      (a.toCachedTheme.setSource path patch.text, tree',
        .ok ⟨1, patch.applied, patch.skipped⟩) := by
    unfold applyEdits
    rw [hfound]
    dsimp only
    rw [hpatch, if_neg happlied, hwrite]
    dsimp only
    rw [Nat.zero_add, Nat.zero_add, Nat.zero_add]
    rfl
  unfold correct
  rw [if_pos hauto, hedits, happly]
  rfl

/-! ### Rounds -/

/-- A round: an analysis, and corrections for what it found. -/
def round (a : Analyzer) (tree : FileTree) :
    Analyzer × FileTree × Except AnalyzerError CorrectionSummary := a.analyze.correct tree

/-- **A round passes over every template** when all files can be written, and it applies something
exactly when something is pending. -/
theorem Ready.round {a : Analyzer} (h : a.Ready) (hpaths : a.theme.Distinct)
    (hresult : (a.round tree).2.2 = .ok summary) :
    (a.round tree).1.Ready ∧
      (∃ f : Template → Template, (a.round tree).1.theme.templates = a.theme.templates.map f ∧
        ∀ t ∈ a.theme.templates, t.Passes (f t)) ∧
      (summary.applied = 0 ↔ ∀ t ∈ a.theme.templates, t.pending = []) := by
  have hready := h.analyze
  -- what is chosen for a template is all that is pending in it
  have hcs : ∀ t ∈ a.theme.templates, ∀ c, c ∈ chosen a.analyze.edits t ↔ c ∈ t.pending :=
    fun t ht c => h.mem_chosen_edits (hpaths.sole ht)
  have hmended := mended_of_correct hresult
  refine ⟨?_, ⟨_, hmended.templates hpaths, fun t ht => ⟨_, hcs t ht, rfl⟩⟩, ?_⟩
  · -- a round that succeeds keeps the instances and the flag
    have hfresh : (a.round tree).1.Fresh := fresh_correct hready.fresh tree
    unfold Analyzer.round correct at hfresh ⊢
    rw [if_pos hready.autoCorrect] at hfresh ⊢
    exact ⟨⟨hfresh, hready.isBuiltin, hready.name_eq⟩, hready.autoCorrect, hready.correcting⟩
  · -- nothing is applied when nothing is pending, and a pending edit can always be applied
    rw [hmended.applied_eq_zero_iff (sorted_edits _)]
    refine (and_iff_right rfl).trans ⟨fun hall t ht => ?_, fun hall path t ht => ?_⟩
    · exact (Template.applied_eq_zero_iff (hcs t ht)).1 (hall _ t (hpaths.sole ht).templateAt?)
    · have ht' := List.mem_of_find?_eq_some ht
      exact (Template.applied_eq_zero_iff (hcs t ht')).2 (hall t ht')

end Analyzer

end LiquidLint
