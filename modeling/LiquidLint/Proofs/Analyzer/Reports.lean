import LiquidLint.Analyzer
import LiquidLint.Proofs.Check.Local
import LiquidLint.Proofs.Edit.Pending
import LiquidLint.Proofs.Path.Order
import LiquidLint.Registry
import Mathlib.Data.List.Pairwise

/-!
# What an analysis reports

Among the built-in checks, only the three correcting ones attach corrections. They look at one
template at a time, so what they report about a theme is what they report about its templates one by
one, whatever they remember from earlier ones (`mem_run_theme`). So the corrections among the offenses
of an analysis are the pending corrections of the templates (`exists_offense_iff`), as long as a
template is the only one with its path: a path is all that an offense knows about its template.
-/

namespace LiquidLint

open Liquid (Node)

/-! ### Built-in checks -/

namespace Check

/-- A check that is neither declared by the user nor a script. -/
def IsBuiltin : Check → Prop
  | .pattern _ => False
  | .scripted _ => False
  | _ => True

/-- A check that is not a script: it is built in or declared by the user. -/
def IsStandard : Check → Prop
  | .scripted _ => False
  | _ => True

theorem isBuiltin_make {r : Registration} (hr : r ∈ Registry.builtinChecks) (o : Options) :
    (r.make o).IsBuiltin := by
  simp only [Registry.builtinChecks, List.mem_cons, List.not_mem_nil, or_false] at hr
  rcases hr with rfl | rfl | rfl | rfl | rfl | rfl | rfl | rfl | rfl | rfl <;> trivial

variable {c d : Check} {f : Finding}

theorem IsBuiltin.next (h : c.IsBuiltin) (e : Event) : (c.next e).IsBuiltin := by
  cases c with
  | missingTemplate known => cases e <;> trivial
  | pattern p => cases h
  | scripted s => cases h
  | _ => trivial

theorem IsStandard.next (h : c.IsStandard) (e : Event) : (c.next e).IsStandard := by
  cases c with
  | missingTemplate known => cases e <;> trivial
  | scripted s => cases h
  | _ => trivial

theorem IsBuiltin.run (h : c.IsBuiltin) (es : List Event) : (c.run es).1.IsBuiltin := by
  induction es generalizing c with
  | nil => exact h
  | cons e es ih => exact ih (h.next e)

@[simp] theorem canCorrect_next (c : Check) (e : Event) : (c.next e).canCorrect = c.canCorrect := by
  cases c with
  | missingTemplate known => cases e <;> rfl
  | _ => rfl

/-- Checks that cannot correct anything attach no corrections. -/
theorem IsBuiltin.correction_eq_none (h : c.IsBuiltin) (hc : c.canCorrect = false) {e : Event}
    (hf : Reports c e f) : f.correction = none := by
  cases hf with
  | matchingTranslations hf =>
    obtain ⟨j, -, message, rfl⟩ := Translations.exists_of_mem_ofTheme hf
    rfl
  | spaceInsideBraces => cases hc
  | unusedAssign => cases hc
  | convertIncludeToRender => cases hc
  | scripted => cases h
  | _ => rfl

theorem IsBuiltin.correction_eq_none_of_run (h : c.IsBuiltin) (hc : c.canCorrect = false)
    {es : List Event} (hf : f ∈ (c.run es).2) : f.correction = none := by
  have hnext : ∀ (c : Check) (e : Event), c.IsBuiltin ∧ c.canCorrect = false →
      (c.next e).IsBuiltin ∧ (c.next e).canCorrect = false := by
    intro c e h
    rw [canCorrect_next]
    exact ⟨h.1.next e, h.2⟩
  obtain ⟨d, ⟨hd, hdc⟩, e, -, hf⟩ := exists_of_mem_run hnext ⟨h, hc⟩ hf
  exact hd.correction_eq_none hdc hf

/-! ### Correcting checks -/

/-- A built-in check is told by its name, but for what it remembers. -/
theorem IsBuiltin.alike (h : c.IsBuiltin) (hd : d ∈ correctingChecks) (hname : c.name = d.name) :
    Alike c d := by
  simp only [correctingChecks, List.mem_cons, List.not_mem_nil, or_false] at hd
  rcases hd with rfl | rfl | rfl
  · cases c with
    | spaceInsideBraces => exact .refl _
    | pattern p => cases h
    | scripted s => cases h
    | _ => exact absurd hname (by simp [name])
  · cases c with
    | unusedAssign l => exact .ledger _ _
    | pattern p => cases h
    | scripted s => cases h
    | _ => exact absurd hname (by simp [name])
  · cases c with
    | convertIncludeToRender => exact .refl _
    | pattern p => cases h
    | scripted s => cases h
    | _ => exact absurd hname (by simp [name])

theorem IsBuiltin.exists_correcting (h : c.IsBuiltin) (hc : c.canCorrect = true) :
    ∃ d ∈ correctingChecks, c.name = d.name := by
  cases c with
  | spaceInsideBraces => exact ⟨.spaceInsideBraces, by simp [correctingChecks], rfl⟩
  | unusedAssign l => exact ⟨.unusedAssign .empty, by simp [correctingChecks], rfl⟩
  | convertIncludeToRender => exact ⟨.convertIncludeToRender, by simp [correctingChecks], rfl⟩
  | pattern p => cases h
  | scripted s => cases h
  | _ => cases hc

/-- Correcting checks look at one template at a time, and comments can turn them off. -/
theorem of_mem_correctingChecks (hd : d ∈ correctingChecks) :
    d.IsLocal ∧ d.canCorrect = true ∧ d.canDisable = true := by
  simp only [correctingChecks, List.mem_cons, List.not_mem_nil, or_false] at hd
  rcases hd with rfl | rfl | rfl <;> exact ⟨trivial, rfl, rfl⟩

theorem IsBuiltin.canCorrect_of_name (h : c.IsBuiltin) (hd : d ∈ correctingChecks)
    (hname : c.name = d.name) : c.canCorrect = true ∧ c.canDisable = true := by
  have halike := h.alike hd hname
  rw [halike.canCorrect_eq, halike.canDisable_eq]
  exact (of_mem_correctingChecks hd).2

/-- What a correcting check reports about a theme, whatever it remembers. -/
theorem IsBuiltin.mem_run_theme (h : c.IsBuiltin) (hd : d ∈ correctingChecks)
    (hname : c.name = d.name) (theme : Theme) :
    f ∈ (c.run theme.events).2 ↔ ∃ t ∈ theme.templates, f ∈ (d.run t.events).2 := by
  have halike := h.alike hd hname
  have hlocal := halike.symm.isLocal (of_mem_correctingChecks hd).1
  rw [hlocal.run_theme, List.mem_flatMap]
  exact exists_congr fun t => and_congr_right fun _ => by rw [halike.run_template]

end Check

/-! ### Themes -/

namespace Theme

/-- No two templates have the same path. -/
def Distinct (theme : Theme) : Prop :=
  theme.templates.Pairwise fun s t => s.relativePath.same t.relativePath = false

/-- The theme has the template, and no other one with its path. -/
def Sole (theme : Theme) (t : Template) : Prop :=
  theme.templates.filter (·.relativePath.same t.relativePath) = [t]

variable {theme : Theme} {s t : Template}

/-- One template shares its path with no other one. -/
theorem distinct_of_templates (h : theme.templates = [t]) : theme.Distinct := by
  unfold Distinct
  rw [h]
  exact List.pairwise_singleton _ _

theorem Distinct.eq (h : theme.Distinct) (hs : s ∈ theme.templates) (ht : t ∈ theme.templates)
    (hsame : s.relativePath.components = t.relativePath.components) : s = t := by
  have hsymm : Std.Symm fun s t : Template => s.relativePath.same t.relativePath = false := by
    refine ⟨fun s t hst => ?_⟩
    rw [Bool.eq_false_iff, ne_eq, Path.same_iff] at hst ⊢
    exact fun hts => hst hts.symm
  by_contra hne
  have hdiffer := List.Pairwise.forall h hs ht hne
  rw [Bool.eq_false_iff, ne_eq, Path.same_iff] at hdiffer
  exact hdiffer hsame

theorem Sole.mem (h : theme.Sole t) : t ∈ theme.templates := by
  have hmem : t ∈ theme.templates.filter (·.relativePath.same t.relativePath) := by
    rw [h]
    exact List.mem_singleton_self t
  exact (List.mem_filter.1 hmem).1

theorem Sole.eq (h : theme.Sole t) (hs : s ∈ theme.templates)
    (hsame : s.relativePath.components = t.relativePath.components) : s = t := by
  have hmem : s ∈ theme.templates.filter (·.relativePath.same t.relativePath) :=
    List.mem_filter.2 ⟨hs, Path.same_iff.2 hsame⟩
  rw [h] at hmem
  exact List.mem_singleton.1 hmem

/-- In a theme without shared paths every template is the only one with its path. -/
theorem Distinct.sole (h : theme.Distinct) (ht : t ∈ theme.templates) : theme.Sole t := by
  have hmem : ∀ s ∈ theme.templates.filter (·.relativePath.same t.relativePath), s = t := by
    intro s hs
    obtain ⟨hs, hsame⟩ := List.mem_filter.1 hs
    exact h.eq hs ht (Path.same_iff.1 hsame)
  have hpairs := List.Pairwise.filter (·.relativePath.same t.relativePath) h
  have hself : t ∈ theme.templates.filter (·.relativePath.same t.relativePath) :=
    List.mem_filter.2 ⟨ht, Path.same_iff.2 rfl⟩
  unfold Sole
  cases hfilter : theme.templates.filter (·.relativePath.same t.relativePath) with
  | nil =>
    rw [hfilter] at hself
    cases hself
  | cons s rest =>
    rw [hfilter] at hmem hpairs
    obtain rfl := hmem s (List.mem_cons_self ..)
    -- a second template with the path would be the same one, and share its path with itself
    cases rest with
    | nil => rfl
    | cons r rest =>
      have hdiffer := List.rel_of_pairwise_cons hpairs (List.mem_cons_self ..)
      rw [hmem r (by simp), Bool.eq_false_iff, ne_eq, Path.same_iff] at hdiffer
      exact absurd rfl hdiffer

end Theme

namespace Analyzer

variable {a : Analyzer} {theme : Theme} {t : Template} {o : Offense} {c : Correction}

/-! ### What an analysis reads -/

/-- The parts of each template of a theme where checks are off. -/
def disabledRanges (theme : Theme) : List (Path × DisabledRanges) := disabledRangesOf theme.parsed

theorem disabledRanges_eq (theme : Theme) : disabledRanges theme = theme.templates.filterMap fun t =>
    match t.root with
    | .ok root =>
      let ranges := DisabledRanges.ofTemplate root t.source
      if ranges.isEmpty then none else some (t.relativePath, ranges)
    | .error _ => none := by
  unfold disabledRanges disabledRangesOf Theme.parsed
  rw [List.filterMap_map]
  rfl

theorem fresh_new (theme : Theme) (checks : List Check) (severity? : String → Option Severity)
    (autoCorrect : Bool) : (new theme checks severity? autoCorrect).Fresh :=
  CachedTheme.fresh_ofTheme theme

/-- An analysis leaves no stale cell. -/
theorem fresh_analyze (h : a.Fresh) : a.analyze.Fresh := h.fill

/-- Checks are shown the events of the theme. -/
theorem instances_analyze (h : a.Fresh) :
    a.analyze.instances = a.instances.map fun i => i.run a.theme.events := by
  rw [← h.eventsOf_parsed]
  rfl

/-- Offenses of a template are judged by the comments of that template. -/
theorem find_disabledRanges (h : theme.Sole t) {path : Path} (hpath : path = t.relativePath)
    (check : String) (x : Nat) :
    (match (disabledRanges theme).reverse.find? fun (p, _) => p.same path with
      | none => false
      | some (_, ranges) => ranges.isDisabled check x) = t.isDisabled check x := by
  subst hpath
  -- an entry for the path is that of the template, which has one unless its ranges are empty
  have hentry : ∀ e ∈ (disabledRanges theme).reverse, e.1.same t.relativePath = true →
      ∃ root, t.root = .ok root ∧ e.2 = DisabledRanges.ofTemplate root t.source := by
    intro e he hsame
    rw [List.mem_reverse, disabledRanges_eq, List.mem_filterMap] at he
    obtain ⟨s, hs, he⟩ := he
    split at he
    · rename_i root hroot
      dsimp only at he
      split at he
      · cases he
      · obtain rfl := Option.some.inj he
        obtain rfl := h.eq hs (Path.same_iff.1 hsame)
        exact ⟨root, hroot, rfl⟩
    · cases he
  split
  · rename_i hnone
    rw [List.find?_eq_none] at hnone
    unfold Template.isDisabled
    split
    · rename_i root hroot
      have hempty : (DisabledRanges.ofTemplate root t.source).isEmpty = true := by
        by_contra hne
        refine hnone (t.relativePath, DisabledRanges.ofTemplate root t.source) ?_
          (Path.same_iff.2 rfl)
        rw [List.mem_reverse, disabledRanges_eq, List.mem_filterMap]
        refine ⟨t, h.mem, ?_⟩
        rw [hroot]
        exact if_neg hne
      unfold DisabledRanges.isEmpty at hempty
      unfold DisabledRanges.isDisabled
      rw [List.isEmpty_iff.1 hempty]
      rfl
    · rfl
  · rename_i path ranges hsome
    obtain ⟨root, hroot, rfl⟩ := hentry _ (List.mem_of_find?_eq_some hsome)
      (by simpa using List.find?_some hsome)
    unfold Template.isDisabled
    rw [hroot]

/-- An analyzer whose checks are built-in ones. Its cells keep no tree of another source, as is the case
for a new analyzer and after any calls. -/
structure OfBuiltins (a : Analyzer) : Prop where
  fresh : a.Fresh
  isBuiltin : ∀ i ∈ a.instances, i.check.IsBuiltin
  name_eq : ∀ i ∈ a.instances, i.name = i.check.name

/-- An analyzer that corrects and whose checks are built-in ones, the correcting ones among them. -/
structure Ready (a : Analyzer) : Prop extends OfBuiltins a where
  autoCorrect : a.autoCorrect = true
  correcting : ∀ d ∈ correctingChecks, ∃ i ∈ a.instances, i.name = d.name

/-- The checks of a new analyzer are those it was given. -/
theorem instances_new (theme : Theme) (checks : List Check) (severity? : String → Option Severity)
    (autoCorrect : Bool) :
    (new theme checks severity? autoCorrect).instances.map (fun i => (i.name, i.check)) =
      checks.map fun c => (c.name, c) := by
  have hoverride : ∀ (done : List String) (is : List Instance),
      (Instance.override severity? done is).map (fun i => (i.name, i.check)) =
        is.map fun i => (i.name, i.check) := by
    intro done is
    induction is generalizing done with
    | nil => rfl
    | cons i is ih =>
      unfold Instance.override
      split
      · rw [List.map_cons, ih, List.map_cons]
      · rw [List.map_cons, ih, List.map_cons]
  unfold new
  rw [hoverride, List.map_map]
  rfl

theorem of_mem_instances_new {theme : Theme} {checks : List Check}
    {severity? : String → Option Severity} {autoCorrect : Bool} {i : Instance}
    (hi : i ∈ (new theme checks severity? autoCorrect).instances) :
    i.check ∈ checks ∧ i.name = i.check.name := by
  have h : (i.name, i.check) ∈ checks.map fun c => (c.name, c) := by
    rw [← instances_new theme checks severity? autoCorrect]
    exact List.mem_map.2 ⟨i, hi, rfl⟩
  obtain ⟨c, hc, heq⟩ := List.mem_map.1 h
  obtain ⟨hname, rfl⟩ := Prod.mk.inj heq
  exact ⟨hc, hname.symm⟩

theorem ofBuiltins_new {theme : Theme} {checks : List Check} (severity? : String → Option Severity)
    (autoCorrect : Bool) (hbuiltin : ∀ c ∈ checks, c.IsBuiltin) :
    (new theme checks severity? autoCorrect).OfBuiltins :=
  ⟨fresh_new .., fun _ hi => hbuiltin _ (of_mem_instances_new hi).1,
    fun _ hi => (of_mem_instances_new hi).2⟩

/-- Running checks leaves them built in. -/
theorem OfBuiltins.run (h : a.OfBuiltins) (es : List Event) :
    OfBuiltins { a with instances := a.instances.map fun i => i.run es } := by
  refine ⟨h.fresh, fun j hj => ?_, fun j hj => ?_⟩
  · obtain ⟨i, hi, rfl⟩ := List.mem_map.1 hj
    exact (h.isBuiltin i hi).run es
  · obtain ⟨i, hi, rfl⟩ := List.mem_map.1 hj
    exact (h.name_eq i hi).trans (Check.name_run i.check es).symm

theorem OfBuiltins.analyze (h : a.OfBuiltins) : a.analyze.OfBuiltins := by
  have hrun := h.run (a.theme.eventsOf a.parsed)
  exact ⟨fresh_analyze h.fresh, hrun.isBuiltin, hrun.name_eq⟩

/-- An analysis keeps the names of the checks. -/
theorem exists_instance_analyze {i : Instance} (hi : i ∈ a.instances) :
    ∃ j ∈ a.analyze.instances, j.name = i.name :=
  ⟨i.run (a.theme.eventsOf a.parsed), List.mem_map.2 ⟨i, hi, rfl⟩, rfl⟩

theorem Ready.analyze (h : a.Ready) : a.analyze.Ready := by
  refine ⟨h.toOfBuiltins.analyze, h.autoCorrect, fun d hd => ?_⟩
  obtain ⟨i, hi, hname⟩ := h.correcting d hd
  obtain ⟨j, hj, hname'⟩ := exists_instance_analyze hi
  exact ⟨j, hj, hname'.trans hname⟩

/-- The check behind a name is built in. -/
theorem OfBuiltins.instance? (h : a.OfBuiltins) {name : String} {i : Instance}
    (hi : a.instance? name = some i) : i.check.IsBuiltin ∧ i.check.name = name := by
  have hmem := List.mem_of_find?_eq_some hi
  have hname : i.name = name := by simpa using List.find?_some hi
  exact ⟨h.isBuiltin i hmem, (h.name_eq i hmem).symm.trans hname⟩

/-- What comments turn off in a template. -/
theorem isDisabled_eq (a : Analyzer) (hsole : theme.Sole t)
    (hpath : o.location.path = t.relativePath) :
    a.isDisabled (disabledRanges theme) o =
      (((a.instance? o.check).map (·.check.canDisable)).getD true &&
        t.isDisabled o.check o.location.start) := by
  have hfind := find_disabledRanges hsole hpath o.check o.location.start
  revert hfind
  unfold Analyzer.isDisabled
  cases (disabledRanges theme).reverse.find? fun (path, _) => path.same o.location.path with
  | none =>
    intro hfind
    rw [← hfind, Bool.and_false]
  | some entry =>
    intro hfind
    rw [← hfind]
    cases a.instance? o.check with
    | none => rfl
    | some i => rfl

/-- What comments turn off, for a correcting check. -/
theorem OfBuiltins.isDisabled_eq (h : a.OfBuiltins) (hsole : theme.Sole t)
    (hpath : o.location.path = t.relativePath) {d : Check} (hd : d ∈ correctingChecks)
    (hname : o.check = d.name) :
    a.isDisabled (disabledRanges theme) o = t.isDisabled d.name o.location.start := by
  have hcan : ((a.instance? o.check).map (·.check.canDisable)).getD true = true := by
    cases hi : a.instance? o.check with
    | none => rfl
    | some i =>
      obtain ⟨hbuiltin, hname'⟩ := h.instance? hi
      exact (hbuiltin.canCorrect_of_name hd (hname'.trans hname)).2
  rw [Analyzer.isDisabled_eq a hsole hpath, hcan, Bool.true_and, hname]

/-- What the checks report about the theme and comments do not turn off, check by check. -/
def reported (a : Analyzer) : List Offense :=
  let ran : Analyzer := { a with instances := a.instances.map fun i => i.run a.theme.events }
  (ran.instances.flatMap fun i => i.offenses).filter (!ran.isDisabled (disabledRanges a.theme) ·)

theorem offenses_analyze (h : a.Fresh) :
    a.analyze.offenses = a.reported.mergeSort Offense.le := by
  have hdisabled : disabledRangesOf a.fill.parsed = disabledRanges a.theme := by
    rw [h.fill.parsed_eq]
    rfl
  unfold analyze reported
  dsimp only
  rw [h.eventsOf_parsed, hdisabled]
  rfl

/-- What is reported in order is listed in that order. -/
theorem offenses_of_pairwise (h : a.Fresh)
    (hsorted : a.reported.Pairwise fun o p => o.le p = true) : a.analyze.offenses = a.reported := by
  rw [offenses_analyze h, List.mergeSort_of_pairwise hsorted]

theorem mem_offenses_analyze (h : a.Fresh) : o ∈ a.analyze.offenses ↔
    (∃ i ∈ a.instances, ∃ f ∈ (i.check.run a.theme.events).2, o = i.offense f) ∧
      Analyzer.isDisabled { a with instances := a.instances.map fun i => i.run a.theme.events }
        (disabledRanges a.theme) o = false := by
  rw [offenses_analyze h]
  simp only [reported, List.mem_mergeSort, List.mem_filter, List.mem_flatMap, List.mem_map,
    Instance.run, Bool.not_eq_true', exists_exists_and_eq_and]
  refine and_congr_left fun _ => ?_
  constructor
  · rintro ⟨i, hi, f, hf, rfl⟩
    exact ⟨i, hi, f, hf, rfl⟩
  · rintro ⟨i, hi, f, hf, rfl⟩
    exact ⟨i, hi, f, hf, rfl⟩

/-- An offense with a correction comes from a correcting check and lies in a template. When its path
tells which template that is, the correction is pending there. -/
theorem OfBuiltins.exists_template (h : a.OfBuiltins) (ho : o ∈ a.analyze.offenses)
    (hc : o.correction = some c) :
    ∃ d ∈ correctingChecks, o.check = d.name ∧ ∃ t ∈ a.theme.templates,
      o.location.path = t.relativePath ∧ (a.theme.Sole t → c ∈ t.pending) := by
  obtain ⟨⟨i, hi, f, hf, rfl⟩, hon⟩ := (mem_offenses_analyze h.fresh).1 ho
  have hbuiltin := h.isBuiltin i hi
  have hcan : i.check.canCorrect = true := by
    by_contra hcan
    have := hbuiltin.correction_eq_none_of_run (Bool.eq_false_iff.2 hcan) hf
    rw [Instance.offense, this] at hc
    cases hc
  obtain ⟨d, hd, hname⟩ := hbuiltin.exists_correcting hcan
  obtain ⟨t, ht, hft⟩ := (hbuiltin.mem_run_theme hd hname a.theme).1 hf
  have hpath := (Check.of_mem_correctingChecks hd).1.path_of_mem_run hft
  have hcheck : (i.offense f).check = d.name := (h.name_eq i hi).trans hname
  refine ⟨d, hd, hcheck, t, ht, hpath, fun hsole => ?_⟩
  rw [(h.run a.theme.events).isDisabled_eq hsole hpath hd hcheck] at hon
  exact Template.mem_pending.2 ⟨d, hd, f, hft, hon, hc⟩

/-- Corrections of offenses with the path of a template are pending there. -/
theorem OfBuiltins.mem_pending (h : a.OfBuiltins) (hsole : a.theme.Sole t)
    (ho : o ∈ a.analyze.offenses) (hsame : o.location.path.same t.relativePath = true)
    (hc : o.correction = some c) : c ∈ t.pending := by
  obtain ⟨d, -, -, s, hs, hpath, hpending⟩ := h.exists_template ho hc
  rw [hpath] at hsame
  obtain rfl := hsole.eq hs (Path.same_iff.1 hsame)
  exact hpending hsole

/-- **Corrections of an analysis** are the pending corrections of the templates. -/
theorem Ready.exists_offense_iff (h : a.Ready) (hsole : a.theme.Sole t) :
    (∃ o ∈ a.analyze.offenses, o.location.path.same t.relativePath = true ∧
      o.correction = some c) ↔ c ∈ t.pending := by
  constructor
  · rintro ⟨o, ho, hsame, hc⟩
    exact h.toOfBuiltins.mem_pending hsole ho hsame hc
  · intro hc
    obtain ⟨d, hd, f, hf, hon, hc⟩ := Template.mem_pending.1 hc
    obtain ⟨i, hi, hname⟩ := h.correcting d hd
    have hpath := (Check.of_mem_correctingChecks hd).1.path_of_mem_run hf
    refine ⟨i.offense f, (mem_offenses_analyze h.fresh).2 ⟨⟨i, hi, f, ?_, rfl⟩, ?_⟩, ?_, hc⟩
    · exact ((h.isBuiltin i hi).mem_run_theme hd ((h.name_eq i hi).symm.trans hname) a.theme).2
        ⟨t, hsole.mem, hf⟩
    · rw [(h.toOfBuiltins.run a.theme.events).isDisabled_eq hsole hpath hd hname]
      exact hon
    · rw [Path.same_iff]
      exact congrArg Path.components hpath

end Analyzer

end LiquidLint
