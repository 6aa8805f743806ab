import LiquidLint.Proofs.Analyzer.Convergence
import LiquidLint.Proofs.Edit.Region

/-!
# What a correction leaves alone

Two things are left alone by a correction. The first are the regions of a template where comments
turn all checks off: they stand in the corrected template as they were (`region_kept`). The second are
the offenses that cannot be mended: they are still there afterwards, in the same order, whether files
could be written or not. Of the others none is left, and when all files could be written it is known
what became of their edits (`offenses_correct`): each one was applied to the template with the path of
its offense, or it was counted as skipped, because it had no place there or overlapped one that was
applied.
-/

namespace LiquidLint.Analyzer

open Correction (Fits Inside applyAll schedule_of_increasing taken)
open DisabledRanges (Region directives turnsOff_iff turnsOn_iff)
open Liquid (Node)

variable {a : Analyzer} {tree : FileTree} {t : Template} {o : Offense} {s : CorrectionSummary}

/-- The edits that a correction applies to a template. -/
def appliedTo (a : Analyzer) (t : Template) : List Correction :=
  taken t.source (chosen a.edits t)

/-! ### Regions -/

/-- **Disabled regions stay as they are.** Of a template that is the only one with its path, let a
region be turned off as a whole. After an analysis with built-in checks and a correction that
succeeds, the bytes of the region stand in the template as before, every edit that was applied lies
before or behind them, and what is before and behind them is what these edits make of it. -/
theorem region_kept {root : Node} {start stop : Nat} (ha : a.OfBuiltins) (hsole : a.theme.Sole t)
    (hroot : t.root = .ok root) (hregion : Region root t.source start stop)
    (hok : (a.analyze.correct tree).2.2 = .ok s) :
    (∀ c ∈ a.analyze.appliedTo t, c.Inside 0 start ∨ c.Inside stop t.source.size) ∧
      ∃ before region after before' after',
        (t.source = before ++ (region ++ after) ∧ before.size = start ∧
          (before ++ region).size = stop) ∧
        (a.analyze.correct tree).1.theme.templateAt? t.relativePath =
          some (t.setSource (before' ++ (region ++ after'))) ∧
        (applyAll t.source ((a.analyze.appliedTo t).filter (·.Inside 0 start))).text =
          before' ++ (region ++ after) ∧
        (applyAll t.source ((a.analyze.appliedTo t).filter (·.Inside stop t.source.size))).text =
          before ++ (region ++ after') := by
  -- everything chosen for the template is pending in it, and pending edits keep out of the region
  have hcs : ∀ c ∈ chosen a.analyze.edits t, c ∈ t.pending :=
    fun c hc => ha.mem_pending_of_chosen hsole hc
  -- the template that is left has the text of the patch
  have htemplate : (a.analyze.correct tree).1.theme.templateAt? t.relativePath =
      some (t.setSource (applyAll t.source (chosen a.analyze.edits t)).text) := by
    have hfound : a.analyze.theme.templateAt? t.relativePath = some t := hsole.templateAt?
    rw [(mended_of_correct hok).templateAt?, hfound]
    rfl
  refine ⟨fun c hc => ?_, ?_⟩
  · exact Template.inside_of_mem_pending hroot hregion (hcs c (Correction.mem_of_mem_taken hc))
  · obtain ⟨before, region, after, before', after', hcut, htext, hsides⟩ :=
      Template.exists_kept hroot hregion hcs
    rw [htext] at htemplate
    exact ⟨before, region, after, before', after', hcut, htemplate, hsides⟩

/-- A block that opens before a region and is closed in it, with no spaces in either of its tags. -/
theorem region_kept_straddled :
    let source : Text := ("\x7b%if a%\x7d\x7b% comment %\x7dtheme-check-disable" ++
      "\x7b% endcomment %\x7d\x7b\x7bx\x7d\x7d\x7b%endif%\x7d\x7b% comment %\x7d" ++
      "theme-check-enable\x7b% endcomment %\x7d\x7b\x7by\x7d\x7d").toList
    let t : Template := ⟨⟨⟨"a.liquid"⟩, source⟩, ⟨"a.liquid"⟩⟩
    let tree : FileTree := { entries := [(["a.liquid"], .file (.text source))] }
    let a := new ⟨⟨"."⟩, [t], []⟩ (Registry.builtinChecks.map (·.make {})) (fun _ => none) true
    ∃ root, t.root = .ok root ∧ Region root source 8 70 ∧
      (∃ s, (a.analyze.correct tree).2.2 = .ok s) ∧
      (∀ c ∈ a.analyze.appliedTo t, c.Inside 0 8 ∨ c.Inside 70 source.size) ∧
      ∃ before region after before' after',
        (source = before ++ (region ++ after) ∧ before.size = 8 ∧ (before ++ region).size = 70) ∧
        (a.analyze.correct tree).1.theme.templateAt? t.relativePath =
          some (t.setSource (before' ++ (region ++ after'))) := by
  intro source t tree a
  obtain ⟨root, hparse, hdirectives⟩ : ∃ root, Liquid.parse source = .ok root ∧
      directives root source = [(8, .disable []), (70, .enable [])] :=
    Liquid.exists_parse_of_map (by decide +kernel)
  have hregion : Region root source 8 70 := by
    refine ⟨turnsOff_iff.2 ⟨.disable [], ?_, ?_⟩,
      Or.inl ⟨by decide, turnsOn_iff.2 ⟨.enable [], ?_, ?_⟩⟩, fun x h1 h2 hon => ?_⟩
    · simp [hdirectives]
    · simp [Directive.Opens, Directive.keys]
    · simp [hdirectives]
    · simp [Directive.Closes]
    · obtain ⟨d, hd, -⟩ := turnsOn_iff.1 hon
      simp only [hdirectives, List.mem_cons, Prod.mk.injEq, List.not_mem_nil, or_false] at hd
      omega
  have hfiles : ∀ t ∈ a.theme.templates, tree.isFile t.path = true := by decide +kernel
  obtain ⟨s, hok⟩ : ∃ s, (a.analyze.correct tree).2.2 = .ok s := (round_of_isFile rfl hfiles).1
  have hbuiltins : a.OfBuiltins := by
    refine ofBuiltins_new _ true fun c hc => ?_
    obtain ⟨r, hr, rfl⟩ := List.mem_map.1 hc
    exact Check.isBuiltin_make hr {}
  have hsole : a.theme.Sole t := by
    show [t].filter _ = [t]
    decide +kernel
  -- the rest does not depend on what the source is
  clear_value source
  have hroot : t.root = .ok root := hparse
  obtain ⟨hclear, before, region, after, before', after', hcut, htemplate, -⟩ :=
    region_kept hbuiltins hsole hroot hregion hok
  exact ⟨root, hroot, hregion, ⟨s, hok⟩, hclear, before, region, after, before', after', hcut,
    htemplate⟩

/-- **Templates that share a path** are judged by the comments of the last one, so an edit is applied
in a region of the first one. -/
theorem region_changed_shared :
    let source : Text := ("\x7b% comment %\x7dtheme-check-disable\x7b% endcomment %\x7d" ++
      "\x7b\x7bx\x7d\x7d").toList
    let other : Text :=
      "\x7b% comment %\x7dtheme-check-disable A\x7b% endcomment %\x7d".toList
    let t : Template := ⟨⟨⟨"a.liquid"⟩, source⟩, ⟨"a.liquid"⟩⟩
    let theme : Theme := ⟨⟨"."⟩, [t, ⟨⟨⟨"a.liquid"⟩, other⟩, ⟨"a.liquid"⟩⟩], []⟩
    let tree : FileTree := { entries := [(["a.liquid"], .file (.text source))] }
    let a := new theme [.spaceInsideBraces] (fun _ => none) true
    ∃ root, t.root = .ok root ∧ Region root source 0 source.size ∧ a.OfBuiltins ∧
      (∃ s, (a.analyze.correct tree).2.2 = .ok s) ∧
      ∃ c ∈ a.analyze.appliedTo t, ¬ (c.Inside 0 0 ∨ c.Inside source.size source.size) := by
  intro source other t theme tree a
  -- the first of the two templates disables everything from its start on
  obtain ⟨root, hparse, hdirectives⟩ : ∃ root, Liquid.parse source = .ok root ∧
      directives root source = [(0, .disable [])] :=
    Liquid.exists_parse_of_map (by decide +kernel)
  have hregion : Region root source 0 source.size := by
    refine ⟨turnsOff_iff.2 ⟨.disable [], ?_, ?_⟩, Or.inr rfl, fun x h1 h2 hon => ?_⟩
    · simp [hdirectives]
    · simp [Directive.Opens, Directive.keys]
    · obtain ⟨d, hd, -⟩ := turnsOn_iff.1 hon
      simp only [hdirectives, List.mem_cons, Prod.mk.injEq, List.not_mem_nil, or_false] at hd
      omega
  have hfiles : ∀ t ∈ a.theme.templates, tree.isFile t.path = true := by decide +kernel
  have hbuiltins : a.OfBuiltins := ofBuiltins_new _ true (by simp [Check.IsBuiltin])
  have hoffenses : a.analyze.offenses = a.reported :=
    offenses_of_pairwise (fresh_new ..) (by decide +kernel)
  -- the edits come from the second template, but they are chosen for both by the path
  have hchosen : chosen a.analyze.edits t = [.insert 50 " ", .insert 51 " "] := by
    unfold edits
    rw [hoffenses]
    decide +kernel
  have hedit : Correction.insert 50 " " ∈ a.analyze.appliedTo t := by
    unfold appliedTo taken
    rw [hchosen, schedule_of_increasing (by decide)]
    decide +kernel
  have hsize : ¬ ((Correction.insert 50 " ").Inside 0 0 ∨
      (Correction.insert 50 " ").Inside source.size source.size) := by decide +kernel
  clear_value source
  exact ⟨root, hparse, hregion, hbuiltins, (round_of_isFile rfl hfiles).1, _, hedit, hsize⟩

/-! ### Offenses -/

theorem offenses_correct_of_autoCorrect (h : a.autoCorrect = true) (tree : FileTree) :
    (a.correct tree).1.offenses = a.uncorrectable := by
  unfold correct
  rw [if_pos h]

theorem correct_of_not_autoCorrect (h : ¬ a.autoCorrect = true) (tree : FileTree) :
    (a.correct tree).1 = a := by
  unfold correct
  rw [if_neg h]

theorem mem_uncorrectable : o ∈ a.uncorrectable ↔ o ∈ a.offenses ∧ a.correction? o = none := by
  unfold uncorrectable
  rw [List.mem_filter, Option.isNone_iff_eq_none]

/-- What becomes of the edit of an offense with the path of a template, when all files can be
written. -/
theorem mem_appliedTo_or {c : Correction} (hok : (a.correct tree).2.2 = .ok s) (ho : o ∈ a.offenses)
    (hc : a.correction? o = some c) (ht : a.theme.templateAt? o.location.path = some t) :
    c ∈ a.appliedTo t ∨ 0 < s.skipped ∧ (¬ c.Fits t.source t.source.size ∨
      ∃ d ∈ a.appliedTo t, c.range.start ≤ d.range.start ∧ d.range.start < c.range.stop) := by
  have hsame : o.location.path.same t.relativePath = true :=
    Path.same_iff.2 (Theme.components_of_templateAt? ht).symm
  have hchosen : c ∈ chosen a.edits t := mem_chosen_edits_iff.2 ⟨o, ho, hsame, hc⟩
  refine or_iff_not_imp_left.2 fun hnot => ⟨?_, ?_⟩
  · -- without skipped edits all would have been applied
    by_contra hzero
    have hskipped := ((mended_of_correct hok).skipped_eq_zero_iff (sorted_edits a)).1 (by omega)
    have hall := (Correction.skipped_applyAll _ _).1 (hskipped.2 _ t ht)
    apply hnot
    unfold appliedTo
    rw [hall]
    exact Correction.mem_schedule.2 hchosen
  · exact (Correction.mem_taken_or hchosen).resolve_left hnot

/-- **Offenses without an edit are never lost.** After a correction of some offenses, such as those of
an analysis, whether it succeeds or not, offenses for which no check has an edit are still there, and
nothing is added or put in another order. When the correction succeeds, each offense that is gone had an
edit, and if its path is that of a template, then the template has got its edits and this one was
applied, unless it was counted as skipped, because it had no place there or one that was applied starts
inside it. -/
theorem offenses_correct (a : Analyzer) (tree : FileTree) :
    (∀ o ∈ a.offenses, a.correction? o = none → o ∈ (a.correct tree).1.offenses) ∧
    (a.correct tree).1.offenses.Sublist a.offenses ∧
    ∀ s, (a.correct tree).2.2 = .ok s → ∀ o ∈ a.offenses,
      o ∉ (a.correct tree).1.offenses → ∃ c, a.correction? o = some c ∧
        ∀ t, a.theme.templateAt? o.location.path = some t →
          (a.correct tree).1.theme.templateAt? o.location.path = some (mend a.edits t) ∧
          (c ∈ a.appliedTo t ∨ 0 < s.skipped ∧ (¬ c.Fits t.source t.source.size ∨
            ∃ d ∈ a.appliedTo t, c.range.start ≤ d.range.start ∧ d.range.start < c.range.stop)) := by
  -- offenses leave only when they have an edit and edits are asked for
  have hstays : ∀ o ∈ a.offenses, a.correction? o = none →
      o ∈ (a.correct tree).1.offenses := by
    intro o ho hnone
    by_cases hauto : a.autoCorrect = true
    · rw [offenses_correct_of_autoCorrect hauto]
      exact mem_uncorrectable.2 ⟨ho, hnone⟩
    · rw [correct_of_not_autoCorrect hauto]
      exact ho
  refine ⟨hstays, ?_, fun s hok o ho hgone => ?_⟩
  · by_cases hauto : a.autoCorrect = true
    · rw [offenses_correct_of_autoCorrect hauto]
      exact List.filter_sublist
    · rw [correct_of_not_autoCorrect hauto]
  · -- so an offense that is gone has an edit, which was taken or skipped for one of the two reasons
    obtain ⟨c, hc⟩ : ∃ c, a.correction? o = some c :=
      Option.ne_none_iff_exists'.1 fun hnone => hgone (hstays o ho hnone)
    refine ⟨c, hc, fun t ht => ⟨?_, mem_appliedTo_or hok ho hc ht⟩⟩
    rw [(mended_of_correct hok).templateAt?, ht]
    rfl

/-- **A finding that gets lost**: where an unused `assign` tag lacks spaces, they are put in, the tag
is not removed, and its offense is gone. -/
theorem offense_lost_overlapping :
    let source : Text := "\x7b%assign x = 1%\x7d".toList
    let t : Template := ⟨⟨⟨"a.liquid"⟩, source⟩, ⟨"a.liquid"⟩⟩
    let tree : FileTree := { entries := [(["a.liquid"], .file (.text source))] }
    let a := new ⟨⟨"."⟩, [t], []⟩ [.unusedAssign .empty, .spaceInsideBraces] (fun _ => none) true
    (∃ s, (a.analyze.correct tree).2.2 = .ok s) ∧
      a.theme.templateAt? ⟨"a.liquid"⟩ = some t ∧
      ∃ o ∈ a.analyze.offenses, o.location.path = ⟨"a.liquid"⟩ ∧
        a.analyze.correction? o = some (.delete ⟨0, 16⟩) ∧
        .delete ⟨0, 16⟩ ∉ a.analyze.appliedTo t ∧ o ∉ (a.analyze.correct tree).1.offenses := by
  intro source t tree a
  have hfiles : ∀ t ∈ a.theme.templates, tree.isFile t.path = true := by decide +kernel
  have hfound : a.theme.templateAt? ⟨"a.liquid"⟩ = some t := by decide +kernel
  have hoffenses : a.analyze.offenses = a.reported :=
    offenses_of_pairwise (fresh_new ..) (by decide +kernel)
  obtain ⟨o, ho, hpath, hc⟩ : ∃ o ∈ a.reported, o.location.path = ⟨"a.liquid"⟩ ∧
      a.analyze.correction? o = some (.delete ⟨0, 16⟩) := by decide +kernel
  -- the assignment is to be deleted, and it lacks two spaces
  have hchosen : chosen a.analyze.edits t =
      [.delete ⟨0, 16⟩, .insert 2 " ", .insert 14 " "] := by
    unfold edits
    rw [hoffenses]
    decide +kernel
  have hskipped : .delete ⟨0, 16⟩ ∉ a.analyze.appliedTo t := by
    unfold appliedTo taken
    rw [hchosen, schedule_of_increasing (by decide)]
    decide +kernel
  refine ⟨(round_of_isFile rfl hfiles).1, hfound, o, hoffenses ▸ ho, hpath, hc, hskipped, ?_⟩
  rw [offenses_correct_of_autoCorrect rfl]
  intro hmem
  have hnone := (mem_uncorrectable.1 hmem).2
  rw [hc] at hnone
  cases hnone

end LiquidLint.Analyzer
