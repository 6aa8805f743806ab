import LiquidLint.Proofs.Analyzer.Alone
import LiquidLint.Proofs.Analyzer.Convergence
import LiquidLint.Proofs.Directive.Reading

/-!
# White space is corrected in one pass

When the check for white space is used alone, a single pass applies all its corrections and leaves
nothing for it to report (`Analyzer.one_pass`). There are two things to this.

* Corrections of white space are apart, those of one construct (`Site.Spaces.apart`) and those of
  two, so none of them is in the way of another one, and none is skipped.
* The pass is a round of edits as `Outcome` describes it. All edits put in spaces, so nothing but
  spaces has changed (`Respaces`), and all fixes were among them, so none is left.

The rest follows the corrections from the offenses of an analysis to the text that is written.
-/

namespace LiquidLint

open Correction (applyAll schedule)
open Liquid (Body Node)

/-- The corrections of white space in a template. -/
def Template.spacing (t : Template) : List Correction :=
  (Check.spaceInsideBraces.run t.events).2.filterMap (·.correction)

namespace Edit

variable {t : Template} {b : Body} {c : Correction}

/-! ### White space of a body -/

/-- Only the check for white space is on. -/
def spacingOn : Off → String → Bool := fun _ check => check == Check.spaceInsideBraces.name

theorem Site.fix_spacingOn_iff {s : Site} : s.Fix spacingOn c ↔ s.Spaces c := by
  constructor
  · rintro (⟨-, h⟩ | ⟨hon, -⟩)
    · exact h
    · exact absurd (beq_iff_eq.1 hon) (by decide)
  · intro h
    exact Or.inl ⟨beq_self_eq_true _, h⟩

/-- **Corrections of white space** are those of the sites. -/
theorem mem_spacing_iff (hroot : t.root = .ok b.document) (hsource : b.spell = t.source)
    (hfits : b.Fits none) : c ∈ t.spacing ↔ ∃ s ∈ sites nothing 0 b, s.Spaces c := by
  unfold Template.spacing
  rw [List.mem_filterMap]
  constructor
  · rintro ⟨f, hf, hc⟩
    obtain ⟨s, hs, h, -⟩ := (exists_spacing_iff nothing hroot hfits hsource).1 ⟨f, hf, hc, rfl⟩
    exact ⟨s, hs, h⟩
  · rintro ⟨s, hs, h⟩
    obtain ⟨f, hf, hc, -⟩ := (exists_spacing_iff nothing hroot hfits hsource).2 ⟨s, hs, h, rfl⟩
    exact ⟨f, hf, hc⟩

/-- Everything that is reported about white space can be corrected. -/
theorem run_eq_nil_of_spacing (hroot : t.root = .ok b.document) (h : t.spacing = []) :
    (Check.spaceInsideBraces.run t.events).2 = [] := by
  rw [List.eq_nil_iff_forall_not_mem]
  intro f hf
  obtain ⟨n, -, g, -, rfl⟩ := (mem_run_spacing hroot).1 hf
  have hmem : g.correction ∈ t.spacing := List.mem_filterMap.2 ⟨_, hf, rfl⟩
  rw [h] at hmem
  cases hmem

end Edit

/-! ### One pass over a template -/

namespace Template

variable {t : Template} {root : Node} {cs : List Correction}

theorem tidy_of_mem_spacing (hroot : t.root = .ok root) {c : Correction} (hc : c ∈ t.spacing) :
    c.Tidy := by
  obtain ⟨b, rfl, hsource, hfits, -⟩ := t.exists_body hroot
  obtain ⟨s, -, h⟩ := (Edit.mem_spacing_iff hroot hsource hfits).1 hc
  have howns : s.Owns Edit.spacingOn c := Or.inl (Edit.Site.fix_spacingOn_iff.2 h)
  exact howns.tidy

/-- **One pass over a template** applies all corrections of its white space, and leaves a template
which differs by spaces alone and about whose white space nothing is reported. -/
theorem spaced_of_root (hroot : t.root = .ok root) (hcs : ∀ c, c ∈ cs ↔ c ∈ t.spacing) :
    (∀ c ∈ cs, ∀ d ∈ cs, c ≠ d → c.Apart d) ∧ (applyAll t.source cs).skipped = 0 ∧
      (∃ b b' : Body, t.source = b.spell ∧ root = b.document ∧ Edit.Respaces b b' ∧
        (applyAll t.source cs).text = b'.spell ∧
        Liquid.parse (applyAll t.source cs).text = .ok b'.document) ∧
      (Check.spaceInsideBraces.run (t.setSource (applyAll t.source cs).text).events).2 = [] := by
  have htidy : ∀ c ∈ cs, c.Tidy := fun c hc => tidy_of_mem_spacing hroot ((hcs c).1 hc)
  obtain ⟨b, rfl, hsource, hfits, hsound⟩ := t.exists_body hroot
  have hspaces : ∀ c ∈ cs, ∃ s ∈ Edit.sites Edit.nothing 0 b, s.Spaces c :=
    fun c hc => (Edit.mem_spacing_iff hroot hsource hfits).1 ((hcs c).1 hc)
  have howns : ∀ c ∈ cs, ∃ s ∈ Edit.sites Edit.nothing 0 b, s.Owns Edit.spacingOn c := by
    intro c hc
    obtain ⟨s, hs, h⟩ := hspaces c hc
    exact ⟨s, hs, Or.inl (Edit.Site.fix_spacingOn_iff.2 h)⟩
  have hapart : ∀ c ∈ cs, ∀ d ∈ cs, c ≠ d → c.Apart d := by
    intro c hc d hd hne
    obtain ⟨s, hs, h⟩ := hspaces c hc
    obtain ⟨s', hs', h'⟩ := hspaces d hd
    exact h.apart hs hs' h' hne
  obtain ⟨b', h, htext, -, hparse⟩ := Edit.exists_outcome hfits hsound howns
  have hfits' : b'.glue.Fits none := Body.fits_glue (h.mends.fits hfits)
  rw [← Body.spell_glue b'] at htext hparse
  rw [← htext] at hparse
  rw [← hsource]
  refine ⟨hapart, ?_, ⟨b.glue, b'.glue, ?_, ?_, ?_, htext, hparse⟩, ?_⟩
  · refine Correction.skipped_of_apart htidy (fun c hc => ?_) hapart
    obtain ⟨s, hs, h⟩ := howns c hc
    exact Edit.fits_of_owns hfits hsound hs h
  · exact (Body.spell_glue b).symm
  · -- the tree is read from the source, so it is that of the joined body
    have hglue := Body.parse_spell hsound hfits
    rw [hsource] at hglue
    exact Except.ok.inj (hroot.symm.trans hglue)
  · refine (h.respaces fun c hc => ?_).glue
    obtain ⟨s, -, h⟩ := hspaces c (Correction.mem_schedule.1 hc)
    exact h.text_eq
  · have hroot' : (t.setSource (applyAll b.spell cs).text).root = .ok b'.glue.document := hparse
    refine Edit.run_eq_nil_of_spacing hroot' (List.eq_nil_iff_forall_not_mem.2 fun c hc => ?_)
    obtain ⟨s, hs, hspace⟩ := (Edit.mem_spacing_iff hroot' htext.symm hfits').1 hc
    rw [Edit.sites_glue] at hs
    -- all corrections were applied, so none is left
    refine h.clean (fun c s hs hfix => ?_) 0 s hs c (Edit.Site.fix_spacingOn_iff.2 hspace)
    refine Correction.mem_schedule.2 ((hcs c).2 ((Edit.mem_spacing_iff hroot hsource hfits).2 ?_))
    exact ⟨s, hs, Edit.Site.fix_spacingOn_iff.1 hfix⟩

/-- Without disabling comments nothing is off. -/
theorem isDisabled_of_directives (hroot : t.root = .ok root)
    (hon : ∀ p ∈ DisabledRanges.directives root t.source, ∀ names, p.2 ≠ .disable names)
    (check : String) (x : Nat) : t.isDisabled check x = false := by
  obtain ⟨hds, hsize⟩ := DisabledRanges.pairwise_directives hroot
  unfold isDisabled
  rw [hroot]
  refine Bool.eq_false_iff.2 fun hoff => ?_
  obtain ⟨-, key, -, p, hp, -, hopens, -⟩ := (DisabledRanges.isDisabled_iff_exists check hds
    fun d hd => Nat.le_of_lt (hsize d hd)).1 hoff
  obtain ⟨offset, directive⟩ := p
  cases directive with
  | disable names => exact hon _ hp names rfl
  | enable names => cases hopens

end Template

/-! ### One pass of an analyzer -/

namespace Analyzer

variable {a : Analyzer} {t : Template} {c : Correction} {tree : FileTree}

/-- The check for white space is the only one in use, and no cell is stale. -/
def SpacingOnly (a : Analyzer) : Prop :=
  a.Fresh ∧
    ∃ i, a.instances = [i] ∧ i.name = Check.spaceInsideBraces.name ∧ i.check = .spaceInsideBraces

theorem spacingOnly_new (theme : Theme) (severity? : String → Option Severity)
    (autoCorrect : Bool) : (new theme [.spaceInsideBraces] severity? autoCorrect).SpacingOnly :=
  ⟨fresh_new .., _, rfl, rfl, rfl⟩

theorem SpacingOnly.analyze (h : a.SpacingOnly) : a.analyze.SpacingOnly := by
  obtain ⟨hfresh, i, hi, hname, hcheck⟩ := h
  refine ⟨fresh_analyze hfresh, i.run a.theme.events, ?_, hname, ?_⟩
  · rw [instances_analyze hfresh, hi]
    rfl
  · show (i.check.run a.theme.events).1 = _
    rw [hcheck, Check.run_eq_flatMap fun _ => rfl]

/-- Corrections leave the checks as they are. -/
theorem SpacingOnly.round (h : a.SpacingOnly) (tree : FileTree) : (a.round tree).1.SpacingOnly := by
  refine ⟨fresh_correct h.analyze.1 tree, ?_⟩
  unfold Analyzer.round correct
  split
  · exact h.analyze.2
  · exact h.analyze.2

theorem SpacingOnly.ofBuiltins (h : a.SpacingOnly) : a.OfBuiltins := by
  obtain ⟨hfresh, i, hi, hname, hcheck⟩ := h
  refine ⟨hfresh, ?_, ?_⟩
  · intro j hj
    rw [hi, List.mem_singleton] at hj
    rw [hj, hcheck]
    trivial
  · intro j hj
    rw [hi, List.mem_singleton] at hj
    rw [hj, hcheck, hname]

/-- With one template, everything is reported about that template, unless a comment turns it off. -/
theorem SpacingOnly.reported (h : a.SpacingOnly) (htheme : a.theme.templates = [t]) :
    a.reported = a.reportedAbout t := by
  refine reported_of_templates (fun i hi => ?_) htheme
  obtain ⟨-, j, hj, -, hcheck⟩ := h
  rw [hj, List.mem_singleton] at hi
  rw [hi, hcheck]
  trivial

/-- Nothing to report about the template is nothing to report. -/
theorem SpacingOnly.offenses_eq_nil (h : a.SpacingOnly) (htheme : a.theme.templates = [t])
    (hrun : (Check.spaceInsideBraces.run t.events).2 = []) : a.analyze.offenses = [] := by
  have hnone : a.found t.events = [] := by
    obtain ⟨-, i, hi, -, hcheck⟩ := h
    unfold found
    rw [hi, List.flatMap_singleton, hcheck, hrun]
    rfl
  rw [offenses_analyze h.1, h.reported htheme, reportedAbout, hnone, List.filter_nil, List.mergeSort_nil]

/-- **Offenses of an analysis** of one template without disabling comments are what the check
reports about the template. -/
theorem SpacingOnly.mem_offenses_iff (h : a.SpacingOnly) (htheme : a.theme.templates = [t])
    (hon : ∀ check x, t.isDisabled check x = false) {o : Offense} :
    o ∈ a.analyze.offenses ↔ ∃ i ∈ a.instances, ∃ f ∈ (Check.spaceInsideBraces.run t.events).2,
      i.offense f = o := by
  obtain ⟨-, i, hi, -, hcheck⟩ := id h
  rw [offenses_analyze h.1, List.mem_mergeSort, h.reported htheme, reportedAbout, List.mem_filter, hon,
    Bool.and_false, Bool.not_false, found, hi, List.flatMap_singleton, hcheck]
  simp

/-- **The corrections chosen by an analysis** are those of the white space of the template. -/
theorem SpacingOnly.mem_corrections_iff (h : a.SpacingOnly) (htheme : a.theme.templates = [t])
    (hon : ∀ check x, t.isDisabled check x = false) :
    c ∈ a.analyze.offenses.filterMap a.analyze.correction? ↔ c ∈ t.spacing := by
  obtain ⟨-, i, hi, -⟩ := id h
  unfold Template.spacing
  rw [List.mem_filterMap, List.mem_filterMap]
  constructor
  · rintro ⟨o, ho, hc⟩
    rw [h.ofBuiltins.correction?_eq ho] at hc
    obtain ⟨i, -, f, hf, rfl⟩ := (h.mem_offenses_iff htheme hon).1 ho
    exact ⟨f, hf, hc⟩
  · rintro ⟨f, hf, hc⟩
    have ho : i.offense f ∈ a.analyze.offenses :=
      (h.mem_offenses_iff htheme hon).2 ⟨i, by simp [hi], f, hf, rfl⟩
    exact ⟨_, ho, (h.ofBuiltins.correction?_eq ho).trans hc⟩

/-- The edits for the template are those corrections. -/
theorem SpacingOnly.mem_chosen_iff (h : a.SpacingOnly) (htheme : a.theme.templates = [t])
    (hon : ∀ check x, t.isDisabled check x = false) :
    c ∈ chosen a.analyze.edits t ↔ c ∈ a.analyze.offenses.filterMap a.analyze.correction? := by
  rw [mem_chosen_edits_iff, List.mem_filterMap]
  refine exists_congr fun o => and_congr_right fun ho => and_iff_right ?_
  -- every offense has the path of the only template
  obtain ⟨i, -, f, hf, rfl⟩ := (h.mem_offenses_iff htheme hon).1 ho
  have hlocal : Check.spaceInsideBraces.IsLocal := trivial
  exact Path.same_iff.2 (congrArg Path.components (hlocal.path_of_mem_run hf))

/-- **A round over one template** that is a file applies the corrections chosen by the analysis. -/
theorem SpacingOnly.exists_round (h : a.SpacingOnly) (hauto : a.autoCorrect = true)
    (htheme : a.theme.templates = [t]) (hon : ∀ check x, t.isDisabled check x = false)
    (htidy : ∀ c ∈ t.spacing, c.Tidy) (hfile : tree.isFile t.path = true) :
    let patch := applyAll t.source (a.analyze.offenses.filterMap a.analyze.correction?)
    ∃ s, (a.round tree).2.2 = .ok s ∧ (s.skipped = 0 ↔ patch.skipped = 0) ∧
      (a.round tree).1.theme.templates = [t.setSource patch.text] := by
  intro patch
  -- the edits of the round are the same as a set, so they have the same schedule
  have hschedule : schedule (a.analyze.offenses.filterMap a.analyze.correction?) =
      schedule (chosen a.analyze.edits t) := by
    refine (Correction.noTwins_of_tidy fun c hc => ?_).schedule_of_mem_iff fun c => ?_
    · exact htidy c ((h.mem_corrections_iff htheme hon).1 hc)
    · exact (h.mem_chosen_iff htheme hon).symm
  have hpatch : applyAll t.source (chosen a.analyze.edits t) = patch := by
    unfold patch applyAll
    rw [hschedule]
  have hdistinct : a.theme.Distinct := Theme.distinct_of_templates htheme
  have hfiles : ∀ s ∈ a.theme.templates, tree.isFile s.path = true := by
    rw [htheme]
    exact List.forall_mem_singleton.2 hfile
  obtain ⟨⟨s, hs⟩, -⟩ := round_of_isFile hauto hfiles
  have hmended := mended_of_correct hs
  refine ⟨s, hs, ?_, ?_⟩
  · have hfound : a.analyze.theme.templateAt? t.relativePath = some t :=
      (hdistinct.sole (by simp [htheme])).templateAt?
    rw [hmended.skipped_eq_zero_iff (sorted_edits _), and_iff_right rfl]
    constructor
    · intro hall
      rw [← hpatch]
      exact hall _ t hfound
    · intro hskipped path t' ht'
      have hmem : t' ∈ a.theme.templates := List.mem_of_find?_eq_some ht'
      rw [htheme, List.mem_singleton] at hmem
      rw [hmem, hpatch]
      exact hskipped
  · have htemplates : a.analyze.theme.templates = [t] := htheme
    have hresult := hmended.templates hdistinct
    rwa [htemplates, List.map_singleton, mend, hpatch] at hresult

/-- **White space is corrected in one pass.** Of a theme with one template that parses and holds no
disabling comment, analysed with the check for white space alone, all corrections are applied: they
are apart, so none is skipped. What comes out parses, and nothing but spaces has changed: in the
markup of outputs and of tags other than `liquid`, outside strings, and in end tags. Nothing is
reported about it. A round does this when the template is a file that can be written. -/
theorem one_pass {t : Template} {root : Node} {theme : Theme} (hroot : t.root = .ok root)
    (hon : ∀ p ∈ DisabledRanges.directives root t.source, ∀ names, p.2 ≠ .disable names)
    (htheme : theme.templates = [t]) (severity? : String → Option Severity) :
    let a := new theme [.spaceInsideBraces] severity? true
    let cs := a.analyze.offenses.filterMap a.analyze.correction?
    let patch := applyAll t.source cs
    (∀ c ∈ cs, ∀ d ∈ cs, c ≠ d → c.Apart d) ∧ patch.skipped = 0 ∧
      (∃ b b' : Body, t.source = b.spell ∧ root = b.document ∧ Edit.Respaces b b' ∧
        patch.text = b'.spell ∧ Liquid.parse patch.text = .ok b'.document) ∧
      (∀ theme' : Theme, theme'.templates = [t.setSource patch.text] →
        (new theme' [.spaceInsideBraces] severity? true).analyze.offenses = []) ∧
      ∀ tree : FileTree, tree.isFile t.path = true →
        (∃ s, (a.round tree).2.2 = .ok s ∧ s.skipped = 0) ∧
          (a.round tree).1.theme.templates = [t.setSource patch.text] ∧
          (a.round tree).1.analyze.offenses = [] := by
  intro a cs patch
  have honly : a.SpacingOnly := spacingOnly_new theme severity? true
  have htemplates : a.theme.templates = [t] := htheme
  have hoff := Template.isDisabled_of_directives hroot hon
  have hcs : ∀ c, c ∈ cs ↔ c ∈ t.spacing := fun c => honly.mem_corrections_iff htemplates hoff
  -- the rest is about the one template: its spacing edits, what they make of it, and that none
  -- follow
  obtain ⟨hapart, hskipped, hbody, hrun⟩ := Template.spaced_of_root hroot hcs
  refine ⟨hapart, hskipped, hbody, fun theme' h => ?_, fun tree hfile => ?_⟩
  · -- any theme of the mended template is clean
    exact (spacingOnly_new theme' severity? true).offenses_eq_nil h hrun
  -- and a round that corrects leaves such a theme
  obtain ⟨s, hs, hnone, hresult⟩ := honly.exists_round rfl htemplates hoff
    (fun c => Template.tidy_of_mem_spacing hroot) hfile
  exact ⟨⟨s, hs, hnone.2 hskipped⟩, hresult, (honly.round tree).offenses_eq_nil hresult hrun⟩

/-- Spaces next to dashes, after separators and in an end tag, with a string and a `liquid` tag that stay
as they are, and a comment that turns checks on. Two corrections are found twice. -/
theorem one_pass_dashes :
    let source : Text := ("\x7b\x7ba ,b:  'x,y':  -\x7d\x7d\x7b%-  if c,-%\x7d" ++
      "\x7b%liquid  assign  d = 1%\x7d\x7b%endif-%\x7d" ++
      "\x7b% comment %\x7dtheme-check-enable\x7b% endcomment %\x7d").toList
    let t : Template := ⟨⟨⟨"a.liquid"⟩, source⟩, ⟨"a.liquid"⟩⟩
    let tree : FileTree := { entries := [(["a.liquid"], .file (.text source))] }
    let a := new ⟨⟨"."⟩, [t], []⟩ [.spaceInsideBraces] (fun _ => none) true
    let patch := applyAll source (a.analyze.offenses.filterMap a.analyze.correction?)
    t.spacing = [.insert 2 " ", .replace ⟨15, 17⟩ " ", .insert 5 " ", .replace ⟨15, 17⟩ " ",
        .replace ⟨23, 25⟩ " ", .insert 30 " ", .insert 30 " ", .insert 60 " ", .insert 65 " "] ∧
      patch.skipped = 0 ∧ (∃ b b' : Body, source = b.spell ∧ Edit.Respaces b b' ∧
        patch.text = b'.spell ∧ Liquid.parse patch.text = .ok b'.document) ∧
      (∃ s, (a.round tree).2.2 = .ok s ∧ s.skipped = 0) ∧
      (a.round tree).1.theme.templates = [t.setSource patch.text] ∧
      (a.round tree).1.analyze.offenses = [] := by
  intro source t tree a patch
  obtain ⟨root, hroot, hdirectives⟩ : ∃ root, t.root = .ok root ∧
      DisabledRanges.directives root source = [(68, .enable [])] :=
    Liquid.exists_parse_of_map (by decide +kernel)
  have hon : ∀ p ∈ DisabledRanges.directives root source, ∀ names, p.2 ≠ .disable names := by
    rw [hdirectives]
    simp
  have htheme : Theme.templates ⟨⟨"."⟩, [t], []⟩ = [t] := rfl
  have hfile : tree.isFile t.path = true := by decide +kernel
  obtain ⟨-, hskipped, ⟨b, b', hb, -, hspaces, htext, hparse⟩, -, hround⟩ :=
    one_pass (t := t) hroot hon htheme fun _ => none
  exact ⟨by decide +kernel, hskipped, ⟨b, b', hb, hspaces, htext, hparse⟩, hround tree hfile⟩

end Analyzer

end LiquidLint
