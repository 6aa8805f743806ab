import LiquidLint.Proofs.Analyzer.Correct
import LiquidLint.Proofs.FileTree.Write
import Mathlib.Algebra.Order.Group.Nat
import Mathlib.Order.Nat

/-!
# Repeated correction comes to an end

Rounds of analysis and correction are repeated. `Template.passesLeft` bounds the number of rounds that
still change a template, every round lowers it, and it is zero exactly when no correction is pending.
So the rounds that apply an edit are the first ones, there is at most one more of them than the
largest number of `assign` tags in a template, and from then on no offense carries a correction:
`exists_last_round`.

Writing may fail, and the statement is about rounds in which it does not. Those of a theme whose
templates are files of the tree are such (`exists_outcome_of_isFile`). It is also about templates with
different paths, which those of a loaded theme have (`Theme.distinct_of_load`); edits of templates that
share one can stay pending (`idle_round_shared`).
-/

namespace LiquidLint

open Correction (applyAll applyAll_of_increasing)

/-- The largest number of `assign` tags in a template. -/
def Theme.maxAssigns (theme : Theme) : Nat := (theme.templates.map Template.assigns).max?.getD 0

theorem Theme.assigns_le_maxAssigns {theme : Theme} {t : Template} (ht : t ∈ theme.templates) :
    t.assigns ≤ theme.maxAssigns :=
  List.le_max?_getD_of_mem (List.mem_map.2 ⟨t, ht, rfl⟩)

namespace Analyzer

variable {a : Analyzer} {tree : FileTree}

/-! ### Rounds one after the other -/

/-- The analyzer and the files before the round number `n`; the first round has number 0. -/
def before (a : Analyzer) (tree : FileTree) : Nat → Analyzer × FileTree
  | 0 => (a, tree)
  | n + 1 =>
    let (a, tree) := before a tree n
    ((a.round tree).1, (a.round tree).2.1)

/-- What the round number `n` did. -/
def outcome (a : Analyzer) (tree : FileTree) (n : Nat) : Except AnalyzerError CorrectionSummary :=
  ((a.before tree n).1.round (a.before tree n).2).2.2

/-- No correction is pending before the round number `n`. -/
def Done (a : Analyzer) (tree : FileTree) (n : Nat) : Prop :=
  ∀ t ∈ (a.before tree n).1.theme.templates, t.pending = []

/-- What holds before every round. -/
structure Running (a : Analyzer) (tree : FileTree) (bound n : Nat) : Prop where
  ready : (a.before tree n).1.Ready
  distinct : (a.before tree n).1.theme.Distinct
  passesLeft_le : ∀ t ∈ (a.before tree n).1.theme.templates, t.passesLeft ≤ bound - n

/-- One more round. -/
theorem Running.succ {bound n : Nat} (h : Running a tree bound n)
    (hwrites : ∃ s, a.outcome tree n = .ok s) : Running a tree bound (n + 1) := by
  obtain ⟨s, hs⟩ := hwrites
  obtain ⟨hready, ⟨f, hmap, hpasses⟩, -⟩ := h.ready.round h.distinct hs
  refine ⟨hready, h.distinct.of_paths ?_, fun t' ht' => ?_⟩
  · have hpath : ∀ t ∈ (a.before tree n).1.theme.templates,
        (f t).relativePath = t.relativePath := by
      intro t ht
      obtain ⟨cs, -, hf⟩ := hpasses t ht
      rw [hf]
      rfl
    exact (congrArg (List.map _) hmap).trans (List.map_map.trans (List.map_congr_left hpath))
  · have hmem : t' ∈ (a.before tree n).1.theme.templates.map f := by
      rw [← hmap]
      exact ht'
    obtain ⟨t, ht, rfl⟩ := List.mem_map.1 hmem
    have hleft := (hpasses t ht).passesLeft_le
    have hbound := h.passesLeft_le t ht
    omega

theorem Running.all {bound : Nat} (h : Running a tree bound 0)
    (hwrites : ∀ n, ∃ s, a.outcome tree n = .ok s) (n : Nat) : Running a tree bound n := by
  induction n with
  | zero => exact h
  | succ n ih => exact ih.succ (hwrites n)

/-- Once nothing is pending, nothing ever is. -/
theorem Running.done_succ {bound n : Nat} (h : Running a tree bound n)
    (hwrites : ∃ s, a.outcome tree n = .ok s) (hdone : a.Done tree n) : a.Done tree (n + 1) := by
  obtain ⟨s, hs⟩ := hwrites
  obtain ⟨-, ⟨f, hmap, hpasses⟩, -⟩ := h.ready.round h.distinct hs
  intro t' ht'
  have hmem : t' ∈ (a.before tree n).1.theme.templates.map f := by
    rw [← hmap]
    exact ht'
  obtain ⟨t, ht, rfl⟩ := List.mem_map.1 hmem
  rw [(hpasses t ht).eq_of_pending (hdone t ht)]
  exact hdone t ht

/-- A round applies nothing exactly when nothing is pending. -/
theorem Running.applied_eq_zero_iff {bound n : Nat} (h : Running a tree bound n)
    {s : CorrectionSummary} (hs : a.outcome tree n = .ok s) : s.applied = 0 ↔ a.Done tree n :=
  (h.ready.round h.distinct hs).2.2

/-- Without pending corrections no offense carries one. -/
theorem Running.correction_eq_none {bound n : Nat} (h : Running a tree bound n)
    (hdone : a.Done tree n) {o : Offense} (ho : o ∈ (a.before tree n).1.analyze.offenses) :
    o.correction = none := by
  cases hc : o.correction with
  | none => rfl
  | some c =>
    obtain ⟨d, -, -, t, ht, -, hpending⟩ := h.ready.toOfBuiltins.exists_template ho hc
    have hmem := hpending (h.distinct.sole ht)
    rw [hdone t ht] at hmem
    cases hmem

/-- A new analyzer with built-in checks is ready. -/
theorem ready_new {theme : Theme} {checks : List Check} (severity? : String → Option Severity)
    (hbuiltin : ∀ c ∈ checks, c.IsBuiltin) (hcorrecting : ∀ c ∈ correctingChecks, c ∈ checks) :
    (new theme checks severity? true).Ready := by
  refine ⟨ofBuiltins_new severity? true hbuiltin, rfl, fun d hd => ?_⟩
  have h : (d.name, d) ∈ (new theme checks severity? true).instances.map
      fun i => (i.name, i.check) := by
    rw [instances_new]
    exact List.mem_map.2 ⟨d, hcorrecting d hd, rfl⟩
  obtain ⟨i, hi, heq⟩ := List.mem_map.1 h
  exact ⟨i, hi, (Prod.mk.inj heq).1⟩

/-! ### Files that can be written -/

theorem exists_path_of_mem_setSourceIn {path : Path} {source : Text} {ts : List Template}
    {t : Template} (ht : t ∈ Theme.setSourceIn path source ts) : ∃ s ∈ ts, s.path = t.path := by
  induction ts with
  | nil => cases ht
  | cons s ts ih =>
    unfold Theme.setSourceIn at ht
    split at ht
    · rcases List.mem_cons.1 ht with rfl | ht
      · exact ⟨s, List.mem_cons_self .., rfl⟩
      · exact ⟨t, List.mem_cons_of_mem _ ht, rfl⟩
    · rcases List.mem_cons.1 ht with rfl | ht
      · exact ⟨t, List.mem_cons_self .., rfl⟩
      · obtain ⟨s', hs', hpath⟩ := ih ht
        exact ⟨s', List.mem_cons_of_mem _ hs', hpath⟩

/-- Templates that are files stay files, and edits of them can be written. -/
theorem applyEdits_of_isFile {c : CachedTheme} {summary : CorrectionSummary} (edits : Edits)
    (h : ∀ t ∈ c.theme.templates, tree.isFile t.path = true) :
    ∃ c' tree' summary', applyEdits c tree summary edits = (c', tree', .ok summary') ∧
      ∀ t ∈ c'.theme.templates, tree'.isFile t.path = true := by
  -- the induction is on the paths that are left; the files of all templates stay writable on the
  -- way
  induction edits generalizing c tree summary with
  | nil => exact ⟨c, tree, summary, rfl, h⟩
  | cons e edits ih =>
    obtain ⟨path, cs⟩ := e
    unfold applyEdits
    cases hfound : c.theme.templateAt? path with
    | none => exact ih h
    | some template =>
      dsimp only
      split
      · exact ih h
      · -- a written file was there before, so the tree keeps its shape
        have hfile := h template (List.mem_of_find?_eq_some hfound)
        obtain ⟨tree', hwrite, hsame⟩ := FileTree.write_of_isFile hfile
          (Correction.applyAll template.source cs).text
        rw [hwrite]
        refine ih fun t ht => ?_
        obtain ⟨s, hs, hpath⟩ := exists_path_of_mem_setSourceIn ht
        rw [hsame, ← hpath]
        exact h s hs

theorem round_of_isFile (hauto : a.autoCorrect = true)
    (hfiles : ∀ t ∈ a.theme.templates, tree.isFile t.path = true) :
    (∃ s, (a.round tree).2.2 = .ok s) ∧ (a.round tree).1.autoCorrect = true ∧
      ∀ t ∈ (a.round tree).1.theme.templates, (a.round tree).2.1.isFile t.path = true := by
  obtain ⟨c, tree', summary', happly, hfiles'⟩ :
      ∃ c tree' summary', applyEdits a.analyze.toCachedTheme tree ⟨0, 0, 0⟩ a.analyze.edits
        = (c, tree', .ok summary') ∧ ∀ t ∈ c.theme.templates, tree'.isFile t.path = true :=
    applyEdits_of_isFile a.analyze.edits hfiles
  have hauto' : a.analyze.autoCorrect = true := hauto
  unfold round correct
  rw [if_pos hauto', happly]
  exact ⟨⟨summary', rfl⟩, hauto', hfiles'⟩

/-- **Rounds over files that exist** do not fail. -/
theorem exists_outcome_of_isFile (hauto : a.autoCorrect = true)
    (hfiles : ∀ t ∈ a.theme.templates, tree.isFile t.path = true) (n : Nat) :
    ∃ s, a.outcome tree n = .ok s := by
  have hbefore : (a.before tree n).1.autoCorrect = true ∧
      ∀ t ∈ (a.before tree n).1.theme.templates, (a.before tree n).2.isFile t.path = true := by
    induction n with
    | zero => exact ⟨hauto, hfiles⟩
    | succ n ih => exact (round_of_isFile ih.1 ih.2).2
  exact (round_of_isFile hbefore.1 hbefore.2).1

/-! ### The last round -/

/-- **Repeated correction comes to an end.** Of a theme whose templates have different paths, analysed
with built-in checks that include the correcting ones, rounds that do not fail to write apply edits up
to some round and none from there on. There are at most as many rounds that apply edits as there are
`assign` tags in one template and one more, and after them no offense carries a correction. -/
theorem exists_last_round {theme : Theme} {checks : List Check}
    {severity? : String → Option Severity} {tree : FileTree}
    (hbuiltin : ∀ c ∈ checks, ∃ r ∈ Registry.builtinChecks, ∃ o, c = r.make o)
    (hcorrecting : ∀ c ∈ correctingChecks, c ∈ checks) (hpaths : theme.Distinct)
    (hwrites : ∀ n, ∃ s, (new theme checks severity? true).outcome tree n = .ok s) :
    ∃ last ≤ 1 + theme.maxAssigns,
      (∀ n s, (new theme checks severity? true).outcome tree n = .ok s →
        (s.applied = 0 ↔ last ≤ n)) ∧
      ∀ n, last ≤ n → ∀ o ∈ ((new theme checks severity? true).before tree n).1.analyze.offenses,
        o.correction = none := by
  -- the three correcting checks are among the built-in ones
  have hready : (new theme checks severity? true).Ready := by
    refine ready_new severity? (fun c hc => ?_) hcorrecting
    obtain ⟨r, hr, o, rfl⟩ := hbuiltin c hc
    exact Check.isBuiltin_make hr o
  -- before round 0 no template needs more passes than it has assignments, and one for the rest
  have hstart : Running (new theme checks severity? true) tree (1 + theme.maxAssigns) 0 := by
    refine ⟨hready, hpaths, fun t ht => ?_⟩
    have hle : t.assigns ≤ theme.maxAssigns := Theme.assigns_le_maxAssigns ht
    have hleft := t.passesLeft_le
    omega
  -- each round takes one pass off every template that needs one
  have hrun := hstart.all hwrites
  have hend : (new theme checks severity? true).Done tree (1 + theme.maxAssigns) := by
    intro t ht
    have hzero := (hrun (1 + theme.maxAssigns)).passesLeft_le t ht
    exact Template.passesLeft_eq_zero_iff.1 (by omega)
  -- a theme that is done stays done
  have hmono : ∀ m n, m ≤ n → (new theme checks severity? true).Done tree m →
      (new theme checks severity? true).Done tree n := by
    intro m n hmn hdone
    induction n, hmn using Nat.le_induction with
    | base => exact hdone
    | succ n _ ih => exact (hrun n).done_succ (hwrites n) ih
  -- the last round is the first one before which the theme is done
  classical
  have hexists : ∃ n, (new theme checks severity? true).Done tree n := ⟨_, hend⟩
  have hiff : ∀ n, (new theme checks severity? true).Done tree n ↔ Nat.find hexists ≤ n :=
    fun n => ⟨Nat.find_min' hexists, fun hle => hmono _ n hle (Nat.find_spec hexists)⟩
  refine ⟨Nat.find hexists, Nat.find_min' hexists hend, fun n s hs => ?_, fun n hn o ho => ?_⟩
  · rw [(hrun n).applied_eq_zero_iff hs, hiff]
  · exact (hrun n).correction_eq_none ((hiff n).2 hn) ho

/-- A template in which one edit makes way for the next: with its `include` tag renamed, one variable
is unused, and without that one the other is. Nothing is pending behind its comment. -/
theorem exists_last_round_chain :
    let source : Text := ("\x7b% include 'a' %\x7d\x7b%assign x = 1%\x7d\x7b% assign y = x %\x7d" ++
      "\x7b% comment %\x7dtheme-check-disable\x7b% endcomment %\x7d\x7b\x7bz\x7d\x7d").toList
    let theme : Theme :=
      ⟨⟨"."⟩, [⟨⟨⟨"a.liquid"⟩, source⟩, ⟨"a.liquid"⟩⟩, ⟨⟨⟨"b.liquid"⟩, []⟩, ⟨"b.liquid"⟩⟩], []⟩
    let tree : FileTree :=
      { entries := [(["a.liquid"], .file (.text source)), (["b.liquid"], .file (.text []))] }
    let a := new theme (Registry.builtinChecks.map (·.make {})) (fun _ => none) true
    theme.maxAssigns = 2 ∧ ∃ last ≤ 1 + theme.maxAssigns,
      (∀ n s, a.outcome tree n = .ok s → (s.applied = 0 ↔ last ≤ n)) ∧
      ∀ n, last ≤ n → ∀ o ∈ (a.before tree n).1.analyze.offenses, o.correction = none := by
  intro source theme tree a
  have hfiles : ∀ t ∈ theme.templates, tree.isFile t.path = true := by decide +kernel
  refine ⟨by decide +kernel, exists_last_round ?_ ?_ ?_ (exists_outcome_of_isFile rfl hfiles)⟩
  · intro c hc
    obtain ⟨r, hr, rfl⟩ := List.mem_map.1 hc
    exact ⟨r, hr, {}, rfl⟩
  · simp [correctingChecks, Registry.builtinChecks]
  · exact List.pairwise_pair.2 (by decide +kernel)

/-- **Templates that share a path** share their edits, which are made in the first of them. So a
round can apply nothing although edits of the other one are pending. -/
theorem idle_round_shared :
    let source : Text := "\x7b\x7bx\x7d\x7d".toList
    let theme : Theme :=
      ⟨⟨"."⟩, [⟨⟨⟨"a.liquid"⟩, []⟩, ⟨"a.liquid"⟩⟩, ⟨⟨⟨"a.liquid"⟩, source⟩, ⟨"a.liquid"⟩⟩], []⟩
    let tree : FileTree := { entries := [(["a.liquid"], .file (.text []))] }
    let a := new theme correctingChecks (fun _ => none) true
    (∀ c ∈ correctingChecks, ∃ r ∈ Registry.builtinChecks, ∃ o, c = r.make o) ∧
      (∀ n, ∃ s, a.outcome tree n = .ok s) ∧ a.outcome tree 0 = .ok ⟨0, 0, 2⟩ ∧
      ∃ o ∈ (a.before tree 0).1.analyze.offenses, o.correction ≠ none := by
  intro source theme tree a
  have hbuiltin : ∀ c ∈ correctingChecks, ∃ r ∈ Registry.builtinChecks, ∃ o, c = r.make o := by
    intro c hc
    have hmem : c ∈ Registry.builtinChecks.map (·.make {}) := by
      revert c
      simp [correctingChecks, Registry.builtinChecks]
    obtain ⟨r, hr, rfl⟩ := List.mem_map.1 hmem
    exact ⟨r, hr, {}, rfl⟩
  have hfiles : ∀ t ∈ theme.templates, tree.isFile t.path = true := by decide +kernel
  have hoffenses : a.analyze.offenses = a.reported :=
    offenses_of_pairwise (fresh_new ..) (by decide +kernel)
  have hedits : a.analyze.edits = [(⟨"a.liquid"⟩, [.insert 2 " ", .insert 3 " "])] := by
    unfold edits
    rw [hoffenses]
    decide +kernel
  -- both offsets lie behind the end of the first template
  have hskipped : applyAll [] [.insert 2 " ", .insert 3 " "] = ⟨[], 0, 0, 2⟩ := by
    rw [applyAll_of_increasing (by decide)]
    rfl
  have hfound : a.analyze.theme.templateAt? ⟨"a.liquid"⟩ =
      some ⟨⟨⟨"a.liquid"⟩, []⟩, ⟨"a.liquid"⟩⟩ := by
    show theme.templateAt? _ = _
    decide +kernel
  have hround : (a.round tree).2.2 = .ok ⟨0, 0, 2⟩ := by
    unfold round
    rw [correct_of_skipped rfl hedits hfound hskipped rfl]
  refine ⟨hbuiltin, exists_outcome_of_isFile rfl hfiles, hround, ?_⟩
  show ∃ o ∈ a.analyze.offenses, o.correction ≠ none
  rw [hoffenses]
  decide +kernel

end Analyzer

end LiquidLint
