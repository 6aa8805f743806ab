import LiquidLint.Check.Basic

/-!
# Why something is reported

`Reports c e f` lists, for each check `c`, the events `e` it reports anything about, the findings `f`
it makes of them, and what has to be the case. These are exactly the findings of the checks
(`mem_findings_iff`), so facts about all that is reported are shown by going through the reasons, and
a check whose rule changes is one case of them.
-/

namespace LiquidLint

open Liquid (Node)

/-! ### Locales -/

namespace Translations

variable {theme : Theme} {j : JsonFile} {f : Finding}

theorem exists_of_mem_report {lead : String} {keys : List String} (h : f ∈ report j lead keys) :
    ∃ message, f = j.toSourceFile.finding .zero message none := by
  unfold report at h
  dsimp only at h
  split at h
  · cases h
  · exact ⟨_, List.mem_singleton.1 h⟩

/-- A locale that differs is reported at its start. -/
theorem exists_of_mem_compare {expected : List String} (h : f ∈ compare expected j) :
    ∃ message, f = j.toSourceFile.finding .zero message none := by
  unfold compare at h
  split at h
  · cases h
  · rcases List.mem_append.1 h with h | h
    · exact exists_of_mem_report h
    · exact exists_of_mem_report h

theorem exists_of_mem_ofTheme (h : f ∈ ofTheme theme) :
    ∃ j ∈ theme.jsonFiles, ∃ message, f = j.toSourceFile.finding .zero message none := by
  unfold ofTheme at h
  dsimp only at h
  split at h
  · cases h
  · split at h
    · cases h
    · obtain ⟨j, hj, h⟩ := List.mem_flatMap.1 h
      exact ⟨j, (List.mem_filter.1 (List.mem_filter.1 hj).1).1, exists_of_mem_compare h⟩

end Translations

namespace Check

variable {c : Check} {e : Event} {es : List Event} {f : Finding}

/-- **Why a check reports something** at an event. -/
inductive Reports : Check → Event → Finding → Prop where
  | syntaxError {error : Liquid.ParseError} {t : Template} :
      Reports .syntaxError (.onError error t)
        (t.toSourceFile.finding (t.source.lineSpan error.line) error.message none)
  | templateLength {maxLength : Nat} {n : Node} {t : Template} : n.typeName = "document" →
      maxLength < t.source.lineCount →
      Reports (.templateLength maxLength) (.node .afterType n t)
        (t.toSourceFile.finding (t.source.lineSpan 1)
          s!"Template has too many lines [{t.source.lineCount}/{maxLength}]" none)
  | spaceInsideBraces {n : Node} {t : Template} {g : Spacing.Fault} :
      g ∈ Spacing.faults n t.source →
      Reports .spaceInsideBraces (.node .onNode n t)
        (t.toSourceFile.finding g.span g.message (some g.correction))
  | unknownFilter {ignored : List String} {n : Node} {t : Template} {g : Liquid.Found} :
      n.typeName ∈ ["variable", "assign", "echo"] →
      g ∈ Liquid.filters (t.source.slice n.markupSpan) → Liquid.isKnownFilter g.name = false →
      g.name ∉ ignored →
      Reports (.unknownFilter ignored) (.node .onType n t)
        (t.toSourceFile.finding ⟨n.markupSpan.start + g.offset,
          n.markupSpan.start + g.offset + g.name.utf8ByteSize⟩ s!"Undefined filter `{g.name}`" none)
  | missingTemplate {known : List String} {n : Node} {t : Template} {name : String} :
      References.target? n t.source = some name → name ∉ known →
      Reports (.missingTemplate known) (.node .onTag n t)
        (t.toSourceFile.finding n.span s!"'{name}.liquid' is not found" none)
  | unusedSnippet {uses : References.Uses} {theme : Theme} {t : Template} :
      uses.anything = false → t ∈ theme.templates → t.isSnippet = true → t.name ∉ uses.names →
      Reports (.unusedSnippet uses) (.onEnd theme)
        (t.toSourceFile.finding .zero "This template is not used" none)
  | unusedAssign {l : Assignments.Ledger} {n : Node} {t : Template} {p : String × Span} :
      n.typeName = "document" → p ∈ l.unused →
      Reports (.unusedAssign l) (.node .afterType n t)
        (t.toSourceFile.finding p.2 s!"`{p.1}` is never used" (some (.delete p.2)))
  | convertIncludeToRender {n : Node} {t : Template} : n.typeName = "include" →
      Reports .convertIncludeToRender (.node .onType n t)
        (t.toSourceFile.finding n.span "`include` is deprecated - convert it to `render`"
          ((References.includeKeyword? n t.source).map (Correction.replace · "render")))
  | validJson {j : JsonFile} {error : JsonError} : j.content = .error error →
      Reports .validJson (.onJson j)
        (j.toSourceFile.finding (j.source.lineSpan error.line) error.message none)
  | matchingTranslations {theme : Theme} {f : Finding} : f ∈ Translations.ofTheme theme →
      Reports .matchingTranslations (.onEnd theme) f
  | pattern {p : PatternCheck} {n : Node} {t : Template} {span : Span} :
      span ∈ p.matchSpans n t.source →
      Reports (.pattern p) (.node .onNode n t) (t.toSourceFile.finding span p.message none)
  | scripted {s : ScriptedCheck} {e : Event} {f : Finding} : f ∈ s.findings e →
      Reports (.scripted s) e f

/-! ### Rule by rule -/

theorem reports_of_mem_syntaxFindings (h : f ∈ syntaxFindings e) : Reports .syntaxError e f := by
  unfold syntaxFindings at h
  split at h
  · rw [List.mem_singleton.1 h]
    exact .syntaxError
  · cases h

theorem reports_of_mem_lengthFindings {maxLength : Nat} (h : f ∈ lengthFindings maxLength e) :
    Reports (.templateLength maxLength) e f := by
  unfold lengthFindings at h
  split at h
  · dsimp only at h
    split at h
    · rename_i hlong
      rw [Bool.and_eq_true, beq_iff_eq, decide_eq_true_eq] at hlong
      rw [List.mem_singleton.1 h]
      exact .templateLength hlong.1 hlong.2
    · cases h
  · cases h

theorem reports_of_mem_spacingFindings (h : f ∈ Spacing.findings e) :
    Reports .spaceInsideBraces e f := by
  unfold Spacing.findings at h
  split at h
  · obtain ⟨g, hg, rfl⟩ := List.mem_map.1 h
    exact .spaceInsideBraces hg
  · cases h

theorem reports_of_mem_filterFindings {ignored : List String} (h : f ∈ filterFindings ignored e) :
    Reports (.unknownFilter ignored) e f := by
  unfold filterFindings at h
  split at h
  · split at h
    · rename_i htype
      obtain ⟨g, hg, rfl⟩ := List.mem_map.1 h
      obtain ⟨hg, hunknown⟩ := List.mem_filter.1 hg
      rw [Bool.and_eq_true, Bool.not_eq_true', Bool.not_eq_true'] at hunknown
      refine .unknownFilter (List.contains_iff_mem.1 htype) hg hunknown.1 fun hmem => ?_
      rw [List.contains_iff_mem.2 hmem] at hunknown
      cases hunknown.2
    · cases h
  · cases h

theorem reports_of_mem_missing {known : List String} (h : f ∈ References.missing known e) :
    Reports (.missingTemplate known) e f := by
  unfold References.missing at h
  split at h
  · split at h
    · rename_i htarget
      split at h
      · cases h
      · rename_i hknown
        rw [List.mem_singleton.1 h]
        exact .missingTemplate htarget fun hmem => hknown (List.contains_iff_mem.2 hmem)
    · cases h
  · cases h

theorem reports_of_mem_unused {uses : References.Uses} (h : f ∈ References.unused uses e) :
    Reports (.unusedSnippet uses) e f := by
  unfold References.unused at h
  split at h
  · split at h
    · cases h
    · rename_i hany
      obtain ⟨t, ht, rfl⟩ := List.mem_map.1 h
      obtain ⟨ht, hunused⟩ := List.mem_filter.1 ht
      rw [Bool.and_eq_true, Bool.not_eq_true'] at hunused
      refine .unusedSnippet (Bool.eq_false_iff.2 hany) ht hunused.1 fun hmem => ?_
      rw [List.contains_iff_mem.2 hmem] at hunused
      cases hunused.2
  · cases h

theorem reports_of_mem_assignFindings {l : Assignments.Ledger} (h : f ∈ Assignments.findings l e) :
    Reports (.unusedAssign l) e f := by
  unfold Assignments.findings at h
  split at h
  · split at h
    · rename_i hdocument
      obtain ⟨p, hp, rfl⟩ := List.mem_map.1 h
      exact .unusedAssign (beq_iff_eq.1 hdocument) hp
    · cases h
  · cases h

theorem reports_of_mem_outdated (h : f ∈ References.outdated e) :
    Reports .convertIncludeToRender e f := by
  unfold References.outdated at h
  split at h
  · split at h
    · rename_i hinclude
      rw [List.mem_singleton.1 h]
      exact .convertIncludeToRender (beq_iff_eq.1 hinclude)
    · cases h
  · cases h

theorem reports_of_mem_jsonFindings (h : f ∈ jsonFindings e) : Reports .validJson e f := by
  unfold jsonFindings at h
  split at h
  · split at h
    · rename_i hcontent
      rw [List.mem_singleton.1 h]
      exact .validJson hcontent
    · cases h
  · cases h

theorem reports_of_mem_patternFindings {p : PatternCheck} (h : f ∈ p.findings e) :
    Reports (.pattern p) e f := by
  unfold PatternCheck.findings at h
  split at h
  · obtain ⟨span, hspan, rfl⟩ := List.mem_map.1 h
    exact .pattern hspan
  · cases h

/-! ### All rules -/

theorem reports_of_mem_findings (h : f ∈ c.findings e) : Reports c e f := by
  cases c with
  | syntaxError => exact reports_of_mem_syntaxFindings h
  | templateLength maxLength => exact reports_of_mem_lengthFindings h
  | spaceInsideBraces => exact reports_of_mem_spacingFindings h
  | unknownFilter ignored => exact reports_of_mem_filterFindings h
  | missingTemplate known => exact reports_of_mem_missing h
  | unusedSnippet uses => exact reports_of_mem_unused h
  | unusedAssign l => exact reports_of_mem_assignFindings h
  | convertIncludeToRender => exact reports_of_mem_outdated h
  | validJson => exact reports_of_mem_jsonFindings h
  | matchingTranslations =>
    cases e with
    | onEnd theme => exact .matchingTranslations h
    | _ => cases h
  | pattern p => exact reports_of_mem_patternFindings h
  | scripted s => exact .scripted h

theorem Reports.mem_findings (h : Reports c e f) : f ∈ c.findings e := by
  -- what a reason asks for is what the rule tests
  cases h with
  | syntaxError => exact List.mem_singleton.2 rfl
  | templateLength hdocument hlong =>
    simp [findings, lengthFindings, hdocument, hlong, Event.findingAtLine, Event.findingAt,
      Event.file?]
  | spaceInsideBraces hg => exact List.mem_map.2 ⟨_, hg, rfl⟩
  | unknownFilter htype hg hunknown hignored =>
    simp only [findings, filterFindings]
    rw [if_pos (List.contains_iff_mem.2 htype)]
    refine List.mem_map.2 ⟨_, List.mem_filter.2 ⟨hg, ?_⟩, rfl⟩
    simp [hunknown, hignored]
  | missingTemplate htarget hknown =>
    simp [findings, References.missing, htarget, hknown, Event.finding, Event.findingAt,
      Event.file?, Event.span]
  | unusedSnippet hany ht hsnippet hunused =>
    simp only [findings, References.unused]
    rw [if_neg (by simp [hany])]
    refine List.mem_map.2 ⟨_, List.mem_filter.2 ⟨ht, ?_⟩, rfl⟩
    simp [hsnippet, hunused]
  | unusedAssign hdocument hp =>
    simp only [findings, Assignments.findings]
    rw [if_pos (beq_iff_eq.2 hdocument)]
    exact List.mem_map.2 ⟨_, hp, rfl⟩
  | convertIncludeToRender hinclude =>
    simp only [findings, References.outdated]
    rw [if_pos (beq_iff_eq.2 hinclude)]
    exact List.mem_singleton.2 rfl
  | validJson hcontent =>
    simp [findings, jsonFindings, hcontent, Event.findingAtLine, Event.findingAt, Event.file?]
  | matchingTranslations h => exact h
  | pattern hspan => exact List.mem_map.2 ⟨_, hspan, rfl⟩
  | scripted h => exact h

/-- **What a check reports** is what it has a reason for. -/
theorem mem_findings_iff : f ∈ c.findings e ↔ Reports c e f :=
  ⟨reports_of_mem_findings, Reports.mem_findings⟩

/-! ### Runs -/

theorem findings_run_cons (c : Check) (e : Event) (es : List Event) :
    (c.run (e :: es)).2 = c.findings e ++ ((c.next e).run es).2 := rfl

/-- What a check has reported after some events, it has reported at one of them. -/
theorem exists_of_mem_run {P : Check → Prop} (hnext : ∀ c e, P c → P (c.next e)) (hc : P c)
    (hf : f ∈ (c.run es).2) : ∃ d, P d ∧ ∃ e ∈ es, Reports d e f := by
  induction es generalizing c with
  | nil => cases hf
  | cons e es ih =>
    rw [findings_run_cons, List.mem_append] at hf
    rcases hf with hf | hf
    · exact ⟨c, hc, e, List.mem_cons_self .., mem_findings_iff.1 hf⟩
    · obtain ⟨d, hd, e', he', hf⟩ := ih (hnext c e hc) hf
      exact ⟨d, hd, e', List.mem_cons_of_mem _ he', hf⟩

end Check

end LiquidLint
