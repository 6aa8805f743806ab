import LiquidLint.Proofs.Analyzer.Reports
import LiquidLint.Proofs.Liquid.Lookup
import LiquidLint.Proofs.Liquid.Tiling
import LiquidLint.Proofs.Text.Within

/-!
# Findings point into their file

A finding is valid for a file when its location is that of a span within the source of the file, and
the edit it carries takes away a span within it (`Finding.Valid`). What the nodes of a tree say about
offsets is carried to the findings of each check: filters and keywords stand in the markup of a node,
edits of white space stand between its delimiters, and matches lie in the part that is searched, as
far as the search for the pattern stays within its text (`Check.SearchesWithin`). The
check for unused assignments reports spans that it has remembered. They are those of nodes of the same
template, because it starts a new ledger at each document.
-/

namespace LiquidLint

open Liquid (Node)

/-! ### Words in markup -/

theorem Text.size_toList (s : String) : Text.size s.toList = s.utf8ByteSize := by
  have hsize : ∀ l : List Char, Text.size l = (String.ofList l).utf8ByteSize := by
    intro l
    induction l with
    | nil => rfl
    | cons c l ih =>
      rw [Text.size_cons, ih]
      simp
  rw [hsize, String.ofList_toList]

namespace Liquid

/-- **Filters stand in the markup** where they are said to. -/
theorem stands_of_mem_filters {m : Text} {f : Found} (h : f ∈ filters m) :
    Text.Stands m f.offset f.name.toList := by
  obtain ⟨pre, _, rfl, -, width, ⟨gap, post, rfl, -, rfl⟩, hoffset⟩ := mem_filters.1 h
  refine ⟨pre ++ '|' :: gap, post, by simp, ?_⟩
  rw [hoffset, Text.size_append, Text.size_cons]
  rfl

end Liquid

/-! ### Nodes -/

theorem Template.within_of_mem_descendants {t : Template} {root n : Node} (hroot : t.root = .ok root)
    (hn : n ∈ root.descendants) : n.span.Within t.source ∧ n.markupSpan.Within t.source := by
  obtain ⟨b, hfits, hcuts, rfl⟩ := Liquid.exists_body_of_parse hroot
  have hspell : b.spell = t.source := Liquid.Body.spell_of_cuts hcuts
  rcases List.mem_cons.1 hn with rfl | hn
  · have hfull := Span.within_full t.source
    rw [← hspell] at hfull ⊢
    exact ⟨hfull, hfull⟩
  · have hsource : t.source = [] ++ (b.spell ++ []) := by simp [hspell]
    have hbounded := (Liquid.placed_layout hfits hcuts.whole [] [] hsource rfl n hn).2
    have hle := hbounded.le_stop
    have hstop := hbounded.stop_le
    have hstart := hbounded.start_le
    have hmarkup := hbounded.markup_le
    exact ⟨⟨by omega, hstop, hbounded.start, hbounded.stop⟩,
      ⟨hmarkup, by omega, hbounded.markup_start, hbounded.markup_stop⟩⟩

/-- The edits of white space stand in the markup that they mend. -/
theorem Spacing.within_of_mem_faults {n : Node} {source : Text} (hn : n.markupSpan.Within source)
    {g : Fault} (hg : g ∈ faults n source) : g.span.Within source := by
  -- an edit of some markup takes a part of it away
  have hamend : ∀ {m p q g : Text} {offset : Nat}, Text.Stands source offset m →
      m = p ++ (g ++ q) → (amend (offset + p.size) g).range.Within source := by
    intro m p q g offset hm heq
    rw [range_amend]
    subst heq
    exact Span.within_of_stands hm.right.left
  have hown := hn.stands.1
  rw [Edit.span_faults g hg]
  unfold faults at hg
  split at hg
  · rcases List.mem_append.1 hg with hg | hg
    · obtain ⟨p, h, q, hm, -, hc⟩ := (mem_checks_iff n.isTag).1 (List.mem_map_of_mem hg)
      rw [hc]
      exact hamend hown hm
    · split at hg
      · split at hg
        · rename_i markup hmarkup
          have hend : markup.Within source := by
            unfold endMarkup? at hmarkup
            simp only [Option.bind_eq_bind, Option.bind_eq_some_iff] at hmarkup
            obtain ⟨body, -, before, -, inner, hinner, hchosen⟩ := hmarkup
            split at hchosen
            · obtain rfl := Option.some.inj hchosen
              exact (Span.within_of_slice? hinner).2
            · cases hchosen
          obtain ⟨p, h, q, hm, -, hc⟩ := mem_checkDelimiters_iff.1 (List.mem_map_of_mem hg)
          rw [hc]
          exact hamend hend.stands.1 hm
        · cases hg
      · cases hg
  · cases hg

/-- The keyword of an `include` tag stands in its markup. -/
theorem References.within_of_includeKeyword? {n : Node} {source : Text} {span : Span}
    (hn : n.markupSpan.Within source) (h : includeKeyword? n source = some span) :
    span.Within source := by
  unfold includeKeyword? at h
  dsimp only at h
  split at h
  · rename_i hkeyword
    obtain rfl := Option.some.inj h
    obtain ⟨rest, hrest⟩ := Option.isSome_iff_exists.1 hkeyword
    have hmarkup := hn.stands.1
    rw [← List.takeWhile_append_dropWhile (p := fun c => c == '-' || isBlank c)
      (l := source.slice n.markupSpan), Text.dropStart?_eq_some_iff.1 hrest] at hmarkup
    exact Span.within_of_stands hmarkup.right.left
  · cases h

/-! ### Valid findings -/

/-- The finding points into the file, and so does its edit. -/
structure Finding.Valid (f : Finding) (file : SourceFile) : Prop where
  location : ∃ span : Span, span.Within file.source ∧ f.location = file.locate span
  correction : ∀ c, f.correction = some c → c.range.Within file.source

theorem SourceFile.valid_finding {file : SourceFile} {span : Span} {correction : Option Correction}
    (hspan : span.Within file.source)
    (hc : ∀ c, correction = some c → c.range.Within file.source) (message : String) :
    (file.finding span message correction).Valid file :=
  ⟨⟨span, hspan, rfl⟩, hc⟩

/-- A finding without an edit is valid when its span is. -/
theorem SourceFile.valid_finding_none {file : SourceFile} {span : Span}
    (hspan : span.Within file.source) (message : String) :
    (file.finding span message none).Valid file :=
  valid_finding hspan (fun _ h => absurd h (by simp)) message

/-- The files of a theme. -/
def Theme.files (theme : Theme) : List SourceFile :=
  theme.templates.map (·.toSourceFile) ++ theme.jsonFiles.map (·.toSourceFile)

theorem Theme.mem_files_of_template {theme : Theme} {t : Template} (h : t ∈ theme.templates) :
    t.toSourceFile ∈ theme.files :=
  List.mem_append_left _ (List.mem_map.2 ⟨t, h, rfl⟩)

theorem Theme.mem_files_of_json {theme : Theme} {j : JsonFile} (h : j ∈ theme.jsonFiles) :
    j.toSourceFile ∈ theme.files :=
  List.mem_append_right _ (List.mem_map.2 ⟨j, h, rfl⟩)

/-- An event of a theme: it is about a file of the theme, and its node lies within that file. -/
inductive Event.Of (theme : Theme) : Event → Prop
  | onTheme : Of theme (.onTheme theme)
  | node {hook : NodeHook} {n : Node} {t : Template} (ht : t ∈ theme.templates)
      (hspan : n.span.Within t.source) (hmarkup : n.markupSpan.Within t.source) :
      Of theme (.node hook n t)
  | onError {error : Liquid.ParseError} {t : Template} (ht : t ∈ theme.templates) :
      Of theme (.onError error t)
  | afterTemplate {t : Template} (ht : t ∈ theme.templates) : Of theme (.afterTemplate t)
  | onJson {j : JsonFile} (hj : j ∈ theme.jsonFiles) : Of theme (.onJson j)
  | onEnd : Of theme (.onEnd theme)

variable {theme : Theme} {e : Event} {f : Finding}

/-- **What is shown of a theme** is about its files. -/
theorem Theme.of_mem_events (he : e ∈ theme.events) : e.Of theme := by
  rw [Theme.events_eq] at he
  rcases List.mem_cons.1 he with rfl | he
  · exact .onTheme
  rcases List.mem_append.1 he with he | he
  · rcases List.mem_append.1 he with he | he
    · obtain ⟨t, ht, he⟩ := List.mem_flatMap.1 he
      unfold Template.events Template.eventsOf Template.visitOf at he
      rcases List.mem_append.1 he with he | he
      · split at he
        · rename_i root hroot
          obtain ⟨⟨hook, n⟩, hn, rfl⟩ := List.mem_map.1 he
          have hwithin :=
            t.within_of_mem_descendants hroot ((Edit.mem_hooks_iff hook n root).1 hn).1
          exact .node ht hwithin.1 hwithin.2
        · rw [List.mem_singleton.1 he]
          exact .onError ht
      · rw [List.mem_singleton.1 he]
        exact .afterTemplate ht
    · obtain ⟨j, hj, rfl⟩ := List.mem_map.1 he
      exact .onJson hj
  · rw [List.mem_singleton.1 he]
    exact .onEnd

namespace Check

variable {c : Check}

/-! ### Check by check -/

/-- A check that reports about nothing but what it is shown at the time. -/
def IsPrompt : Check → Prop
  | .unusedAssign _ => False
  | .scripted _ => False
  | _ => True

theorem IsPrompt.next (h : c.IsPrompt) (e : Event) : (c.next e).IsPrompt := by
  cases c with
  | missingTemplate known => cases e <;> trivial
  | unusedAssign l => cases h
  | scripted s => cases h
  | _ => trivial

/-- A declared check has a search that stays within the text it is given. Nothing else is asked of the
engine that its pattern was compiled by. -/
def SearchesWithin : Check → Prop
  | .pattern p => ∀ text, ∀ s ∈ p.search text, s.Within text
  | _ => True

theorem SearchesWithin.next (h : c.SearchesWithin) (e : Event) : (c.next e).SearchesWithin := by
  cases c with
  | pattern p => cases e <;> exact h
  | missingTemplate known => cases e <;> trivial
  | scripted s => cases e <;> trivial
  | _ => trivial

/-- Unknown filters are reported where they stand. -/
theorem within_of_mem_filters {n : Node} {source : Text} (hn : n.markupSpan.Within source)
    {g : Liquid.Found} (hg : g ∈ Liquid.filters (source.slice n.markupSpan)) :
    Span.Within ⟨n.markupSpan.start + g.offset,
      n.markupSpan.start + g.offset + g.name.utf8ByteSize⟩ source := by
  have hstands := Span.stands_of_stands hn.stands.1 (Liquid.stands_of_mem_filters hg)
  have hwithin := Span.within_of_stands hstands
  rwa [Text.size_toList] at hwithin

/-- Matches are reported where they lie in the part of a node that is searched. -/
theorem SearchesWithin.of_mem_matchSpans {p : PatternCheck} (hp : (Check.pattern p).SearchesWithin)
    {n : Node} {source : Text} {span : Span} (h : span ∈ p.matchSpans n source) :
    span.Within source := by
  unfold PatternCheck.matchSpans at h
  split at h
  · split at h
    · rename_i text hslice
      obtain ⟨s, hs, rfl⟩ := List.mem_map.1 h
      exact (hp text s hs).shift (Span.within_of_slice? hslice).1
    · cases h
  · cases h

/-- **What is reported about an event of a theme** is valid for a file of the theme. -/
theorem IsPrompt.valid_of_reports (h : c.IsPrompt) (hc : c.SearchesWithin) (he : e.Of theme)
    (hf : Reports c e f) : ∃ file ∈ theme.files, f.Valid file := by
  -- the places of the findings are those of nodes, lines and markup, or the start of a file
  cases hf with
  | syntaxError =>
    cases he with
    | onError ht =>
      exact ⟨_, Theme.mem_files_of_template ht,
        SourceFile.valid_finding_none (Span.within_lineSpan ..) _⟩
  | templateLength =>
    cases he with
    | node ht hspan hmarkup =>
      exact ⟨_, Theme.mem_files_of_template ht,
        SourceFile.valid_finding_none (Span.within_lineSpan ..) _⟩
  | spaceInsideBraces hg =>
    cases he with
    | node ht hspan hmarkup =>
      have hwithin := Spacing.within_of_mem_faults hmarkup hg
      refine ⟨_, Theme.mem_files_of_template ht,
        SourceFile.valid_finding hwithin (fun c hc => ?_) _⟩
      rw [← Option.some.inj hc, ← Edit.span_faults _ hg]
      exact hwithin
  | unknownFilter _ hg =>
    cases he with
    | node ht hspan hmarkup =>
      exact ⟨_, Theme.mem_files_of_template ht,
        SourceFile.valid_finding_none (within_of_mem_filters hmarkup hg) _⟩
  | missingTemplate =>
    cases he with
    | node ht hspan hmarkup =>
      exact ⟨_, Theme.mem_files_of_template ht, SourceFile.valid_finding_none hspan _⟩
  | unusedSnippet _ ht =>
    cases he with
    | onEnd =>
      exact ⟨_, Theme.mem_files_of_template ht,
        SourceFile.valid_finding_none (Span.within_zero _) _⟩
  | convertIncludeToRender =>
    cases he with
    | node ht hspan hmarkup =>
      refine ⟨_, Theme.mem_files_of_template ht,
        SourceFile.valid_finding hspan (fun c hc => ?_) _⟩
      obtain ⟨span, hkeyword, rfl⟩ := Option.map_eq_some_iff.1 hc
      exact References.within_of_includeKeyword? hmarkup hkeyword
  | validJson =>
    cases he with
    | onJson hj =>
      exact ⟨_, Theme.mem_files_of_json hj,
        SourceFile.valid_finding_none (Span.within_lineSpan ..) _⟩
  | matchingTranslations hf =>
    obtain ⟨j, hj, message, rfl⟩ := Translations.exists_of_mem_ofTheme hf
    cases he with
    | onEnd =>
      exact ⟨_, Theme.mem_files_of_json hj,
        SourceFile.valid_finding_none (Span.within_zero _) _⟩
  | pattern hspan =>
    cases he with
    | node ht =>
      exact ⟨_, Theme.mem_files_of_template ht,
        SourceFile.valid_finding_none (hc.of_mem_matchSpans hspan) _⟩
  | unusedAssign => cases h
  | scripted => cases h

theorem IsPrompt.valid_of_mem_run (h : c.IsPrompt) (hc : c.SearchesWithin) {es : List Event}
    (hes : ∀ e ∈ es, e.Of theme) (hf : f ∈ (c.run es).2) :
    ∃ file ∈ theme.files, f.Valid file := by
  have hnext : ∀ c e, IsPrompt c ∧ SearchesWithin c → (c.next e).IsPrompt ∧ (c.next e).SearchesWithin :=
    fun _ e h => ⟨h.1.next e, h.2.next e⟩
  obtain ⟨d, ⟨hd, hdc⟩, e, he, hf⟩ := exists_of_mem_run hnext ⟨h, hc⟩ hf
  exact hd.valid_of_reports hdc (hes e he) hf

/-- Unused assignments are reported at nodes of the template that is being looked at. -/
theorem valid_of_mem_run_unused {l : Assignments.Ledger}
    (hf : f ∈ ((Check.unusedAssign l).run theme.events).2) :
    ∃ file ∈ theme.files, f.Valid file := by
  have hlocal : (Check.unusedAssign l).IsLocal := trivial
  rw [hlocal.run_theme] at hf
  obtain ⟨t, ht, hf⟩ := List.mem_flatMap.1 hf
  cases hroot : t.root with
  | error error =>
    -- nothing is reported about a template without a tree
    rw [Template.events_of_error hroot] at hf
    cases hf
  | ok root =>
    have hkind : root.kind = .document := Liquid.kind_of_parse hroot
    obtain ⟨n, hn, -, message, rfl⟩ := exists_of_mem_run_unused hroot hkind hf
    have hspan := (t.within_of_mem_descendants hroot hn).1
    refine ⟨t.toSourceFile, Theme.mem_files_of_template ht,
      SourceFile.valid_finding hspan (fun c hc => ?_) message⟩
    obtain rfl := Option.some.inj hc
    exact hspan

/-- **What built-in and declared checks report about a theme** points into its files. -/
theorem IsStandard.valid_of_mem_run (h : c.IsStandard) (hc : c.SearchesWithin)
    (hf : f ∈ (c.run theme.events).2) : ∃ file ∈ theme.files, f.Valid file := by
  by_cases hprompt : c.IsPrompt
  · exact hprompt.valid_of_mem_run hc (fun _ he => Theme.of_mem_events he) hf
  · cases c with
    | unusedAssign l => exact valid_of_mem_run_unused hf
    | scripted s => cases h
    | _ => exact absurd trivial hprompt

end Check

end LiquidLint
