import LiquidLint.Proofs.Analyzer.Reordered
import LiquidLint.Proofs.Analyzer.Selection
import LiquidLint.Proofs.Analyzer.Valid
import LiquidLint.Proofs.Liquid.Grammar
import LiquidLint.Proofs.Text.Line

/-!
# Templates that do not parse

A template that does not parse is reported once, at the line where the parser stopped, and no comment
turns this off (`Analyzer.filter_syntaxError`). Nothing else is shown of it but that it is over, so the
other checks have nothing to report about it (`Check.SeesTrees.readable_of_mem_run`), with one
exception: whether a snippet is used is found out from the other templates. The events of the theme go
on as if nothing had happened (`Theme.filterMap_ended?`, `Theme.filterMap_json?`).
-/

namespace LiquidLint

open Liquid (Node)

/-! ### The line of a parse error -/

/-- The line of a parse error is one of the lines of the source. -/
theorem Liquid.line_of_parse_error {source : Text} {e : ParseError} (h : parse source = .error e) :
    1 ≤ e.line ∧ e.line ≤ 1 + source.newlines := by
  obtain ⟨p, q, rfl, hline⟩ := (blames_of_parse h).exists_brace
  rw [hline, Text.newlines_append]
  omega

/-- What is reported about a template that does not parse: the error, at the whole of its line. -/
def Template.syntaxOffense? (severity : Severity) (t : Template) : Option Offense :=
  match t.root with
  | .ok _ => none
  | .error e =>
    let line := t.source.lineSpan e.line
    some ⟨"SyntaxError", severity, ⟨t.relativePath, e.line, 1, line.start, line.stop⟩, e.message, none⟩

/-- The check for syntax errors reports the error of the template, if there is one. -/
theorem Check.map_run_syntaxError {i : Instance} (hname : i.name = "SyntaxError") (t : Template) :
    (Check.syntaxError.run t.events).2.map i.offense = (t.syntaxOffense? i.severity).toList := by
  rw [run_eq_flatMap fun _ => rfl, Template.events, Template.eventsOf, Template.syntaxOffense?]
  -- a template that parses has node events and its end, and nothing is reported at any of them
  cases hroot : t.root with
  | ok root =>
    show ((root.hooks.map _ ++ [Event.afterTemplate t]).flatMap syntaxFindings).map i.offense = []
    refine List.map_eq_nil_iff.2 (List.flatMap_eq_nil_iff.2 fun e he => ?_)
    rcases List.mem_append.1 he with he | he
    · obtain ⟨p, -, rfl⟩ := List.mem_map.1 he
      rfl
    · rw [List.mem_singleton.1 he]
      rfl
  | error e =>
    -- the parser stops at a line of the source, so the offense is at the start of that line
    obtain ⟨h1, hn⟩ := Liquid.line_of_parse_error hroot
    have hlocate : t.toSourceFile.locate (t.source.lineSpan e.line) =
        ⟨t.relativePath, e.line, 1, (t.source.lineSpan e.line).start,
          (t.source.lineSpan e.line).stop⟩ := by
      rw [SourceFile.locate, Text.position_lineSpan h1 hn]
    show [i.offense ⟨t.toSourceFile.locate (t.source.lineSpan e.line), e.message, none⟩] = _
    rw [hlocate, Instance.offense, hname]
    rfl

/-! ### Files that can be read -/

/-- A file of the theme that checks can look into: a template that parses, or a JSON file. -/
inductive Theme.Readable (theme : Theme) : SourceFile → Prop
  | template {t : Template} {root : Node} (ht : t ∈ theme.templates) (hroot : t.root = .ok root) :
      Readable theme t.toSourceFile
  | json {j : JsonFile} (hj : j ∈ theme.jsonFiles) : Readable theme j.toSourceFile

/-- Nodes are shown of templates that parse. -/
theorem Theme.readable_of_node {theme : Theme} {hook : NodeHook} {n : Node} {t : Template}
    (he : .node hook n t ∈ theme.events) : theme.Readable t.toSourceFile := by
  rw [Theme.events_eq] at he
  rcases List.mem_cons.1 he with he | he
  · cases he
  rcases List.mem_append.1 he with he | he
  · rcases List.mem_append.1 he with he | he
    · obtain ⟨s, hs, he⟩ := List.mem_flatMap.1 he
      obtain rfl : t = s := Option.some.inj (Template.template?_of_mem_events he)
      cases hroot : t.root with
      | ok root => exact .template hs hroot
      | error e =>
        rw [Template.events_of_error hroot] at he
        simp at he
    · obtain ⟨j, -, he⟩ := List.mem_map.1 he
      cases he
  · cases List.mem_singleton.1 he

/-- JSON files that are shown are those of the theme. -/
theorem Theme.readable_of_json {theme : Theme} {j : JsonFile} (he : .onJson j ∈ theme.events) :
    theme.Readable j.toSourceFile := by
  cases Theme.of_mem_events he with
  | onJson hj => exact .json hj

namespace Check

variable {c : Check} {e : Event} {es : List Event} {f : Finding} {theme : Theme}

/-- A built-in or declared check that is neither about syntax errors nor about unused snippets: it
reports about nodes and JSON files. -/
def SeesTrees : Check → Prop
  | .syntaxError => False
  | .unusedSnippet _ => False
  | .scripted _ => False
  | _ => True

theorem SeesTrees.next (h : c.SeesTrees) (e : Event) : (c.next e).SeesTrees := by
  cases c with
  | missingTemplate known => cases e <;> trivial
  | syntaxError => cases h
  | unusedSnippet uses => cases h
  | scripted s => cases h
  | _ => trivial

/-- **What is reported at an event** lies in a file that can be read. -/
theorem SeesTrees.readable_of_reports (h : c.SeesTrees) (he : e ∈ theme.events)
    (hf : Reports c e f) : ∃ file, theme.Readable file ∧ f.location.path = file.relativePath := by
  cases hf with
  | syntaxError => cases h
  | unusedSnippet => cases h
  | scripted => cases h
  | validJson => exact ⟨_, Theme.readable_of_json he, rfl⟩
  | matchingTranslations hf =>
    obtain ⟨j, hj, message, rfl⟩ := Translations.exists_of_mem_ofTheme hf
    cases Theme.of_mem_events he
    exact ⟨_, .json hj, rfl⟩
  | _ => exact ⟨_, Theme.readable_of_node he, rfl⟩

/-- **What is reported about a theme** lies in a file that can be read. -/
theorem SeesTrees.readable_of_mem_run (h : c.SeesTrees) (hf : f ∈ (c.run theme.events).2) :
    ∃ file, theme.Readable file ∧ f.location.path = file.relativePath := by
  obtain ⟨d, hd, e, he, hf⟩ := exists_of_mem_run (P := SeesTrees) (fun _ e h => h.next e) h hf
  exact hd.readable_of_reports he hf

end Check

/-! ### The events go on -/

/-- The template that an event ends. -/
def Event.ended? : Event → Option Template
  | .afterTemplate t => some t
  | _ => none

/-- The JSON file that an event shows. -/
def Event.json? : Event → Option JsonFile
  | .onJson j => some j
  | _ => none

theorem Template.filterMap_ended? (t : Template) : t.events.filterMap Event.ended? = [t] := by
  have hvisit : t.visit.filterMap Event.ended? = [] := by
    refine List.filterMap_eq_nil_iff.2 fun e he => ?_
    unfold Template.visit Template.visitOf at he
    split at he
    · obtain ⟨p, -, rfl⟩ := List.mem_map.1 he
      rfl
    · rw [List.mem_singleton.1 he]
      rfl
  show (t.visit ++ [Event.afterTemplate t]).filterMap Event.ended? = _
  rw [List.filterMap_append, hvisit]
  rfl

/-- Every template is ended, whether it parses or not. -/
theorem Theme.filterMap_ended? (theme : Theme) :
    theme.events.filterMap Event.ended? = theme.templates := by
  have hjson : (theme.jsonFiles.map Event.onJson).filterMap Event.ended? = [] := by
    rw [List.filterMap_map]
    exact List.filterMap_eq_nil_iff.2 fun j _ => rfl
  have htemplates : (theme.templates.flatMap Template.events).filterMap Event.ended? =
      theme.templates := by
    rw [List.filterMap_flatMap]
    simp only [Template.filterMap_ended?]
    exact List.flatMap_singleton' _
  rw [Theme.events_eq]
  show (theme.templates.flatMap Template.events ++ theme.jsonFiles.map Event.onJson ++
    [Event.onEnd theme]).filterMap Event.ended? = _
  rw [List.filterMap_append, List.filterMap_append, hjson, htemplates, List.append_nil]
  exact List.append_nil _

/-- Every JSON file is shown. -/
theorem Theme.filterMap_json? (theme : Theme) :
    theme.events.filterMap Event.json? = theme.jsonFiles := by
  have htemplates : (theme.templates.flatMap Template.events).filterMap Event.json? = [] := by
    refine List.filterMap_eq_nil_iff.2 fun e he => ?_
    obtain ⟨t, -, he⟩ := List.mem_flatMap.1 he
    have ht := Template.template?_of_mem_events he
    cases e <;> first | rfl | cases ht
  rw [Theme.events_eq]
  show (theme.templates.flatMap Template.events ++ theme.jsonFiles.map Event.onJson ++
    [Event.onEnd theme]).filterMap Event.json? = _
  rw [List.filterMap_append, List.filterMap_append, htemplates, List.nil_append, List.filterMap_map]
  show theme.jsonFiles.filterMap (fun j => some j) ++ [] = _
  rw [List.filterMap_some, List.append_nil]

/-! ### Analyses -/

namespace Analyzer

variable {a : Analyzer} {i : Instance}

/-- **Broken templates are reported**, in the order of offenses and whatever the comments say. -/
theorem filter_syntaxError (hfresh : a.Fresh)
    (hi : a.instances.filter (·.name == "SyntaxError") = [i]) (hcheck : i.check = .syntaxError) :
    a.analyze.offenses.filter (·.check == "SyntaxError") =
      (a.theme.templates.filterMap (·.syntaxOffense? i.severity)).mergeSort Offense.le := by
  -- the check reports the same when it is the only one
  have halone : (analyze { a with instances := [i] }).offenses =
      a.analyze.offenses.filter (·.check == "SyntaxError") :=
    offenses_of_filter (p := (· == "SyntaxError")) hfresh hfresh rfl hi.symm
  have hname : i.name = "SyntaxError" := by
    have hmem : i ∈ a.instances.filter (·.name == "SyntaxError") := by
      rw [hi]
      exact List.mem_singleton_self i
    simpa using (List.mem_filter.1 hmem).2
  have hfound : found { a with instances := [i] } a.theme.events =
      a.theme.templates.filterMap (·.syntaxOffense? i.severity) := by
    show (i.check.run a.theme.events).2.map i.offense ++ [] = _
    rw [List.append_nil, hcheck, Check.IsLocal.run_theme (c := .syntaxError) trivial, List.map_flatMap,
      List.filterMap_eq_flatMap_toList]
    exact List.flatMap_congr fun t _ => Check.map_run_syntaxError hname t
  -- comments cannot turn it off
  have hon : ∀ o ∈ found { a with instances := [i] } a.theme.events,
      (!isDisabled { a with instances := [i] } (disabledRanges a.theme) o) = true := by
    intro o ho
    have hinstance : instance? { a with instances := [i] } o.check = some i := by
      obtain ⟨j, hj, ho⟩ := List.mem_flatMap.1 ho
      obtain ⟨f, -, rfl⟩ := List.mem_map.1 ho
      obtain rfl := List.mem_singleton.1 hj
      exact List.find?_cons_of_pos (beq_self_eq_true _)
    unfold isDisabled
    split
    · rfl
    · rw [hinstance]
      simp [hcheck, Check.canDisable]
  rw [← halone, offenses_analyze (a := { a with instances := [i] }) hfresh, reported_eq]
  show List.mergeSort ((found { a with instances := [i] } a.theme.events).filter _) _ = _
  rw [List.filter_eq_self.2 hon, hfound]

/-- **Broken templates are always reported, once, and the run goes on.** Let the check for syntax
errors be in use, and no other one have its name. Then its offenses in a report are those of the
templates that do not parse, one for each: the message of the parser at the whole line of the error.
Any other built-in or declared check reports in files that can be read, but for the check for unused
snippets, and whatever stands in the report comes from one of the checks. All checks are shown all
events of the theme: the end of each template, each JSON file, and last the end of the theme. The
analyzer may be new or have been called before, as calls leave no stale cell. -/
theorem analyze_broken (hfresh : a.Fresh)
    (hi : a.instances.filter (·.name == "SyntaxError") = [i]) (hcheck : i.check = .syntaxError) :
    (a.analyze.offenses.filter (·.check == "SyntaxError")).Perm
      (a.theme.templates.filterMap (·.syntaxOffense? i.severity)) ∧
    (∀ j ∈ a.instances, j.check.SeesTrees → ∀ o ∈ (j.run a.theme.events).offenses,
      ∃ file, a.theme.Readable file ∧ o.location.path = file.relativePath) ∧
    (∀ o ∈ a.analyze.offenses, ∃ j ∈ a.instances, o ∈ (j.run a.theme.events).offenses) ∧
    a.analyze.instances =
      a.theme.events.foldl (fun is e => is.map fun i => i.see e) (a.instances.map .cleared) ∧
    a.theme.events.filterMap Event.ended? = a.theme.templates ∧
    a.theme.events.filterMap Event.json? = a.theme.jsonFiles ∧
    a.theme.events.getLast? = some (.onEnd a.theme) := by
  refine ⟨?_, fun j _ hsees o ho => ?_, fun o ho => ?_, ?_, a.theme.filterMap_ended?,
    a.theme.filterMap_json?, ?_⟩
  · -- the analysis sorts what the one instance reports, which leaves a permutation
    rw [filter_syntaxError hfresh hi hcheck]
    exact List.mergeSort_perm _ _
  · obtain ⟨f, hf, rfl⟩ := List.mem_map.1 ho
    exact hsees.readable_of_mem_run hf
  · obtain ⟨⟨j, hj, f, hf, rfl⟩, -⟩ := (mem_offenses_analyze hfresh).1 ho
    exact ⟨j, hj, List.mem_map.2 ⟨f, hf, rfl⟩⟩
  · -- the instances have seen the whole trace, so the hooks at the end have run
    rw [instances_analyze hfresh, Instance.foldl_see]
  · show (Event.onTheme a.theme :: (_ ++ [Event.onEnd a.theme])).getLast? = _
    rw [← List.cons_append, List.getLast?_concat]

/-- A comment that turns all checks off, a broken template behind it, and a broken snippet that nothing
refers to, which is reported for that as well. -/
theorem analyze_broken_snippet :
    let comment := "\x7b% comment %\x7dtheme-check-disable\x7b% endcomment %\x7d\n"
    let theme : Theme := ⟨⟨"."⟩,
      [⟨⟨⟨"a.liquid"⟩, (comment ++ "\x7b\x7b x").toList⟩, ⟨"a.liquid"⟩⟩,
        ⟨⟨⟨"b.liquid"⟩, (comment ++ "\x7b\x7bx\x7d\x7d").toList⟩, ⟨"b.liquid"⟩⟩,
        ⟨⟨⟨"snippets/c.liquid"⟩, "é\n\x7b% if x %\x7d é".toList⟩, ⟨"snippets/c.liquid"⟩⟩], []⟩
    let a := new theme [.spaceInsideBraces, .syntaxError, .unusedSnippet .none] (fun _ => none) false
    (a.analyze.offenses.filter (·.check == "SyntaxError")).Perm
      [⟨"SyntaxError", .error, ⟨⟨"a.liquid"⟩, 2, 1, 49, 53⟩,
          "Variable '\x7b\x7b' was not properly terminated with regexp: /\\\x7d\\\x7d/", none⟩,
        ⟨"SyntaxError", .error, ⟨⟨"snippets/c.liquid"⟩, 2, 1, 3, 16⟩,
          "'if' tag was never closed", none⟩] ∧
    (∀ j ∈ a.instances, j.check.SeesTrees → ∀ o ∈ (j.run theme.events).offenses,
      ∃ file, theme.Readable file ∧ o.location.path = file.relativePath) ∧
    (a.analyze.instances.map fun j => j.offenses.map (·.location.path.text)) =
      [["b.liquid", "b.liquid"], ["a.liquid", "snippets/c.liquid"], ["snippets/c.liquid"]] := by
  intro comment theme a
  have hbroken := analyze_broken (a := a) (i := .ofCheck .syntaxError) (fresh_new ..) rfl rfl
  -- the two broken templates are reported in spite of their directives
  refine ⟨hbroken.1.trans (.of_eq ?_), hbroken.2.1, ?_⟩
  · decide +kernel
  · rw [instances_analyze (a := a) (fresh_new ..)]
    decide +kernel

end Analyzer

end LiquidLint
