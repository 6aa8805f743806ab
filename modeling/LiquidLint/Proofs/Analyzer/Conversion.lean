import LiquidLint.Proofs.Analyzer.Effect
import LiquidLint.Proofs.Analyzer.References
import LiquidLint.Proofs.Edit.Convert
import LiquidLint.Proofs.Text.Line

/-!
# Converting `include` tags keeps references

Each `include` tag is reported once, with an edit that replaces its name, where the parser has read
it (`References.exists_namedAt`). A correction that makes these edits makes all of them, and what
becomes of a template is the template with the names converted (`Template.exists_convert`): its tags
are those that were there, with the same markup behind their names (`Template.Converted`).

A reference is the markup behind a name, and `include` and `render` refer to the same directory. So
what is said about missing templates is the same tag by tag, and what is said about unused snippets
is the same altogether (`Analyzer.includes_converted`).
-/

namespace LiquidLint

open Correction (applyAll)
open Edit (convert newName renames)
open Liquid (Body IsLead Node nameOf trimMarkup)

/-! ### `include` tags -/

/-- The `include` tags of a theme, each with its template. -/
def Theme.includes (theme : Theme) : List (Template × Node) :=
  theme.tags.filter (·.2.typeName == "include")

/-- The `include` tags of a template. -/
def Template.includes (t : Template) : List Node := t.tags.filter (·.typeName == "include")

theorem Theme.includes_eq (theme : Theme) :
    theme.includes = theme.templates.flatMap fun t => t.includes.map (t, ·) := by
  unfold includes tags
  rw [List.filter_flatMap]
  refine List.flatMap_congr fun t _ => ?_
  rw [List.filter_map]
  rfl

/-- The nodes of the name `include` are tags. -/
theorem Template.includes_of_root {t : Template} {root : Node} (hroot : t.root = .ok root) :
    t.includes = root.descendants.filter (·.typeName == "include") := by
  have htag : ∀ n : Node, (n.typeName == "include" && n.isTag) = (n.typeName == "include") := by
    rintro ⟨kind, span, markup, children⟩
    cases kind with
    | tag name block => exact Bool.and_true _
    | _ => rfl
  unfold includes tags
  rw [hroot]
  dsimp only
  rw [List.filter_filter, List.filter_congr fun n _ => htag n]

theorem Template.includes_of_error {t : Template} {e : Liquid.ParseError} (h : t.root = .error e) :
    t.includes = [] := by
  unfold includes tags
  rw [h]
  rfl

/-- A span is where the parser has read the name of a tag: in front of the trimmed markup, behind
what is trimmed there. -/
structure Liquid.Node.NamedAt (n : Node) (source : Text) (span : Span) : Prop where
  name : nameOf (source.slice n.markupSpan) = n.typeName
  place : ∃ lead rest, IsLead lead ∧
    source.slice n.markupSpan = lead ++ (trimMarkup (source.slice n.markupSpan) ++ rest) ∧
    span = ⟨n.markupSpan.start + lead.size,
      n.markupSpan.start + lead.size + Text.size n.typeName.toList⟩
  text : source.slice span = n.typeName.toList

namespace References

/-- What is reported at an `include` tag. -/
def deprecated : String := "`include` is deprecated - convert it to `render`"

variable {t : Template} {n : Node}

/-- **The edit of an `include` tag** is for the name that the parser has read. -/
theorem exists_namedAt (hn : n ∈ t.tags) (hname : n.typeName = "include") :
    ∃ span, includeKeyword? n t.source = some span ∧ n.NamedAt t.source span := by
  obtain ⟨m, hstands, hspan, hm⟩ := Template.exists_markup hn
  have hslice : t.source.slice n.markupSpan = m := by rw [hspan, hstands.slice]
  -- the name of the tag is the first word of its markup, and nothing but a gap stands before it
  obtain ⟨lead, tail, hl, -, rfl⟩ :=
    (Liquid.nameOf_eq_word_iff Spacing.isWord_include).1 (hm.trans hname)
  have htake := Spacing.takeWhile_lead hl Spacing.isWord_include tail
  have hdrop := Spacing.dropWhile_lead hl Spacing.isWord_include tail
  have hkeyword : Text.Stands t.source (n.span.start + 2 + lead.size) "include".toList :=
    hstands.right.left
  refine ⟨⟨n.markupSpan.start + lead.size, n.markupSpan.start + lead.size + 7⟩, ?_, ?_, ?_, ?_⟩
  · -- the keyword found is that word
    unfold includeKeyword?
    simp only [hslice, htake, hdrop, Text.dropStart?_append, Option.isSome_some, if_true]
  · rw [hslice, hm]
  · obtain ⟨g, d, g', -, -, -, htail⟩ := Liquid.exists_trimTail_append tail
    refine ⟨lead, g ++ (d ++ g'), hl, ?_, ?_⟩
    · rw [hslice, Liquid.trimMarkup_lead hl Spacing.isWord_include.solid, List.append_assoc,
        ← htail]
    · rw [hname]
      rfl
  · rw [hname, hspan]
    exact hkeyword.slice

/-- **Outdated tags** of a template are reported one by one. -/
theorem run_outdated (t : Template) : (Check.convertIncludeToRender.run t.events).2 =
    t.includes.map fun n => t.toSourceFile.finding n.span deprecated
      ((includeKeyword? n t.source).map (Correction.replace · "render")) := by
  rw [Check.run_eq_flatMap (fun _ => rfl)]
  cases hroot : t.root with
  | error e =>
    rw [Template.events_of_error hroot, Template.includes_of_error hroot]
    rfl
  | ok root =>
    -- only the hook for a tag's type reports, so the node events come down to the nodes of the tree
    have hother : ∀ hook (n : Node), hook ≠ NodeHook.onType →
        Check.convertIncludeToRender.findings (.node hook n t) = [] := by
      intro hook n hne
      cases hook with
      | onType => exact absurd rfl hne
      | _ => rfl
    have hfindings : ∀ n : Node, Check.convertIncludeToRender.findings (.node .onType n t) =
        if n.typeName == "include" then [t.toSourceFile.finding n.span deprecated
          ((includeKeyword? n t.source).map (Correction.replace · "render"))] else [] :=
      fun _ => rfl
    have hafter : Check.convertIncludeToRender.findings (.afterTemplate t) = [] := rfl
    rw [Template.events_of_root hroot, List.flatMap_append, flatMap_called hother,
      Node.called_onType_hooks, List.flatMap_cons, hafter, List.flatMap_nil, List.append_nil,
      List.append_nil, List.flatMap_congr fun n _ => hfindings n, flatMap_if, List.map_eq_flatMap,
      Template.includes_of_root hroot]

end References

/-! ### Templates -/

/-- A template and what it has become: it is at the same place, it parses when the old one did, and
its tags are those of the old one with names converted. -/
structure Template.Converted (t t' : Template) : Prop where
  path : t'.path = t.path
  relativePath : t'.relativePath = t.relativePath
  parses : t'.root.isOk = t.root.isOk
  tags : List.Forall₂ (Edit.Converted t.source t'.source) t.tags t'.tags

namespace Template

variable {t : Template} {root : Node} {cs : List Correction}

/-- The corrections of the names of a template are those of its derivation. -/
theorem mem_renames_iff_correction {b : Body} {c : Correction} (hroot : t.root = .ok b.document)
    (hfits : b.Fits none) (hsource : b.spell = t.source) :
    c ∈ renames 0 b ↔
      ∃ f ∈ (Check.convertIncludeToRender.run t.events).2, f.correction = some c := by
  rw [Edit.mem_renames_iff (fun _ => false) hfits]
  constructor
  · rintro ⟨s, hs, h⟩
    obtain ⟨f, hf, hc, -⟩ := (Edit.exists_outdated_iff _ hroot hfits hsource).2 ⟨s, hs, h, rfl⟩
    exact ⟨f, hf, hc⟩
  · rintro ⟨f, hf, hc⟩
    obtain ⟨s, hs, h, -⟩ := (Edit.exists_outdated_iff _ hroot hfits hsource).1 ⟨f, hf, hc, rfl⟩
    exact ⟨s, hs, h⟩

variable (hcs : ∀ c, c ∈ cs ↔
  ∃ f ∈ (Check.convertIncludeToRender.run t.events).2, f.correction = some c)

include hcs

/-- **The edits of the names of a template** leave the template with the names converted. -/
theorem exists_convert (hroot : t.root = .ok root) :
    ∃ b : Body, root = b.document ∧ b.Fits none ∧ (convert b).Fits none ∧ t.source = b.spell ∧
      (applyAll t.source cs).text = (convert b).spell ∧
      Liquid.parse (convert b).spell = .ok (convert b).document ∧
      (applyAll t.source cs).skipped = 0 ∧
      (applyAll t.source cs).applied = t.includes.length := by
  obtain ⟨b, hfits, hcuts, rfl⟩ := Liquid.exists_body_of_parse hroot
  have hsource : b.spell = t.source := Body.spell_of_cuts hcuts
  have hsound := Body.sound_of_source hcuts
  obtain ⟨htext, hskipped, happlied⟩ := Edit.applyAll_renames hsound hfits
    fun c => (hcs c).trans (mem_renames_iff_correction hroot hfits hsource).symm
  rw [hsource] at htext hskipped happlied
  refine ⟨b, rfl, hfits, (Edit.mends_convert b).fits hfits, hsource.symm, htext,
    Edit.parse_convert hsound hfits (Body.apart_of_source hcuts), hskipped, ?_⟩
  have hdocument : ¬ (b.document.typeName == "include") = true := by
    simp [Body.document, Node.typeName]
  rw [happlied, Edit.length_renames hfits, includes_of_root hroot, Node.descendants_eq,
    List.filter_cons_of_neg (by exact hdocument), List.countP_eq_length_filter]
  rfl

/-- A template that does not parse has no edits. -/
theorem applyAll_of_error {e : Liquid.ParseError} (h : t.root = .error e) :
    applyAll t.source cs = .start t.source := by
  have hnone : cs = [] := by
    refine List.eq_nil_iff_forall_not_mem.2 fun c hc => ?_
    obtain ⟨f, hf, -⟩ := (hcs c).1 hc
    rw [References.run_outdated, includes_of_error h] at hf
    cases hf
  rw [hnone, Correction.applyAll_nil]

/-- **All edits of the names are applied.** -/
theorem counts_of_corrections : (applyAll t.source cs).skipped = 0 ∧
    (applyAll t.source cs).applied = t.includes.length := by
  cases hroot : t.root with
  | error e =>
    rw [applyAll_of_error hcs hroot, includes_of_error hroot]
    exact ⟨rfl, rfl⟩
  | ok root =>
    obtain ⟨-, -, -, -, -, -, -, hcounts⟩ := exists_convert hcs hroot
    exact hcounts

/-- **What becomes of a template.** -/
theorem converted_of_corrections :
    t.Converted (t.setSource (applyAll t.source cs).text) := by
  cases hroot : t.root with
  -- a template that does not parse gets no corrections
  | error e =>
    have hsame : t.setSource (applyAll t.source cs).text = t := by
      rw [applyAll_of_error hcs hroot]
      rfl
    have hnone : t.tags = [] := by
      unfold tags
      rw [hroot]
    rw [hsame]
    refine ⟨rfl, rfl, rfl, ?_⟩
    rw [hnone]
    exact .nil
  | ok root =>
    -- the text that is left spells the converted body, so it parses to that body's tree
    obtain ⟨b, rfl, hfits, -, hsource, htext, hparse, -⟩ := exists_convert hcs hroot
    have hroot' : (t.setSource (convert b).spell).root = .ok (convert b).document := hparse
    rw [htext]
    have hparses : (t.setSource (convert b).spell).root.isOk = t.root.isOk := by
      rw [hroot, hroot']
      rfl
    refine ⟨rfl, rfl, hparses, ?_⟩
    -- both trees are laid out side by side in their sources
    have hstands : Text.Stands t.source 0 b.spell := hsource ▸ Text.stands_self _
    have hnodes := Edit.forall₂_converted hfits hstands (Text.stands_self (convert b).spell)
    have hdocument : ∀ b : Body, b.document.descendants.filter Node.isTag =
        (Node.descendantsOf (b.layout 0)).filter Node.isTag := by
      intro b
      rw [Node.descendants_eq]
      exact List.filter_cons_of_neg (by exact Bool.false_ne_true)
    unfold tags
    rw [hroot, hroot']
    dsimp only
    rw [hdocument, hdocument]
    exact List.rel_filter (fun _ _ h => Bool.eq_iff_iff.1 h.isTag.symm) hnodes

/-- Comments say what they said before. -/
theorem directives_of_corrections {root' : Node}
    (hroot' : (t.setSource (applyAll t.source cs).text).root = .ok root') :
    ∃ root, t.root = .ok root ∧
      (DisabledRanges.directives root' (applyAll t.source cs).text).map (·.2) =
        (DisabledRanges.directives root t.source).map (·.2) := by
  cases hroot : t.root with
  | error e =>
    rw [applyAll_of_error hcs hroot] at hroot'
    have herror : t.root = .ok root' := hroot'
    rw [hroot] at herror
    cases herror
  | ok root =>
    obtain ⟨b, rfl, hfits, hfits', hsource, htext, hparse, -⟩ := exists_convert hcs hroot
    rw [htext] at hroot' ⊢
    obtain rfl : (convert b).document = root' := Except.ok.inj (hparse.symm.trans hroot')
    refine ⟨b.document, rfl, ?_⟩
    rw [hsource, Edit.directives_document hfits, Edit.directives_document hfits']
    exact Edit.directivesOf_convert b 0 0

end Template

/-! ### References -/

/-- What is the same element by element makes the same list. -/
theorem map_eq_of_forall₂ {α β γ : Type} {R : α → β → Prop} {f : α → γ} {g : β → γ} {l : List α}
    {l' : List β} (h : List.Forall₂ R l l') (heq : ∀ a b, R a b → g b = f a) :
    l'.map g = l.map f := by
  induction h with
  | nil => rfl
  | cons hab _ ih => rw [List.map_cons, List.map_cons, ih, heq _ _ hab]

theorem exists_mem_iff_of_forall₂ {α β : Type} {R : α → β → Prop} {P : α → Prop} {Q : β → Prop}
    {l : List α} {l' : List β} (h : List.Forall₂ R l l') (hiff : ∀ a b, R a b → (Q b ↔ P a)) :
    (∃ b ∈ l', Q b) ↔ ∃ a ∈ l, P a := by
  induction h with
  | nil => simp
  | cons hab _ ih => rw [List.exists_mem_cons_iff, List.exists_mem_cons_iff, hiff _ _ hab, ih]

/-- A tag of a template and the tag that it has become. -/
def TagConverted (p q : Template × Node) : Prop := Edit.Converted p.1.source q.1.source p.2 q.2

theorem Theme.tags_converted {theme theme' : Theme}
    (h : List.Forall₂ Template.Converted theme.templates theme'.templates) :
    List.Forall₂ TagConverted theme.tags theme'.tags := by
  refine List.rel_flatMap h fun t t' ht => ?_
  rw [List.forall₂_map_left_iff, List.forall₂_map_right_iff]
  exact ht.tags

theorem newName_ne (name : String) : newName name ≠ "include" := by
  unfold newName
  split
  · decide
  · assumption

/-- No `include` tag is left. -/
theorem Theme.includes_of_converted {theme theme' : Theme}
    (h : List.Forall₂ Template.Converted theme.templates theme'.templates) :
    theme'.includes = [] := by
  refine List.filter_eq_nil_iff.2 fun q hq hinclude => ?_
  have hnames : theme'.tags.map (·.2.typeName) = theme.tags.map (newName ·.2.typeName) :=
    map_eq_of_forall₂ (tags_converted h) fun _ _ hpq => hpq.typeName
  have hmem : q.2.typeName ∈ theme'.tags.map (·.2.typeName) := List.mem_map_of_mem hq
  rw [hnames, beq_iff_eq.1 hinclude] at hmem
  obtain ⟨p, -, hp⟩ := List.mem_map.1 hmem
  exact newName_ne _ hp

namespace References

variable {p q : Template × Node} {known : List String} {theme theme' : Theme}

theorem directory?_newName (name : String) : directory? (newName name) = directory? name := by
  unfold newName
  split
  · next h =>
    rw [h]
    rfl
  · rfl

theorem namesSnippet_newName (name : String) : namesSnippet (newName name) = namesSnippet name := by
  unfold newName
  split
  · next h =>
    rw [h]
    rfl
  · rfl

/-- **The argument of a tag** does not change with its name. -/
theorem argument?_of_converted (h : TagConverted p q) :
    argument? q.2 q.1.source = argument? p.2 p.1.source := by
  unfold argument?
  rw [h.markup]

/-- The messages about a tag, where `known` are the templates of the theme. -/
def missingAt (known : List String) (p : Template × Node) : List String :=
  (missing known (.node .onTag p.2 p.1)).map (·.message)

/-- What is reported at a tag when there are some messages about it. -/
def reportsAt (p : (Template × Node) × List String) : List Finding :=
  p.2.map fun message => p.1.1.toSourceFile.finding p.1.2.span message none

theorem missing_eq (known : List String) (p : Template × Node) :
    missing known (.node .onTag p.2 p.1) = reportsAt (p, missingAt known p) := by
  unfold reportsAt missingAt missing
  dsimp only
  split
  · split <;> rfl
  · rfl

theorem missingAt_of_converted (h : TagConverted p q) : missingAt known q = missingAt known p := by
  have htarget : target? q.2 q.1.source = target? p.2 p.1.source := by
    unfold target?
    rw [argument?_of_converted h, h.typeName, directory?_newName]
  unfold missingAt missing
  dsimp only
  rw [htarget]
  split
  · split <;> rfl
  · rfl

/-- Missing templates are reported by the messages about each tag. -/
theorem run_missing_zip (known : List String) (theme : Theme) :
    ((Check.missingTemplate known).run theme.events).2 =
      (theme.tags.zip (theme.tags.map (missingAt (names theme)))).flatMap reportsAt := by
  rw [run_missing, ← List.map_prod_left_eq_zip, List.flatMap_map]
  exact List.flatMap_congr fun p _ => missing_eq _ p

theorem names_of_converted
    (h : List.Forall₂ Template.Converted theme.templates theme'.templates) :
    names theme' = names theme :=
  map_eq_of_forall₂ h fun _ _ ht => congrArg Path.fileName ht.relativePath

/-- **Unused snippets** are the same. -/
theorem run_unused_of_converted
    (h : List.Forall₂ Template.Converted theme.templates theme'.templates) (u u' : Uses) :
    ((Check.unusedSnippet u').run theme'.events).2 =
      ((Check.unusedSnippet u).run theme.events).2 := by
  obtain ⟨v, hknows, hrun⟩ := exists_run_unused u theme
  obtain ⟨v', hknows', hrun'⟩ := exists_run_unused u' theme'
  have htags := Theme.tags_converted h
  have hsnippet : ∀ p q, TagConverted p q →
      namesSnippet q.2.typeName = namesSnippet p.2.typeName := by
    intro p q hpq
    rw [hpq.typeName, namesSnippet_newName]
  have hanything : v'.anything = v.anything := by
    rw [Bool.eq_iff_iff, hknows.anything, hknows'.anything]
    exact exists_mem_iff_of_forall₂ htags fun p q hpq => by
      rw [hsnippet p q hpq, argument?_of_converted hpq]
  have hcontains : ∀ name, v'.names.contains name = v.names.contains name := by
    intro name
    rw [Bool.eq_iff_iff, List.contains_iff_mem, List.contains_iff_mem, hknows.mem_names,
      hknows'.mem_names]
    exact exists_mem_iff_of_forall₂ htags fun p q hpq => by
      rw [hsnippet p q hpq, argument?_of_converted hpq]
  rw [hrun, hrun']
  unfold unused
  dsimp only
  rw [hanything]
  split
  · rfl
  · rw [List.map_eq_flatMap, List.map_eq_flatMap, ← flatMap_if, ← flatMap_if, List.flatMap,
      List.flatMap]
    refine congrArg List.flatten (map_eq_of_forall₂ h fun t t' ht => ?_)
    have hname : t'.name = t.name := congrArg Path.fileName ht.relativePath
    -- the start of a file does not depend on what is in it
    have hlocate : t'.toSourceFile.locate .zero = t.toSourceFile.locate .zero := by
      unfold SourceFile.locate
      simp only [Span.zero, Text.position, Text.positionFrom_zero, ht.relativePath]
    unfold Template.isSnippet SourceFile.finding
    rw [hcontains, hname, hlocate]

end References

/-! ### Analyses -/

namespace Analyzer

variable {theme : Theme} {t : Template} {c : Correction} {severity? : String → Option Severity}
  {autoCorrect : Bool}

/-- **A new analyzer** reports what its checks find. -/
theorem found_new {checks : List Check} {name : String} {check : Check} (hon : theme.Undisabled)
    (hcheck : checks.filter (·.name == name) = [check]) :
    ((new theme checks severity? autoCorrect).analyze.foundBy name).Perm
      (check.run theme.events).2 := by
  obtain ⟨i, hi, rfl⟩ : (new theme checks severity? autoCorrect).Has name (· = check) :=
    has_new hcheck severity? autoCorrect
  exact found_analyze (a := new theme checks severity? autoCorrect) (fresh_new ..) hon hi

/-- **The edits for a template** are those of its names, when no other check is in use. -/
theorem mem_chosen_convert (hpaths : theme.Distinct) (hon : theme.Undisabled)
    (ht : t ∈ theme.templates) :
    c ∈ chosen (new theme [.convertIncludeToRender] severity? autoCorrect).analyze.edits t ↔
      ∃ f ∈ (Check.convertIncludeToRender.run t.events).2, f.correction = some c := by
  have hbuiltins : (new theme [.convertIncludeToRender] severity? autoCorrect).OfBuiltins :=
    ofBuiltins_new severity? autoCorrect (by simp [Check.IsBuiltin])
  have hlocal : Check.convertIncludeToRender.IsLocal := trivial
  rw [mem_chosen_edits_iff]
  constructor
  · rintro ⟨o, ho, hsame, hc⟩
    rw [hbuiltins.correction?_eq ho] at hc
    obtain ⟨⟨i, hi, f, hf, rfl⟩, -⟩ := (mem_offenses_analyze hbuiltins.fresh).1 ho
    rw [List.mem_singleton.1 (of_mem_instances_new hi).1] at hf
    -- what is reported with the path of the template is reported about it
    obtain ⟨s, hs, hfs⟩ := List.mem_flatMap.1 (hlocal.run_theme theme ▸ hf)
    have hpath : f.location.path = s.relativePath := hlocal.path_of_mem_run hfs
    obtain rfl := hpaths.eq hs ht (hpath ▸ Path.same_iff.1 hsame)
    exact ⟨f, hfs, hc⟩
  · rintro ⟨f, hf, hc⟩
    obtain ⟨i, hi, hcheck⟩ : (new theme [.convertIncludeToRender] severity? autoCorrect).Has
        "ConvertIncludeToRender" (· = .convertIncludeToRender) := has_new rfl severity? autoCorrect
    have hmem := List.mem_of_mem_filter (hi ▸ List.mem_singleton_self i)
    have hfound : f ∈ (i.check.run theme.events).2 := by
      rw [hcheck, hlocal.run_theme]
      exact List.mem_flatMap.2 ⟨t, ht, hf⟩
    have ho : i.offense f ∈
        (new theme [.convertIncludeToRender] severity? autoCorrect).analyze.offenses :=
      (mem_offenses_analyze hbuiltins.fresh).2
        ⟨⟨i, hmem, f, hfound, rfl⟩, isDisabled_of_undisabled hon _ _⟩
    have hpath : f.location.path = t.relativePath := hlocal.path_of_mem_run hf
    exact ⟨_, ho, Path.same_iff.2 (congrArg Path.components hpath),
      (hbuiltins.correction?_eq ho).trans hc⟩

/-- **Every `include` tag is reported once**, with an edit for its name. -/
theorem exists_found_convert (hon : theme.Undisabled) : ∃ name : Template × Node → Span,
    (∀ p ∈ theme.includes, p.2.NamedAt p.1.source (name p)) ∧
      ((new theme [.convertIncludeToRender] severity? autoCorrect).analyze.foundBy
        "ConvertIncludeToRender").Perm (theme.includes.map fun p =>
          p.1.toSourceFile.finding p.2.span References.deprecated
            (some (.replace (name p) "render"))) := by
  refine ⟨fun p => (References.includeKeyword? p.2 p.1.source).getD .zero, fun p hp => ?_, ?_⟩
  · -- every `include` node has a keyword, at the place where the tag is named
    obtain ⟨hp, hname⟩ := List.mem_filter.1 hp
    obtain ⟨span, hspan, hnamed⟩ :=
      References.exists_namedAt (Theme.mem_tags.1 hp).2 (beq_iff_eq.1 hname)
    dsimp only
    rw [hspan]
    exact hnamed
  · -- the check is local, so its run over the theme is its run over the templates
    have hlocal : Check.convertIncludeToRender.IsLocal := trivial
    refine (found_new hon rfl).trans (.of_eq ?_)
    rw [hlocal.run_theme, Theme.includes_eq, List.map_flatMap]
    refine List.flatMap_congr fun t _ => ?_
    rw [References.run_outdated, List.map_map]
    refine List.map_congr_left fun n hn => ?_
    obtain ⟨hn, hname⟩ := List.mem_filter.1 hn
    obtain ⟨span, hspan, -⟩ := References.exists_namedAt hn (beq_iff_eq.1 hname)
    simp only [Function.comp_apply, hspan, Option.map_some, Option.getD_some]

/-- The theme after a correction of names: every template has become one with names converted. -/
theorem converted_of_correct {tree : FileTree} {summary : CorrectionSummary}
    (hpaths : theme.Distinct) (hon : theme.Undisabled)
    (hok : ((new theme [.convertIncludeToRender] severity? true).analyze.correct tree).2.2 =
      .ok summary) :
    let theme' :=
      ((new theme [.convertIncludeToRender] severity? true).analyze.correct tree).1.theme
    List.Forall₂ Template.Converted theme.templates theme'.templates ∧ theme'.Undisabled ∧
      summary.applied = theme.includes.length ∧ summary.skipped = 0 := by
  obtain ⟨c, tree', happly, hcorrect, -⟩ := exists_applyEdits hok
  rw [hcorrect]
  dsimp only
  have hsorted := sorted_edits (new theme [.convertIncludeToRender] severity? true).analyze
  have htemplates := (mended_of_ok hsorted happly).templates hpaths
  have hsummary := summary_of_ok hsorted hpaths happly
  generalize hedits : (new theme [.convertIncludeToRender] severity? true).analyze.edits = edits at *
  -- what is chosen for a template are the corrections of its own findings
  have hcs : ∀ t ∈ theme.templates, ∀ c, c ∈ chosen edits t ↔
      ∃ f ∈ (Check.convertIncludeToRender.run t.events).2, f.correction = some c := by
    intro t ht c
    rw [← hedits]
    exact mem_chosen_convert hpaths hon ht
  refine ⟨?_, fun t' ht' root' hroot' p hp names hdisable => ?_, ?_, ?_⟩
  · -- each template on its own is converted
    rw [htemplates, List.forall₂_map_right_iff]
    exact List.forall₂_same.2 fun t ht => Template.converted_of_corrections (hcs t ht)
  · -- a directive after the conversion stood there before, and then it disables nothing
    rw [htemplates] at ht'
    obtain ⟨t, ht, rfl⟩ := List.mem_map.1 ht'
    obtain ⟨root, hroot, hsame⟩ := Template.directives_of_corrections (hcs t ht) hroot'
    have hmem : p.2 ∈ (DisabledRanges.directives root' (applyAll t.source (chosen edits t)).text).map
        (·.2) := List.mem_map_of_mem hp
    rw [hsame] at hmem
    obtain ⟨q, hq, hqp⟩ := List.mem_map.1 hmem
    exact hon t ht root hroot q hq names (hqp.trans hdisable)
  · -- one edit for each `include`, and none is skipped
    have happlied : ∀ t ∈ theme.templates, (patch edits t).applied = t.includes.length :=
      fun t ht => (Template.counts_of_corrections (hcs t ht)).2
    rw [hsummary, Theme.includes_eq, List.length_flatMap]
    refine congrArg List.sum (List.map_congr_left fun t ht => ?_)
    rw [happlied t ht, List.length_map]
  · have hskipped : ∀ t ∈ theme.templates, (patch edits t).skipped = 0 :=
      fun t ht => (Template.counts_of_corrections (hcs t ht)).1
    rw [hsummary]
    show (theme.templates.map fun t => (patch edits t).skipped).sum = 0
    rw [List.map_congr_left hskipped]
    simp

/-- **Converting `include` tags keeps references.** Let the templates of a theme have different
paths, and let no comment in them turn a check off. An analysis with the check for `include` alone
reports every `include` tag once, with an edit that puts `render` in the place where the parser has
read the name. When all templates are files, the corrections can be made. Whenever they can, all
edits are applied, and in the theme that they leave there is no `include` tag. A template parses
when it did before, and its tags are those from before with names converted and with the same markup
behind the names. What is reported about missing templates is the same tag by tag, and what is
reported about unused snippets is the same. -/
theorem includes_converted {theme : Theme} (hpaths : theme.Distinct) (hon : theme.Undisabled)
    (severity? : String → Option Severity) (tree : FileTree) :
    let a := (new theme [.convertIncludeToRender] severity? true).analyze
    (∃ name : Template × Node → Span, (∀ p ∈ theme.includes, p.2.NamedAt p.1.source (name p)) ∧
      (a.foundBy "ConvertIncludeToRender").Perm (theme.includes.map fun p =>
        p.1.toSourceFile.finding p.2.span References.deprecated
          (some (.replace (name p) "render")))) ∧
    ((∀ t ∈ theme.templates, tree.isFile t.path = true) → ∃ s, (a.correct tree).2.2 = .ok s) ∧
    ∀ summary, (a.correct tree).2.2 = .ok summary →
      let theme' := (a.correct tree).1.theme
      summary.applied = theme.includes.length ∧ summary.skipped = 0 ∧ theme'.includes = [] ∧
      List.Forall₂ Template.Converted theme.templates theme'.templates ∧
      ∀ (checks : List Check) (known : List String) (uses : References.Uses),
        checks.filter (·.name == "MissingTemplate") = [.missingTemplate known] →
        checks.filter (·.name == "UnusedSnippet") = [.unusedSnippet uses] →
        ∀ (severity? : String → Option Severity) (autoCorrect : Bool),
          let before := (new theme checks severity? autoCorrect).analyze
          let after := (new theme' checks severity? autoCorrect).analyze
          (∃ messages : List (List String), messages.length = theme.tags.length ∧
            (before.foundBy "MissingTemplate").Perm
              ((theme.tags.zip messages).flatMap References.reportsAt) ∧
            (after.foundBy "MissingTemplate").Perm
              ((theme'.tags.zip messages).flatMap References.reportsAt)) ∧
          (before.foundBy "UnusedSnippet").Perm (after.foundBy "UnusedSnippet") := by
  intro a
  refine ⟨exists_found_convert hon, fun hfiles => (round_of_isFile rfl hfiles).1,
    fun summary hok => ?_⟩
  intro theme'
  obtain ⟨hconverted, hon', happlied, hskipped⟩ := converted_of_correct hpaths hon hok
  refine ⟨happlied, hskipped, Theme.includes_of_converted hconverted, hconverted,
    fun checks known uses hmissing hunused severity? autoCorrect => ?_⟩
  intro before after
  constructor
  · -- the same snippets are missing: conversion keeps the names of templates and the quoted targets
    have hmessages : theme'.tags.map (References.missingAt (References.names theme')) =
        theme.tags.map (References.missingAt (References.names theme)) := by
      rw [References.names_of_converted hconverted]
      exact map_eq_of_forall₂ (Theme.tags_converted hconverted) fun _ _ hpq =>
        References.missingAt_of_converted hpq
    refine ⟨theme.tags.map (References.missingAt (References.names theme)), List.length_map _,
      ?_, ?_⟩
    · rw [← References.run_missing_zip known]
      exact found_new hon hmissing
    · rw [← hmessages, ← References.run_missing_zip known]
      exact found_new hon' hmissing
  · -- the same snippets are used, for both tags name what they use in the same way
    refine (found_new hon hunused).trans ?_
    rw [← References.run_unused_of_converted hconverted uses uses]
    exact (found_new hon' hunused).symm

/-- Two tags, with dashes and without blanks, a snippet that is referred to and one that is not, and
a tag in a template that does not parse. -/
theorem includes_converted_dashes :
    let index : Template := ⟨⟨⟨"index.liquid"⟩, ("\x7b%- include 'card', a: 1 -%\x7d" ++
      "\x7b% if b %\x7d\x7b%include \"none\"%\x7d\x7b% endif %\x7d").toList⟩, ⟨"index.liquid"⟩⟩
    let broken : Template := ⟨⟨⟨"page.liquid"⟩, "\x7b% include 'old' %\x7d\x7b% if a %\x7d".toList⟩,
      ⟨"page.liquid"⟩⟩
    let card : Template := ⟨⟨⟨"snippets/card.liquid"⟩, []⟩, ⟨"snippets/card.liquid"⟩⟩
    let old : Template := ⟨⟨⟨"snippets/old.liquid"⟩, []⟩, ⟨"snippets/old.liquid"⟩⟩
    let theme : Theme := ⟨⟨"."⟩, [index, broken, card, old], []⟩
    let tree : FileTree := { entries := [(["index.liquid"], .file (.text index.source)),
      (["page.liquid"], .file (.text broken.source)), (["snippets"], .directory),
      (["snippets", "card.liquid"], .file (.text [])),
      (["snippets", "old.liquid"], .file (.text []))] }
    let a := (new theme [.convertIncludeToRender] (fun _ => none) true).analyze
    let theme' := (a.correct tree).1.theme
    ∃ summary, (a.correct tree).2.2 = .ok summary ∧ summary.applied = 2 ∧ summary.skipped = 0 ∧
      theme'.includes = [] ∧
      ((new theme' [.missingTemplate [], .unusedSnippet .none] (fun _ => none) false).analyze.foundBy
        "UnusedSnippet").Perm [old.toSourceFile.finding .zero "This template is not used" none] := by
  intro index broken card old theme tree a theme'
  have hpaths : theme.Distinct := by
    unfold Theme.Distinct
    decide +kernel
  have hon : theme.Undisabled := by decide +kernel
  have hfiles : ∀ t ∈ theme.templates, tree.isFile t.path = true := by decide +kernel
  have hcount : theme.includes.length = 2 := by decide +kernel
  have hunused : ((Check.unusedSnippet .none).run theme.events).2 =
      [old.toSourceFile.finding .zero "This template is not used" none] := by decide +kernel
  obtain ⟨-, hsucceeds, hresult⟩ := includes_converted hpaths hon (fun _ => none) tree
  obtain ⟨summary, hok⟩ := hsucceeds hfiles
  obtain ⟨happlied, hskipped, hnone, -, hreports⟩ := hresult summary hok
  obtain ⟨-, hsame⟩ := hreports [.missingTemplate [], .unusedSnippet .none] [] .none rfl rfl
    (fun _ => none) false
  refine ⟨summary, hok, happlied.trans hcount, hskipped, hnone, hsame.symm.trans ?_⟩
  rw [← hunused]
  exact found_new hon rfl

/-- **Templates that share a path** share their edits, which are made in the first of them. So the
edit of a tag in another one is skipped, and the tag stays. -/
theorem include_kept_shared :
    let first : Template := ⟨⟨⟨"a.liquid"⟩, []⟩, ⟨"a.liquid"⟩⟩
    let second : Template := ⟨⟨⟨"a.liquid"⟩, "\x7b% include 'x' %\x7d".toList⟩, ⟨"a.liquid"⟩⟩
    let theme : Theme := ⟨⟨"."⟩, [first, second], []⟩
    let tree : FileTree := { entries := [(["a.liquid"], .file (.text []))] }
    let a := (new theme [.convertIncludeToRender] (fun _ => none) true).analyze
    theme.Undisabled ∧ (∀ t ∈ theme.templates, tree.isFile t.path = true) ∧
      (a.correct tree).2.2 = .ok ⟨0, 0, 1⟩ ∧ (a.correct tree).1.theme.includes.length = 1 := by
  intro first second theme tree a
  -- both templates are listed under one path, and the finding is about the second
  have hoffenses : a.offenses =
      (new theme [.convertIncludeToRender] (fun _ => none) true).reported :=
    List.mergeSort_of_pairwise (by decide +kernel)
  have hedits : a.edits = [(⟨"a.liquid"⟩, [.replace ⟨3, 10⟩ "render"])] := by
    unfold edits
    rw [hoffenses]
    decide +kernel
  -- applied to the empty source of the first one, the edit lies outside and is skipped
  have hpatch : applyAll [] [.replace ⟨3, 10⟩ "render"] = ⟨[], 0, 0, 1⟩ := by
    rw [Correction.applyAll_of_increasing (List.pairwise_singleton _ _)]
    rfl
  have hfound : a.theme.templateAt? ⟨"a.liquid"⟩ = some first := by
    show theme.templateAt? _ = _
    decide +kernel
  have hcorrect : a.correct tree =
      ({ a with theme := theme, offenses := a.uncorrectable }, tree, .ok ⟨0, 0, 1⟩) := by
    rw [correct_of_skipped rfl hedits hfound hpatch rfl]
    rfl
  rw [hcorrect]
  exact ⟨by decide +kernel, by decide +kernel, rfl, by decide +kernel⟩

end Analyzer

end LiquidLint
