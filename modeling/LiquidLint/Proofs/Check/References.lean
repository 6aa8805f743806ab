import LiquidLint.Proofs.Check.Visit
import LiquidLint.Proofs.Liquid.Argument

/-!
# What is learned about references

Two checks look at the references of a theme. The one for missing templates knows the names of all
templates before it comes to the first tag, so what it reports about a tag does not depend on the
tags before it (`References.run_missing`). The one for unused snippets collects the references on
its way and reports at the end: by then it knows those of all tags (`References.Uses.Knows`),
whatever it knew before and in whatever order the templates came (`References.run_unused`).
-/

namespace LiquidLint

open Liquid (Node nameOf)

/-! ### Tags -/

/-- The tags of a template, in document order. A template that does not parse has none. -/
def Template.tags (t : Template) : List Node :=
  match t.root with
  | .ok root => root.descendants.filter Node.isTag
  | .error _ => []

/-- The tags of a theme, each with its template. -/
def Theme.tags (theme : Theme) : List (Template × Node) :=
  theme.templates.flatMap fun t => t.tags.map (t, ·)

variable {t : Template} {n : Node} {theme : Theme}

theorem Theme.mem_tags {p : Template × Node} :
    p ∈ theme.tags ↔ p.1 ∈ theme.templates ∧ p.2 ∈ p.1.tags := by
  obtain ⟨t, n⟩ := p
  unfold Theme.tags
  simp only [List.mem_flatMap, List.mem_map, Prod.mk.injEq]
  constructor
  · rintro ⟨t, ht, n, hn, rfl, rfl⟩
    exact ⟨ht, hn⟩
  · rintro ⟨ht, hn⟩
    exact ⟨t, ht, n, hn, rfl, rfl⟩

theorem Theme.tags_perm {theme' : Theme} (h : theme.templates.Perm theme'.templates) :
    theme.tags.Perm theme'.tags := h.flatMap_right _

/-- A tag of a template stands in it, with its markup behind the opening delimiter. -/
theorem Template.exists_markup (h : n ∈ t.tags) : ∃ m, Text.Stands t.source (n.span.start + 2) m ∧
    n.markupSpan = ⟨n.span.start + 2, n.span.start + 2 + m.size⟩ ∧ nameOf m = n.typeName := by
  unfold Template.tags at h
  split at h
  · next root hroot =>
    obtain ⟨hn, htag⟩ := List.mem_filter.1 h
    rw [Node.descendants_eq] at hn
    rcases List.mem_cons.1 hn with rfl | hn
    · rw [Node.isTag, Node.tagName?, Liquid.kind_of_parse hroot] at htag
      cases htag
    · exact (Liquid.placed_of_parse hroot hn).exists_markup htag
  · cases h

/-- **What is reported about a template** where only tags are looked at. -/
theorem Template.flatMap_events {findings : Event → List Finding}
    (hother : ∀ hook n, hook ≠ .onTag → findings (.node hook n t) = [])
    (herror : ∀ e, findings (.onError e t) = []) (hafter : findings (.afterTemplate t) = []) :
    t.events.flatMap findings = t.tags.flatMap fun n => findings (.node .onTag n t) := by
  unfold Template.tags
  cases hroot : t.root with
  | error e =>
    rw [Template.events_of_error hroot, List.flatMap_cons, List.flatMap_cons, herror, hafter]
    rfl
  | ok root =>
    rw [Template.events_of_root hroot, List.flatMap_append, flatMap_called hother,
      Node.called_onTag_hooks, List.flatMap_cons, hafter]
    exact List.append_nil _

namespace References

/-! ### Missing templates -/

/-- Between the start and the end of a theme nothing is learned about its templates. -/
theorem run_missing_of_forall (known : List String) {es : List Event}
    (h : ∀ theme, Event.onTheme theme ∉ es) :
    (Check.missingTemplate known).run es = (.missingTemplate known, es.flatMap (missing known)) := by
  induction es with
  | nil => rfl
  | cons e es ih =>
    have hnext : (Check.missingTemplate known).next e = .missingTemplate known := by
      cases e with
      | onTheme theme => exact absurd (List.mem_cons_self ..) (h theme)
      | _ => rfl
    rw [Check.run, hnext, ih fun theme hmem => h theme (List.mem_cons_of_mem _ hmem),
      List.flatMap_cons]
    rfl

theorem onTheme_not_mem_events (theme : Theme) (ts : List Template) (js : List JsonFile)
    (theme' : Theme) :
    Event.onTheme theme ∉ ts.flatMap Template.events ++ js.map .onJson ++ [.onEnd theme'] := by
  intro h
  rcases List.mem_append.1 h with h | h
  · rcases List.mem_append.1 h with h | h
    · obtain ⟨t, -, he⟩ := List.mem_flatMap.1 h
      cases Template.template?_of_mem_events he
    · obtain ⟨j, -, he⟩ := List.mem_map.1 h
      cases he
  · cases List.mem_singleton.1 h

/-- **Missing templates** are reported tag by tag, by the names of all templates. -/
theorem run_missing (known : List String) (theme : Theme) :
    ((Check.missingTemplate known).run theme.events).2 =
      theme.tags.flatMap fun p => missing (names theme) (.node .onTag p.2 p.1) := by
  -- templates are looked at node by node, when tags are entered
  have htemplate : ∀ t : Template, t.events.flatMap (missing (names theme)) =
      t.tags.flatMap fun n => missing (names theme) (.node .onTag n t) := by
    intro t
    refine Template.flatMap_events (fun hook n hne => ?_) (fun _ => rfl) rfl
    cases hook with
    | onTag => exact absurd rfl hne
    | _ => rfl
  have hjson : (theme.jsonFiles.map Event.onJson).flatMap (missing (names theme)) = [] := by
    rw [List.flatMap_map, List.flatMap_eq_nil_iff]
    exact fun _ _ => rfl
  -- the names of the theme are taken down at the start, whatever was known before
  have hnext : (Check.missingTemplate known).next (.onTheme theme) =
      .missingTemplate (names theme) := rfl
  rw [Theme.events_eq, Check.findings_run_cons, hnext,
    run_missing_of_forall _ fun theme' => onTheme_not_mem_events theme' _ _ _, List.flatMap_append,
    List.flatMap_append, hjson, List.flatMap_assoc, List.flatMap_congr fun t _ => htemplate t,
    Theme.tags, List.flatMap_assoc]
  simp only [List.flatMap_map]
  show [] ++ (_ ++ [] ++ []) = _
  simp only [List.nil_append, List.append_nil]

/-! ### Unused snippets -/

/-- The uses tell which snippets some tags refer to. -/
structure Uses.Knows (u : Uses) (ps : List (Template × Node)) : Prop where
  mem_names : ∀ name, name ∈ u.names ↔ ∃ p ∈ ps, namesSnippet p.2.typeName = true ∧
    ∃ argument, argument? p.2 p.1.source = some argument ∧ name = s!"snippets/{argument}"
  anything : u.anything = true ↔ ∃ p ∈ ps, namesSnippet p.2.typeName = true ∧
    argument? p.2 p.1.source = Option.none

theorem Uses.knows_none : Uses.none.Knows [] where
  mem_names name := by simp [Uses.none]
  anything := by simp [Uses.none]

/-- One tag more. -/
theorem Uses.Knows.record {u : Uses} {ps : List (Template × Node)} (h : u.Knows ps) (t : Template)
    (n : Node) : (u.record n t.source).Knows (ps ++ [(t, n)]) := by
  unfold Uses.record
  -- the tag may be of no interest, name something, or leave open what it uses
  by_cases hname : namesSnippet n.typeName = true
  · rw [if_pos hname]
    cases hargument : argument? n t.source with
    | some argument =>
      refine ⟨fun name => ?_, ?_⟩
      · simp only [List.mem_cons, h.mem_names, List.mem_append, List.not_mem_nil, or_false,
          or_and_right, exists_or, exists_eq_left, hname, hargument, true_and, Option.some.injEq,
          exists_eq_left']
        exact or_comm
      · simp [h.anything, or_and_right, exists_or, hargument]
    | none =>
      refine ⟨fun name => ?_, ?_⟩
      · simp [h.mem_names, or_and_right, exists_or, hargument]
      · simp [hname, hargument, or_and_right, exists_or]
  · rw [if_neg hname]
    refine ⟨fun name => ?_, ?_⟩
    · simp [h.mem_names, or_and_right, exists_or, hname]
    · simp [h.anything, or_and_right, exists_or, hname]

theorem Uses.Knows.foldl {u : Uses} {ps : List (Template × Node)} (h : u.Knows ps)
    (qs : List (Template × Node)) :
    (qs.foldl (fun u p => u.record p.2 p.1.source) u).Knows (ps ++ qs) := by
  induction qs generalizing u ps with
  | nil => rwa [List.append_nil]
  | cons q qs ih =>
    have hstep := ih (h.record q.1 q.2)
    rwa [List.append_assoc, List.singleton_append] at hstep

/-- What is known after some hooks is what their tags tell. -/
theorem foldl_hooks (u : Uses) (t : Template) (hooks : List (NodeHook × Node)) :
    (hooks.map fun (hook, n) => Event.node hook n t).foldl Uses.next u =
      (Node.called .onTag hooks).foldl (fun u n => u.record n t.source) u := by
  induction hooks generalizing u with
  | nil => rfl
  | cons p hooks ih =>
    obtain ⟨hook, n⟩ := p
    rw [List.map_cons, List.foldl_cons, ih, Node.called_cons]
    cases hook <;> rfl

theorem foldl_events (u : Uses) (t : Template) :
    t.events.foldl Uses.next u = t.tags.foldl (fun u n => u.record n t.source) u := by
  unfold Template.tags
  cases hroot : t.root with
  | error e => rw [Template.events_of_error hroot]; rfl
  | ok root =>
    rw [Template.events_of_root hroot, List.foldl_append, foldl_hooks, Node.called_onTag_hooks]
    rfl

theorem foldl_templates (u : Uses) (ts : List Template) :
    (ts.flatMap Template.events).foldl Uses.next u =
      (ts.flatMap fun t => t.tags.map (t, ·)).foldl (fun u p => u.record p.2 p.1.source) u := by
  induction ts generalizing u with
  | nil => rfl
  | cons t ts ih =>
    rw [List.flatMap_cons, List.flatMap_cons, List.foldl_append, List.foldl_append, ih, foldl_events,
      List.foldl_map]

/-- Before the end nothing is reported. -/
theorem run_unused_of_forall (u : Uses) {es : List Event} (h : ∀ theme, Event.onEnd theme ∉ es) :
    (Check.unusedSnippet u).run es = (.unusedSnippet (es.foldl Uses.next u), []) := by
  induction es generalizing u with
  | nil => rfl
  | cons e es ih =>
    have hnone : (Check.unusedSnippet u).findings e = [] := by
      cases e with
      | onEnd theme => exact absurd (List.mem_cons_self ..) (h theme)
      | _ => rfl
    have hnext : (Check.unusedSnippet u).next e = .unusedSnippet (u.next e) := rfl
    rw [Check.run, hnext, ih _ fun theme hmem => h theme (List.mem_cons_of_mem _ hmem), hnone]
    rfl

/-- **Unused snippets** are reported at the end, when the references of all tags are known. -/
theorem exists_run_unused (u : Uses) (theme : Theme) : ∃ u' : Uses, u'.Knows theme.tags ∧
    ((Check.unusedSnippet u).run theme.events).2 = unused u' (.onEnd theme) := by
  refine ⟨_, Uses.knows_none.foldl theme.tags, ?_⟩
  have hend : ∀ theme' : Theme, Event.onEnd theme' ∉
      theme.templates.flatMap Template.events ++ theme.jsonFiles.map .onJson := by
    intro theme' h
    rcases List.mem_append.1 h with h | h
    · obtain ⟨t, -, he⟩ := List.mem_flatMap.1 h
      cases Template.template?_of_mem_events he
    · obtain ⟨j, -, he⟩ := List.mem_map.1 h
      cases he
  have hjson : ∀ (u : Uses) (js : List JsonFile), (js.map Event.onJson).foldl Uses.next u = u := by
    intro u js
    induction js with
    | nil => rfl
    | cons j js ih => exact ih
  have hnext : (Check.unusedSnippet u).next (.onTheme theme) = .unusedSnippet .none := rfl
  rw [Theme.events_eq, Check.findings_run_cons, hnext, Check.run_append, run_unused_of_forall _ hend,
    List.foldl_append, hjson, foldl_templates]
  show [] ++ ([] ++ (_ ++ [])) = _
  simp only [List.nil_append, List.append_nil]
  rfl

end References

end LiquidLint
