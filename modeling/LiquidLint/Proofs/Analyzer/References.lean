import LiquidLint.Proofs.Analyzer.OnePass
import LiquidLint.Proofs.Check.References

/-!
# Two checks of the same references

Where comments turn nothing off, an analysis reports all that a check finds, in another order
(`Analyzer.found_analyze`). So what is reported about missing templates and about unused snippets
can be read off from the tags of the theme, and both checks mean the same by a reference
(`Analyzer.references_agree`).
-/

namespace LiquidLint

open Liquid (Node)

/-! ### Where nothing is turned off -/

/-- No comment turns a check off. -/
def Theme.Undisabled (theme : Theme) : Prop :=
  ∀ t ∈ theme.templates, ∀ root, t.root = .ok root →
    ∀ p ∈ DisabledRanges.directives root t.source, ∀ names, p.2 ≠ .disable names

instance (theme : Theme) : Decidable theme.Undisabled :=
  decidable_of_iff (∀ t ∈ theme.templates, (match t.root with
      | .ok root => (DisabledRanges.directives root t.source).all fun p => (p.2 matches .enable _)
      | .error _ => true) = true) <| by
    refine forall_congr' fun t => imp_congr_right fun _ => ?_
    cases t.root with
    | error e => exact iff_of_true rfl fun _ h => by cases h
    | ok root =>
      rw [List.all_eq_true]
      constructor
      · intro h root' hroot p hp names hdisable
        obtain rfl := Except.ok.inj hroot
        have hon := h p hp
        rw [hdisable] at hon
        cases hon
      · intro h ⟨x, directive⟩ hp
        cases directive with
        | disable names => exact absurd rfl (h root rfl _ hp names)
        | enable names => rfl

/-- The finding that an offense reports. -/
def Offense.toFinding (o : Offense) : Finding := ⟨o.location, o.message, o.correction⟩

namespace Analyzer

variable {a : Analyzer} {theme : Theme} {name : String} {c : Check}

/-- What a check has reported in the last analysis. -/
def foundBy (a : Analyzer) (name : String) : List Finding :=
  (a.offenses.filter (·.check == name)).map Offense.toFinding

theorem isDisabled_of_undisabled (h : theme.Undisabled) (a : Analyzer) (o : Offense) :
    a.isDisabled (disabledRanges theme) o = false := by
  unfold Analyzer.isDisabled
  split
  · rfl
  · -- ranges come from a template that parses, and it has no directive that disables
    next path ranges hfind =>
    have hmem := List.mem_of_find?_eq_some hfind
    rw [List.mem_reverse, disabledRanges_eq, List.mem_filterMap] at hmem
    obtain ⟨t, ht, hentry⟩ := hmem
    have hoff : ranges.isDisabled o.check o.location.start = false := by
      split at hentry
      · next root hroot =>
        dsimp only at hentry
        split at hentry
        · cases hentry
        · obtain ⟨-, rfl⟩ := Prod.mk.inj (Option.some.inj hentry)
          have hon := Template.isDisabled_of_directives hroot (h t ht root hroot) o.check
            o.location.start
          rwa [Template.isDisabled, hroot] at hon
      · cases hentry
    rw [hoff, Bool.and_false]

/-- The analyzer has one check with the given name, which is of a given kind. -/
def Has (a : Analyzer) (name : String) (P : Check → Prop) : Prop :=
  ∃ i, a.instances.filter (·.name == name) = [i] ∧ P i.check

theorem has_new {checks : List Check} (h : checks.filter (·.name == name) = [c])
    (severity? : String → Option Severity) (autoCorrect : Bool) :
    (new theme checks severity? autoCorrect).Has name (· = c) := by
  have hnew := congrArg (List.filter (·.1 == name))
    (instances_new theme checks severity? autoCorrect)
  rw [List.filter_map, List.filter_map] at hnew
  have hchecks : checks.filter ((·.1 == name) ∘ fun c : Check => (c.name, c)) = [c] := h
  rw [hchecks, List.map_singleton] at hnew
  obtain ⟨i, hi, hcheck⟩ := List.map_eq_singleton_iff.1 hnew
  exact ⟨i, hi, congrArg Prod.snd hcheck⟩

theorem Has.analyze {P : Check → Prop} (h : a.Has name P)
    (hrun : ∀ c es, P c → P (Check.run c es).1) : a.analyze.Has name P := by
  obtain ⟨i, hi, hcheck⟩ := h
  let events := a.theme.eventsOf a.parsed
  refine ⟨i.run events, ?_, hrun i.check events hcheck⟩
  show (a.instances.map fun i => i.run events).filter (·.name == name) = _
  rw [List.filter_map]
  exact congrArg (List.map fun i : Instance => i.run events) hi

/-- **An analysis without disabling comments** reports what the check finds. -/
theorem found_analyze {i : Instance} (hfresh : a.Fresh) (h : a.theme.Undisabled)
    (hi : a.instances.filter (·.name == name) = [i]) :
    (a.analyze.foundBy name).Perm (i.check.run a.theme.events).2 := by
  -- only the one instance reports under this name
  have hfound : (a.found a.theme.events).filter (·.check == name) =
      (i.check.run a.theme.events).2.map i.offense := by
    rw [← found_of_filter (a := { a with instances := [i] }) (p := (· == name)) hi.symm, found,
      List.flatMap_singleton]
  -- without directives nothing that is found is filtered out
  have hreported : a.reported = a.found a.theme.events := by
    rw [reported_eq]
    refine List.filter_eq_self.2 fun o _ => ?_
    rw [isDisabled_of_undisabled h a o]
    rfl
  -- sorting permutes the findings, and an offense keeps what was found
  have hperm := ((List.mergeSort_perm ((i.check.run a.theme.events).2.map i.offense)
    Offense.le).map Offense.toFinding)
  have hfindings : ((i.check.run a.theme.events).2.map i.offense).map Offense.toFinding =
      (i.check.run a.theme.events).2 := by
    rw [List.map_map]
    exact List.map_id _
  rw [hfindings] at hperm
  rwa [foundBy, offenses_analyze hfresh, Offense.filter_sorted, hreported, hfound]

end Analyzer

/-! ### References -/

namespace References

/-- Directories that tags refer to, with these tags. -/
def directories : List (String × List String) :=
  [("snippets", ["render", "include"]), ("sections", ["section"])]

/-- What is reported about a reference to a template that is not there. -/
def notFound (target : String) : String := s!"'{target}.liquid' is not found"

/-- The tags of a theme, among those given, whose first argument is the string `name`. -/
def named (theme : Theme) (tags : List String) (name : String) : List (Template × Node) :=
  theme.tags.filter fun p => tags.contains p.2.typeName && argument? p.2 p.1.source == some name

variable {theme : Theme} {directory : String} {tags : List String} {name : String} {t : Template}
  {n : Node} {f : Finding}

theorem directory?_eq_some_iff (h : (directory, tags) ∈ directories) (tag : String) :
    directory? tag = some directory ↔ tags.contains tag = true := by
  unfold directories at h
  simp only [List.mem_cons, Prod.mk.injEq, List.not_mem_nil, or_false] at h
  rcases h with ⟨rfl, rfl⟩ | ⟨rfl, rfl⟩
  · unfold directory?
    split <;> simp_all
  · unfold directory?
    split <;> simp_all

theorem exists_tags_of_directory? {tag : String} (h : directory? tag = some directory) :
    ∃ tags, (directory, tags) ∈ directories := by
  unfold directory? at h
  split at h
  · obtain rfl := Option.some.inj h
    exact ⟨_, List.mem_cons_self ..⟩
  · obtain rfl := Option.some.inj h
    exact ⟨_, List.mem_cons_self ..⟩
  · obtain rfl := Option.some.inj h
    exact ⟨_, List.mem_cons_of_mem _ (List.mem_cons_self ..)⟩
  · cases h

/-- The path of a template tells its directory and its name. -/
theorem path_inj {folder label : String} {others : List String}
    (h : (directory, tags) ∈ directories) (h' : (folder, others) ∈ directories)
    (heq : s!"{directory}/{name}" = s!"{folder}/{label}") : directory = folder ∧ name = label := by
  have hlist : (directory ++ "/" ++ name).toList = (folder ++ "/" ++ label).toList :=
    congrArg String.toList heq
  unfold directories at h h'
  simp only [List.mem_cons, Prod.mk.injEq, List.not_mem_nil, or_false] at h h'
  rcases h with ⟨rfl, rfl⟩ | ⟨rfl, rfl⟩ <;> rcases h' with ⟨rfl, rfl⟩ | ⟨rfl, rfl⟩
  · exact ⟨rfl, by simpa [String.toList_inj] using hlist⟩
  · simp at hlist
  · simp at hlist
  · exact ⟨rfl, by simpa [String.toList_inj] using hlist⟩

theorem target?_eq_some_iff {target : String} {source : Text} : target? n source = some target ↔
    ∃ directory, directory? n.typeName = some directory ∧
      ∃ name, argument? n source = some name ∧ target = s!"{directory}/{name}" := by
  unfold target?
  cases directory? n.typeName with
  | none => simp
  | some directory =>
    cases argument? n source with
    | none => simp
    | some name => simp [eq_comm]

theorem notFound_inj {target target' : String} (h : notFound target = notFound target') :
    target = target' := by
  have hlist : ("'" ++ target ++ ".liquid' is not found").toList =
      ("'" ++ target' ++ ".liquid' is not found").toList := congrArg String.toList h
  simpa [String.toList_inj] using hlist

/-! ### Reports about one name -/

/-- **A missing template** is reported at a tag that names it. -/
theorem filter_missing (known : List String) (h : (directory, tags) ∈ directories) (name : String)
    (t : Template) (n : Node) :
    (missing known (.node .onTag n t)).filter
        (·.message == notFound s!"{directory}/{name}") =
      if known.contains s!"{directory}/{name}" then []
      else if tags.contains n.typeName && argument? n t.source == some name then
        [t.toSourceFile.finding n.span (notFound s!"{directory}/{name}") none]
      else [] := by
  by_cases hnames : (tags.contains n.typeName && argument? n t.source == some name) = true
  · -- the tag names this file, so it is reported unless the file is there
    rw [if_pos hnames]
    rw [Bool.and_eq_true, beq_iff_eq] at hnames
    have htarget : target? n t.source = some s!"{directory}/{name}" := by
      rw [target?_eq_some_iff]
      exact ⟨directory, (directory?_eq_some_iff h _).2 hnames.1, name, hnames.2, rfl⟩
    unfold missing
    dsimp only
    rw [htarget]
    dsimp only
    split
    · rfl
    · exact List.filter_cons_of_pos (beq_self_eq_true _)
  · rw [if_neg hnames, ite_self, List.filter_eq_nil_iff]
    rw [Bool.and_eq_true, beq_iff_eq] at hnames
    -- else another file is reported, if any, and the messages tell files apart
    intro f hf hmessage
    rw [beq_iff_eq] at hmessage
    unfold missing at hf
    dsimp only at hf
    split at hf
    · next target htarget =>
      obtain ⟨directory', hdirectory, name', hargument, rfl⟩ := target?_eq_some_iff.1 htarget
      obtain ⟨tags', h'⟩ := exists_tags_of_directory? hdirectory
      split at hf
      · cases hf
      · obtain rfl := List.mem_singleton.1 hf
        obtain ⟨rfl, rfl⟩ := path_inj h' h (notFound_inj hmessage)
        exact hnames ⟨(directory?_eq_some_iff h _).1 hdirectory, hargument⟩
    · cases hf

/-- **Missing templates of one name**: each tag that refers to it is reported once, if there is no
template with that name. -/
theorem filter_run_missing (known : List String) (theme : Theme)
    (h : (directory, tags) ∈ directories) (name : String) :
    (((Check.missingTemplate known).run theme.events).2.filter
        (·.message == notFound s!"{directory}/{name}")) =
      if ∃ t ∈ theme.templates, t.name = s!"{directory}/{name}" then []
      else (named theme tags name).map fun p =>
        p.1.toSourceFile.finding p.2.span (notFound s!"{directory}/{name}") none := by
  rw [run_missing, List.filter_flatMap,
    List.flatMap_congr fun p _ => filter_missing (names theme) h name p.1 p.2]
  have hknown : (names theme).contains s!"{directory}/{name}" = true ↔
      ∃ t ∈ theme.templates, t.name = s!"{directory}/{name}" := by
    rw [List.contains_iff_mem]
    exact List.mem_map
  by_cases hmem : ∃ t ∈ theme.templates, t.name = s!"{directory}/{name}"
  · rw [if_pos hmem, List.flatMap_eq_nil_iff]
    exact fun p _ => if_pos (hknown.2 hmem)
  · rw [if_neg hmem, named, List.map_eq_flatMap, ← flatMap_if]
    exact List.flatMap_congr fun p _ => if_neg fun hcontains => hmem (hknown.1 hcontains)

/-- Nothing else is reported as missing. -/
theorem exists_named_of_mem_run_missing {known : List String}
    (hf : f ∈ ((Check.missingTemplate known).run theme.events).2) :
    ∃ directory tags, (directory, tags) ∈ directories ∧ ∃ name, named theme tags name ≠ [] ∧
      f.message = notFound s!"{directory}/{name}" := by
  rw [run_missing, List.mem_flatMap] at hf
  obtain ⟨p, hp, hf⟩ := hf
  unfold missing at hf
  dsimp only at hf
  split at hf
  · next target htarget =>
    obtain ⟨directory, hdirectory, name, hargument, rfl⟩ := target?_eq_some_iff.1 htarget
    obtain ⟨tags, h⟩ := exists_tags_of_directory? hdirectory
    split at hf
    · cases hf
    · obtain rfl := List.mem_singleton.1 hf
      refine ⟨directory, tags, h, name, List.ne_nil_of_mem (a := p) (List.mem_filter.2 ⟨hp, ?_⟩), rfl⟩
      rw [(directory?_eq_some_iff h _).1 hdirectory, hargument, Bool.true_and, beq_self_eq_true]
  · cases hf

theorem namesSnippet_iff (tag : String) :
    namesSnippet tag = true ↔ tag ∈ ["render", "include"] := by
  simp [namesSnippet]

/-- The name of a snippet is that of a file in the directory of snippets. -/
theorem isSnippet_iff : t.isSnippet = true ↔ ∃ name : String, t.name = s!"snippets/{name}" := by
  unfold Template.isSnippet
  rw [Option.isSome_iff_exists]
  constructor
  · rintro ⟨r, hr⟩
    refine ⟨String.ofList r, String.toList_inj.1 ?_⟩
    have htext := Text.dropStart?_eq_some_iff.1 hr
    show t.name.toList = ("snippets" ++ "/" ++ String.ofList r).toList
    rw [htext]
    simp
  · rintro ⟨name, hname⟩
    refine ⟨name.toList, Text.dropStart?_eq_some_iff.2 ?_⟩
    rw [hname]
    exact String.toList_append

/-- **A snippet of one name** is reported as unused when no tag refers to it and none may refer to
any snippet. -/
theorem filter_run_unused (u : Uses) (theme : Theme) (name : String) :
    (((Check.unusedSnippet u).run theme.events).2.filter
        (·.location.path.fileName == s!"snippets/{name}")) =
      if named theme ["render", "include"] name = [] ∧
          ∀ p ∈ theme.tags, p.2.typeName ∈ ["render", "include"] → argument? p.2 p.1.source ≠ none then
        (theme.templates.filter (·.name == s!"snippets/{name}")).map fun t =>
          t.toSourceFile.finding .zero "This template is not used" none
      else [] := by
  obtain ⟨u', hknows, hrun⟩ := exists_run_unused u theme
  -- after the run the check knows the names that the tags use
  have hnamed : s!"snippets/{name}" ∈ u'.names ↔ named theme ["render", "include"] name ≠ [] := by
    rw [hknows.mem_names, named, ne_eq, List.filter_eq_nil_iff]
    simp only [namesSnippet_iff, not_forall, not_not, Bool.and_eq_true, List.contains_iff_mem,
      beq_iff_eq, exists_prop]
    refine exists_congr fun p => and_congr_right fun _ => and_congr_right fun _ => ?_
    constructor
    · rintro ⟨argument, hargument, heq⟩
      obtain ⟨-, rfl⟩ := path_inj (List.mem_cons_self ..) (List.mem_cons_self ..) heq
      exact hargument
    · intro hargument
      exact ⟨name, hargument, rfl⟩
  -- and whether one of the tags leaves open what it uses
  have hanything : u'.anything = true ↔ ¬ ∀ p ∈ theme.tags,
      p.2.typeName ∈ ["render", "include"] → argument? p.2 p.1.source ≠ none := by
    rw [hknows.anything]
    simp only [namesSnippet_iff, not_forall, not_not, exists_prop]
  rw [hrun]
  unfold unused
  dsimp only
  by_cases hall : ∀ p ∈ theme.tags, p.2.typeName ∈ ["render", "include"] →
      argument? p.2 p.1.source ≠ none
  · -- no tag leaves it open, so what is unused is decided name by name
    rw [if_neg fun h => hanything.1 h hall, List.filter_map, List.filter_filter]
    by_cases hnone : named theme ["render", "include"] name = []
    · rw [if_pos ⟨hnone, hall⟩]
      congr 1
      refine List.filter_congr fun t _ => ?_
      show (t.name == _ && _) = (t.name == _)
      by_cases ht : t.name = s!"snippets/{name}"
      · have hunused : u'.names.contains t.name = false := by
          rw [Bool.eq_false_iff, ne_eq, List.contains_iff_mem, ht, hnamed, not_not]
          exact hnone
        rw [hunused, isSnippet_iff.2 ⟨name, ht⟩, Bool.not_false, Bool.and_true, Bool.and_true]
      · rw [beq_eq_false_iff_ne.2 ht, Bool.false_and]
    · rw [if_neg fun h => hnone h.1, List.map_eq_nil_iff, List.filter_eq_nil_iff]
      intro t _ h
      rw [Bool.and_eq_true, Bool.and_eq_true, Bool.not_eq_true'] at h
      obtain ⟨ht, -, hunused⟩ := h
      have hname : t.name = s!"snippets/{name}" := beq_iff_eq.1 ht
      rw [Bool.eq_false_iff, ne_eq, List.contains_iff_mem, hname, hnamed] at hunused
      exact hunused hnone
  · rw [if_pos (hanything.2 hall), if_neg fun h => hall h.2]
    rfl

/-- Nothing else is reported as unused. -/
theorem exists_name_of_mem_run_unused {u : Uses}
    (hf : f ∈ ((Check.unusedSnippet u).run theme.events).2) :
    ∃ name : String, f.location.path.fileName = s!"snippets/{name}" := by
  obtain ⟨u', -, hrun⟩ := exists_run_unused u theme
  rw [hrun] at hf
  unfold unused at hf
  dsimp only at hf
  split at hf
  · cases hf
  · obtain ⟨t, ht, rfl⟩ := List.mem_map.1 hf
    have hsnippet := (List.mem_filter.1 ht).2
    rw [Bool.and_eq_true] at hsnippet
    exact isSnippet_iff.1 hsnippet.1

/-! ### Templates in another order -/

/-- Reports about missing templates do not depend on the order of the templates. -/
theorem run_missing_perm {theme' : Theme} (h : theme.templates.Perm theme'.templates)
    (known known' : List String) : ((Check.missingTemplate known).run theme.events).2.Perm
      ((Check.missingTemplate known').run theme'.events).2 := by
  have hnames : ∀ e, missing (names theme) e = missing (names theme') e := by
    intro e
    have hcontains : ∀ name, (names theme).contains name = (names theme').contains name := by
      intro name
      rw [Bool.eq_iff_iff, List.contains_iff_mem, List.contains_iff_mem]
      exact (h.map Template.name).mem_iff
    unfold missing
    simp only [hcontains]
  rw [run_missing, run_missing]
  simp only [hnames]
  exact (Theme.tags_perm h).flatMap_right _

/-- Reports about unused snippets do not depend on the order of the templates. -/
theorem run_unused_perm {theme' : Theme} (h : theme.templates.Perm theme'.templates) (u u' : Uses) :
    ((Check.unusedSnippet u).run theme.events).2.Perm
      ((Check.unusedSnippet u').run theme'.events).2 := by
  obtain ⟨v, hknows, hrun⟩ := exists_run_unused u theme
  obtain ⟨v', hknows', hrun'⟩ := exists_run_unused u' theme'
  have htags : ∀ p, p ∈ theme.tags ↔ p ∈ theme'.tags := fun p => (Theme.tags_perm h).mem_iff
  have hanything : v.anything = v'.anything := by
    rw [Bool.eq_iff_iff, hknows.anything, hknows'.anything]
    simp only [htags]
  have hcontains : ∀ name, v.names.contains name = v'.names.contains name := by
    intro name
    rw [Bool.eq_iff_iff, List.contains_iff_mem, List.contains_iff_mem, hknows.mem_names,
      hknows'.mem_names]
    simp only [htags]
  rw [hrun, hrun']
  unfold unused
  dsimp only
  rw [hanything]
  split
  · exact .nil
  · simp only [hcontains]
    exact (h.filter _).map _

end References

/-! ### Analyses -/

namespace Check

theorem exists_run_missingTemplate {c : Check} (h : ∃ known, c = .missingTemplate known)
    (es : List Event) : ∃ known, (c.run es).1 = .missingTemplate known := by
  induction es generalizing c with
  | nil => exact h
  | cons e es ih =>
    obtain ⟨known, rfl⟩ := h
    refine ih ?_
    cases e <;> exact ⟨_, rfl⟩

theorem exists_run_unusedSnippet {c : Check} (h : ∃ uses, c = .unusedSnippet uses)
    (es : List Event) : ∃ uses, (c.run es).1 = .unusedSnippet uses := by
  induction es generalizing c with
  | nil => exact h
  | cons e es ih =>
    obtain ⟨uses, rfl⟩ := h
    exact ih ⟨_, rfl⟩

end Check

namespace Analyzer

open References (argument? directories named notFound)

variable {a : Analyzer} {theme : Theme}

theorem theme_iterate (a : Analyzer) (k : Nat) : (analyze^[k] a).theme = a.theme := by
  induction k with
  | zero => rfl
  | succ k ih =>
    rw [Function.iterate_succ_apply']
    exact ih

theorem fresh_iterate (h : a.Fresh) (k : Nat) : (Analyzer.analyze^[k] a).Fresh := by
  induction k with
  | zero => exact h
  | succ k ih =>
    rw [Function.iterate_succ_apply']
    exact fresh_analyze ih

theorem Has.iterate {name : String} {P : Check → Prop} (h : a.Has name P)
    (hrun : ∀ c es, P c → P (Check.run c es).1) (k : Nat) : (Analyzer.analyze^[k] a).Has name P := by
  induction k with
  | zero => exact h
  | succ k ih =>
    rw [Function.iterate_succ_apply']
    exact ih.analyze hrun

/-- An analysis that is made over and over again reports what the check finds, with some memory. -/
theorem exists_found_iterate {checks : List Check} {name : String} {c : Check} {P : Check → Prop}
    (hon : theme.Undisabled) (hc : checks.filter (·.name == name) = [c]) (hP : P c)
    (hrun : ∀ c es, P c → P (Check.run c es).1) (severity? : String → Option Severity)
    (autoCorrect : Bool) (k : Nat) : ∃ d, P d ∧
      ((analyze^[k + 1] (new theme checks severity? autoCorrect)).foundBy name).Perm
        (d.run theme.events).2 := by
  have htheme := theme_iterate (new theme checks severity? autoCorrect) k
  have hnew : (new theme checks severity? autoCorrect).Has name P := by
    obtain ⟨i, hi, rfl⟩ : (new theme checks severity? autoCorrect).Has name (· = c) :=
      has_new hc severity? autoCorrect
    exact ⟨i, hi, hP⟩
  obtain ⟨i, hi, hcheck⟩ := hnew.iterate hrun k
  refine ⟨i.check, hcheck, ?_⟩
  have hfound := found_analyze (fresh_iterate (fresh_new ..) k) (htheme ▸ hon) hi
  rw [htheme] at hfound
  rwa [Function.iterate_succ_apply']

/-- **Two checks agree on references.** A reference is a tag whose first argument is a string, as
the markup shows. A tag is reported as long as there is no template of the name it refers to, once,
and nothing else is. A snippet is reported as long as no tag refers to it and no tag may refer to
any snippet, and nothing else is. This holds in every analysis of the theme, and does not depend on
the order of its templates. -/
theorem references_agree {theme : Theme} {checks : List Check} {known : List String}
    {uses : References.Uses}
    (hmissing : checks.filter (·.name == "MissingTemplate") = [.missingTemplate known])
    (hunused : checks.filter (·.name == "UnusedSnippet") = [.unusedSnippet uses])
    (hon : theme.Undisabled) (severity? : String → Option Severity) (autoCorrect : Bool) (k : Nat) :
    let a := analyze^[k + 1] (new theme checks severity? autoCorrect)
    (∀ p ∈ theme.tags, p.2.typeName ∈ ["render", "include", "section"] → ∀ name,
      argument? p.2 p.1.source = some name ↔
        Liquid.Quotes (p.1.source.slice p.2.markupSpan) p.2.typeName.toList name.toList) ∧
    (∀ directory tags, (directory, tags) ∈ directories → ∀ name,
      ((a.foundBy "MissingTemplate").filter
          (·.message == notFound s!"{directory}/{name}")).Perm
        (if ∃ t ∈ theme.templates, t.name = s!"{directory}/{name}" then []
        else (named theme tags name).map fun p =>
          p.1.toSourceFile.finding p.2.span (notFound s!"{directory}/{name}") none)) ∧
    (∀ f ∈ a.foundBy "MissingTemplate", ∃ directory tags, (directory, tags) ∈ directories ∧
      ∃ name, named theme tags name ≠ [] ∧ f.message = notFound s!"{directory}/{name}") ∧
    (∀ name : String, ((a.foundBy "UnusedSnippet").filter
        (·.location.path.fileName == s!"snippets/{name}")).Perm
      (if named theme ["render", "include"] name = [] ∧ ∀ p ∈ theme.tags,
          p.2.typeName ∈ ["render", "include"] → argument? p.2 p.1.source ≠ none then
        (theme.templates.filter (·.name == s!"snippets/{name}")).map fun t =>
          t.toSourceFile.finding .zero "This template is not used" none
      else [])) ∧
    (∀ f ∈ a.foundBy "UnusedSnippet",
      ∃ name : String, f.location.path.fileName = s!"snippets/{name}") ∧
    ∀ theme' : Theme, theme.templates.Perm theme'.templates → ∀ j,
      let b := analyze^[j + 1] (new theme' checks severity? autoCorrect)
      (a.foundBy "MissingTemplate").Perm (b.foundBy "MissingTemplate") ∧
        (a.foundBy "UnusedSnippet").Perm (b.foundBy "UnusedSnippet") := by
  intro a
  -- after any number of runs the checks have some memory left, which does not show in what they
  -- find
  obtain ⟨_, ⟨known', rfl⟩, hfound⟩ := exists_found_iterate
    (P := (∃ known, · = .missingTemplate known)) hon hmissing ⟨known, rfl⟩
    (fun _ es h => Check.exists_run_missingTemplate h es) severity? autoCorrect k
  obtain ⟨_, ⟨uses', rfl⟩, hfound'⟩ := exists_found_iterate
    (P := (∃ uses, · = .unusedSnippet uses)) hon hunused ⟨uses, rfl⟩
    (fun _ es h => Check.exists_run_unusedSnippet h es) severity? autoCorrect k
  refine ⟨fun p hp htag name => ?_, fun directory tags h name => ?_, fun f hf => ?_,
    fun name => ?_, fun f hf => ?_, fun theme' hperm j => ?_⟩
  · -- the argument is the text in quotes behind the tag's name
    obtain ⟨m, hstands, hspan, hname⟩ := Template.exists_markup (Theme.mem_tags.1 hp).2
    have hword : Liquid.IsWord p.2.typeName.toList := by
      have hall : ∀ tag ∈ ["render", "include", "section"], Liquid.IsWord tag.toList := by decide
      exact hall _ htag
    have hslice : p.1.source.slice p.2.markupSpan = m := by rw [hspan, hstands.slice]
    have hmarkup : p.2.markup p.1.source =
        Liquid.tagArguments p.2.typeName.toList (Liquid.trimMarkup m) := by
      obtain ⟨t, ⟨kind, span, markup, children⟩⟩ := p
      cases kind with
      | tag tag block => rw [← hslice]; rfl
      | _ => simp [Node.typeName] at htag
    rw [hslice, argument?, hmarkup]
    exact Liquid.stringArgument?_eq_some_iff_quotes hword hname
  · rw [← References.filter_run_missing known' theme h name]
    exact hfound.filter _
  · exact References.exists_named_of_mem_run_missing (hfound.mem_iff.1 hf)
  · rw [← References.filter_run_unused uses' theme name]
    exact hfound'.filter _
  · exact References.exists_name_of_mem_run_unused (hfound'.mem_iff.1 hf)
  · -- any order and any number of runs: both runs find what a first one would
    have hon' : theme'.Undisabled := fun t ht => hon t (hperm.mem_iff.2 ht)
    obtain ⟨_, ⟨known', rfl⟩, hother⟩ := exists_found_iterate
      (P := (∃ known, · = .missingTemplate known)) hon' hmissing ⟨known, rfl⟩
      (fun _ es h => Check.exists_run_missingTemplate h es) severity? autoCorrect j
    obtain ⟨_, ⟨uses', rfl⟩, hother'⟩ := exists_found_iterate
      (P := (∃ uses, · = .unusedSnippet uses)) hon' hunused ⟨uses, rfl⟩
      (fun _ es h => Check.exists_run_unusedSnippet h es) severity? autoCorrect j
    exact ⟨hfound.trans ((References.run_missing_perm hperm _ _).trans hother.symm),
      hfound'.trans ((References.run_unused_perm hperm _ _).trans hother'.symm)⟩

/-- A dash, both kinds of quotes, a snippet that is referred to before it comes, and a second run.
-/
theorem references_agree_again :
    let index : Template := ⟨⟨⟨"index.liquid"⟩, ("\x7b%- render 'card', a: 1 -%\x7d" ++
      "\x7b% if b %\x7d\x7b% section \"hero\" %\x7d\x7b% endif %\x7d").toList⟩, ⟨"index.liquid"⟩⟩
    let card : Template := ⟨⟨⟨"snippets/card.liquid"⟩, []⟩, ⟨"snippets/card.liquid"⟩⟩
    let old : Template := ⟨⟨⟨"snippets/old.liquid"⟩, []⟩, ⟨"snippets/old.liquid"⟩⟩
    let a := analyze^[2] (new ⟨⟨"."⟩, [index, card, old], []⟩
      [.missingTemplate [], .unusedSnippet .none] (fun _ => none) false)
    ((a.foundBy "MissingTemplate").filter
        (·.message == "'sections/hero.liquid' is not found")).Perm
      [index.toSourceFile.finding ⟨37, 57⟩ "'sections/hero.liquid' is not found" none] ∧
    ((a.foundBy "UnusedSnippet").filter (·.location.path.fileName == "snippets/card")).Perm [] ∧
    ((a.foundBy "UnusedSnippet").filter (·.location.path.fileName == "snippets/old")).Perm
      [old.toSourceFile.finding .zero "This template is not used" none] := by
  intro index card old a
  have hon : Theme.Undisabled ⟨⟨"."⟩, [index, card, old], []⟩ := by decide +kernel
  have hfirst : [.missingTemplate [], .unusedSnippet .none].filter (·.name == "MissingTemplate") =
      [Check.missingTemplate []] := rfl
  have hsecond : [.missingTemplate [], .unusedSnippet .none].filter (·.name == "UnusedSnippet") =
      [Check.unusedSnippet .none] := rfl
  obtain ⟨-, hmissing, -, hunused, -⟩ :=
    references_agree hfirst hsecond hon (fun _ => none) false 1
  have hhero := hmissing "sections" ["section"] (by simp [directories]) "hero"
  have hmessage : ∀ directory name : String, directory = "sections" → name = "hero" →
      notFound s!"{directory}/{name}" = "'sections/hero.liquid' is not found" := by
    rintro _ _ rfl rfl
    decide +kernel
  rw [hmessage _ _ rfl rfl] at hhero
  exact ⟨hhero.trans (.of_eq (by decide +kernel)), (hunused "card").trans (.of_eq (by decide +kernel)),
    (hunused "old").trans (.of_eq (by decide +kernel))⟩

end Analyzer

end LiquidLint
