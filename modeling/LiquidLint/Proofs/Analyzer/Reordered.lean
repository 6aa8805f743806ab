import LiquidLint.Proofs.Analyzer.Alone
import LiquidLint.Proofs.Theme.Order

/-!
# Files in another order

A theme can be made of files in any order. Its templates are sorted, and no two have the same path, so
they come in one order (`Theme.templates_ofFiles_of_perm`). Its JSON files stay as they are given. What
is reported about them is sorted by path afterwards, which leaves nothing of their order
(`mergeSort_eq_of_filter_path`), with one exception: locales are compared with the first default locale
there is. So the order of the files does not matter as long as it does not change the default locale
(`Analyzer.offenses_of_reordered`), and with two default locales it does
(`Analyzer.offenses_reordered_defaults`).
-/

namespace LiquidLint

/-! ### Sorting by path -/

section

variable {α : Type} (path : α → Path) {l m : List α}

/-- Lists in the order of paths are equal if they hold the same at each path. -/
theorem eq_of_filter_path (hl : l.Pairwise fun a b => (path a).le (path b) = true)
    (hm : m.Pairwise fun a b => (path a).le (path b) = true)
    (h : ∀ p, l.filter (fun a => (path a).same p) = m.filter fun a => (path a).same p) : l = m := by
  -- what is in one list is in the other, at its own path
  have hself : ∀ a : α, (path a).same (path a) = true := fun a => Path.same_iff.2 rfl
  have hmem : ∀ {l m : List α},
      (∀ p, l.filter (fun a => (path a).same p) = m.filter fun a => (path a).same p) →
        ∀ a ∈ l, a ∈ m := by
    intro l m h a ha
    have hfilter : a ∈ l.filter fun b => (path b).same (path a) := List.mem_filter.2 ⟨ha, hself a⟩
    rw [h] at hfilter
    exact (List.mem_filter.1 hfilter).1
  induction l generalizing m with
  | nil =>
    cases m with
    | nil => rfl
    | cons b m => cases hmem (fun p => (h p).symm) b List.mem_cons_self
  | cons a l ih =>
    cases m with
    | nil => cases hmem h a List.mem_cons_self
    | cons b m =>
      obtain ⟨hfirst, hrest⟩ := List.pairwise_cons.1 hl
      obtain ⟨hfirst', hrest'⟩ := List.pairwise_cons.1 hm
      have hle : ∀ p : Path, p.le p = true := fun p => by simpa using Path.le_total p p
      -- neither head comes after the other, so both have the same path, and are the first there
      have hab : (path a).le (path b) = true := by
        rcases List.mem_cons.1 (hmem (fun p => (h p).symm) b List.mem_cons_self) with rfl | hb
        · exact hle _
        · exact hfirst b hb
      have hba : (path b).le (path a) = true := by
        rcases List.mem_cons.1 (hmem h a List.mem_cons_self) with rfl | ha
        · exact hle _
        · exact hfirst' a ha
      have hsame : (path b).same (path a) = true := Path.same_iff.2 (Path.components_eq_of_le hba hab)
      have hheads := h (path a)
      rw [List.filter_cons_of_pos (by exact hself a), List.filter_cons_of_pos (by exact hsame)] at hheads
      obtain rfl := (List.cons.inj hheads).1
      refine congrArg (a :: ·) (ih hrest hrest' fun p => ?_)
      have htails := h p
      by_cases hp : (path a).same p = true
      · rw [List.filter_cons_of_pos (by exact hp), List.filter_cons_of_pos (by exact hp)] at htails
        exact (List.cons.inj htails).2
      · rw [List.filter_cons_of_neg (by exact hp), List.filter_cons_of_neg (by exact hp)] at htails
        exact htails

/-- **Sorting by path first** leaves nothing of the order of things at different paths. -/
theorem mergeSort_eq_of_filter_path {le : α → α → Bool}
    (htrans : ∀ a b c, le a b = true → le b c = true → le a c = true)
    (htotal : ∀ a b, (le a b || le b a) = true)
    (hpath : ∀ a b, le a b = true → (path a).le (path b) = true)
    (h : ∀ p, l.filter (fun a => (path a).same p) = m.filter fun a => (path a).same p) :
    l.mergeSort le = m.mergeSort le := by
  refine eq_of_filter_path path ?_ ?_ fun p => ?_
  · exact (List.pairwise_mergeSort htrans htotal l).imp fun {a b} => hpath a b
  · exact (List.pairwise_mergeSort htrans htotal m).imp fun {a b} => hpath a b
  · rw [filter_mergeSort le htrans htotal, filter_mergeSort le htrans htotal, h]

/-- Where no two things have the same path, there is at most one thing at each, in whatever order they
come. -/
theorem filter_path_of_perm (h : l.Perm m)
    (hl : l.Pairwise fun a b => (path a).same (path b) = false) (p : Path) :
    l.filter (fun a => (path a).same p) = m.filter fun a => (path a).same p := by
  have hperm := h.filter fun a => (path a).same p
  have hpairs := hl.filter fun a => (path a).same p
  have hmem : ∀ a ∈ l.filter (fun a => (path a).same p), (path a).components = p.components :=
    fun a ha => Path.same_iff.1 (List.mem_filter.1 ha).2
  generalize l.filter (fun a => (path a).same p) = picked at hperm hpairs hmem
  match picked with
  | [] => exact (List.nil_perm.1 hperm).symm
  | [a] => exact (List.perm_singleton.1 hperm.symm).symm
  | a :: b :: rest =>
    have hdiffer := List.rel_of_pairwise_cons hpairs List.mem_cons_self
    rw [Bool.eq_false_iff, ne_eq, Path.same_iff] at hdiffer
    exact absurd ((hmem a (by simp)).trans (hmem b (by simp)).symm) hdiffer

end

/-- Templates come in the order of their paths, whatever order they are given in. -/
theorem Theme.templates_ofFiles_of_perm {root : Path} {ts ts' : List Template} (h : ts.Perm ts')
    (hts : ts.Pairwise fun s t => s.relativePath.same t.relativePath = false)
    (js js' : List JsonFile) :
    (ofFiles root ts js).templates = (ofFiles root ts' js').templates :=
  mergeSort_eq_of_filter_path (fun t : Template => t.relativePath) (fun _ _ _ => Path.le_trans)
    (fun _ _ => Path.le_total _ _) (fun _ _ hle => hle) (filter_path_of_perm _ h hts)

/-! ### Checks of templates -/

namespace Check

variable {c : Check} {theme theme' : Theme}

/-- A check that looks at templates only. -/
def SeesTemplates : Check → Prop
  | .validJson => False
  | .matchingTranslations => False
  | .scripted _ => False
  | _ => True

theorem SeesTemplates.next (h : c.SeesTemplates) (e : Event) : (c.next e).SeesTemplates := by
  cases c with
  | missingTemplate known => cases e <;> trivial
  | validJson => cases h
  | matchingTranslations => cases h
  | scripted s => cases h
  | _ => trivial

theorem SeesTemplates.run (h : c.SeesTemplates) (es : List Event) : (c.run es).1.SeesTemplates := by
  induction es generalizing c with
  | nil => exact h
  | cons e es ih => exact ih (h.next e)

/-- JSON files pass such a check by. -/
theorem SeesTemplates.run_json (h : c.SeesTemplates) (js : List JsonFile) :
    c.run (js.map .onJson) = (c, []) := by
  induction js with
  | nil => rfl
  | cons f js ih =>
    have hnext : c.next (.onJson f) = c := by cases c <;> rfl
    have hfindings : c.findings (.onJson f) = [] := by
      cases c with
      | validJson => cases h
      | scripted s => cases h
      | _ => rfl
    rw [List.map_cons, Check.run, hnext, ih, hfindings]
    rfl

/-- Of a theme such a check sees the templates. -/
theorem SeesTemplates.eq_of_templates (h : c.SeesTemplates)
    (htemplates : theme.templates = theme'.templates) :
    c.next (.onTheme theme) = c.next (.onTheme theme') ∧
      c.findings (.onTheme theme) = c.findings (.onTheme theme') ∧
      c.findings (.onEnd theme) = c.findings (.onEnd theme') := by
  cases c with
  | missingTemplate known =>
    refine ⟨?_, rfl, rfl⟩
    show Check.missingTemplate (theme.templates.map _) = .missingTemplate (theme'.templates.map _)
    rw [htemplates]
  | unusedSnippet uses =>
    refine ⟨rfl, rfl, ?_⟩
    simp only [findings, References.unused, htemplates]
  | validJson => cases h
  | matchingTranslations => cases h
  | scripted s => cases h
  | _ => exact ⟨rfl, rfl, rfl⟩

theorem SeesTemplates.run_theme_congr (h : c.SeesTemplates)
    (htemplates : theme.templates = theme'.templates) :
    (c.run theme.events).2 = (c.run theme'.events).2 := by
  obtain ⟨hnext, hstart, -⟩ := h.eq_of_templates htemplates
  have hsplit : ∀ theme : Theme, (c.run theme.events).2 =
      c.findings (.onTheme theme) ++
        (((c.next (.onTheme theme)).run (theme.templates.flatMap Template.events)).2 ++
          (((c.next (.onTheme theme)).run (theme.templates.flatMap Template.events)).1.findings
            (.onEnd theme))) := by
    intro theme
    have hsees := (h.next (.onTheme theme)).run (theme.templates.flatMap Template.events)
    rw [Theme.events_eq, findings_run_cons, run_append, run_append, hsees.run_json]
    simp [Check.run]
  have hsees := (h.next (.onTheme theme')).run (theme'.templates.flatMap Template.events)
  rw [hsplit, hsplit, hstart, hnext, htemplates, (hsees.eq_of_templates htemplates).2.2]

/-! ### Checks of JSON files -/

/-- What a check reports that remembers nothing and has nothing to say about templates. -/
theorem run_theme_of_json (hnext : ∀ e, c.next e = c)
    (hskip : ∀ e : Event, e.template?.isSome = true → c.findings e = [])
    (hstart : c.findings (.onTheme theme) = []) : (c.run theme.events).2 =
      theme.jsonFiles.flatMap (fun f => c.findings (.onJson f)) ++ c.findings (.onEnd theme) := by
  have htemplates : (theme.templates.flatMap Template.events).flatMap c.findings = [] := by
    refine List.flatMap_eq_nil_iff.2 fun e he => hskip e ?_
    obtain ⟨t, -, he⟩ := List.mem_flatMap.1 he
    rw [Template.template?_of_mem_events he]
    rfl
  rw [run_eq_flatMap hnext, Theme.events_eq, List.flatMap_cons, hstart, List.flatMap_append,
    List.flatMap_append, htemplates, List.flatMap_map, List.flatMap_singleton]
  rfl

theorem path_of_mem_jsonFindings {f : JsonFile} {x : Finding} (h : x ∈ jsonFindings (.onJson f)) :
    x.location.path = f.relativePath := by
  cases mem_findings_iff.1 (show x ∈ validJson.findings (.onJson f) from h) with
  | validJson => rfl

end Check

namespace Translations

/-- The locale with which the others are compared: the first one that is a default. -/
def default? (js : List JsonFile) : Option JsonFile := (js.filter isLocale).find? isDefault

/-- All that is reported about locales is reported at the end. -/
theorem run_theme (theme : Theme) :
    (Check.matchingTranslations.run theme.events).2 = ofTheme theme := by
  rw [Check.run_theme_of_json (fun _ => rfl) (fun e he => by cases e <;> first | rfl | cases he) rfl]
  have hjson : (theme.jsonFiles.flatMap fun f => Check.matchingTranslations.findings (.onJson f)) = [] :=
    List.flatMap_eq_nil_iff.2 fun _ _ => rfl
  rw [hjson]
  rfl

theorem path_of_mem_compare {expected : List String} {f : JsonFile} {x : Finding}
    (h : x ∈ compare expected f) : x.location.path = f.relativePath := by
  obtain ⟨message, rfl⟩ := exists_of_mem_compare h
  rfl

/-- **Locales in another order** are reported with the same, file by file, if the default locale is the
same. -/
theorem filter_ofTheme {theme theme' : Theme} (hperm : theme.jsonFiles.Perm theme'.jsonFiles)
    (hpaths : theme.jsonFiles.Pairwise fun f g => f.relativePath.same g.relativePath = false)
    (hdefault : default? theme.jsonFiles = default? theme'.jsonFiles) (p : Path) :
    (ofTheme theme).filter (·.location.path.same p) =
      (ofTheme theme').filter (·.location.path.same p) := by
  unfold ofTheme
  dsimp only
  unfold default? at hdefault
  -- both themes have the same default locale, or none, and compare the other locales with it
  rw [hdefault]
  split
  · rfl
  · split
    · rfl
    · rw [filter_flatMap_findings fun f x hx => path_of_mem_compare hx,
        filter_flatMap_findings fun f x hx => path_of_mem_compare hx,
        filter_path_of_perm _ ((hperm.filter _).filter _) ((hpaths.filter _).filter _)]

end Translations

/-- **What a check reports about reordered files** is the same, file by file. -/
theorem Check.IsStandard.filter_run_theme {c : Check} {theme theme' : Theme} (h : c.IsStandard)
    (htemplates : theme.templates = theme'.templates)
    (hperm : theme.jsonFiles.Perm theme'.jsonFiles)
    (hpaths : theme.jsonFiles.Pairwise fun f g => f.relativePath.same g.relativePath = false)
    (hdefault : Translations.default? theme.jsonFiles = Translations.default? theme'.jsonFiles)
    (p : Path) : (c.run theme.events).2.filter (·.location.path.same p) =
      (c.run theme'.events).2.filter (·.location.path.same p) := by
  cases c with
  -- JSON files are looked at one by one, so each path has the same findings in any order
  | validJson =>
    have hrun : ∀ theme : Theme, (Check.validJson.run theme.events).2 =
        theme.jsonFiles.flatMap fun f => jsonFindings (.onJson f) := by
      intro theme
      rw [run_theme_of_json (fun _ => rfl) (fun e he => by cases e <;> first | rfl | cases he) rfl]
      exact List.append_nil _
    rw [hrun, hrun, filter_flatMap_findings fun f x hx => path_of_mem_jsonFindings hx,
      filter_flatMap_findings fun f x hx => path_of_mem_jsonFindings hx,
      filter_path_of_perm _ hperm hpaths]
  -- the locales are compared with the same default, each one by itself
  | matchingTranslations =>
    rw [Translations.run_theme, Translations.run_theme]
    exact Translations.filter_ofTheme hperm hpaths hdefault p
  | scripted s => cases h
  | _ => rw [SeesTemplates.run_theme_congr (by trivial) htemplates]

theorem Offense.path_le_of_le {a b : Offense} (h : a.le b = true) :
    a.location.path.le b.location.path = true := by
  unfold Offense.le Location.compare at h
  unfold Path.le
  cases hpath : a.location.path.compare b.location.path with
  | lt => rfl
  | eq => rfl
  | gt =>
    rw [hpath] at h
    cases h

namespace Analyzer

variable {a b : Analyzer}

/-- **Reports about reordered files** are equal, if the default locale is the same. -/
theorem offenses_of_reordered (ha : a.Fresh) (hb : b.Fresh)
    (hinstances : a.instances = b.instances)
    (hstandard : ∀ i ∈ a.instances, i.check.IsStandard)
    (htemplates : a.theme.templates = b.theme.templates)
    (hperm : a.theme.jsonFiles.Perm b.theme.jsonFiles)
    (hpaths : a.theme.jsonFiles.Pairwise fun f g => f.relativePath.same g.relativePath = false)
    (hdefault : Translations.default? a.theme.jsonFiles = Translations.default? b.theme.jsonFiles) :
    a.analyze.offenses = b.analyze.offenses := by
  have hdisabled : a.isDisabled (disabledRanges a.theme) = b.isDisabled (disabledRanges b.theme) := by
    funext o
    rw [disabledRanges_eq, disabledRanges_eq]
    unfold isDisabled instance?
    rw [hinstances, htemplates]
  have hfound : (a.found a.theme.events).mergeSort Offense.le =
      (b.found b.theme.events).mergeSort Offense.le := by
    refine mergeSort_eq_of_filter_path (fun o : Offense => o.location.path)
      (fun _ _ _ => Offense.le_trans) Offense.le_total (fun _ _ => Offense.path_le_of_le) fun p => ?_
    -- at one path each check reports the same
    unfold found
    rw [List.filter_flatMap, List.filter_flatMap, ← hinstances]
    refine List.flatMap_congr fun i hi => ?_
    rw [List.filter_map, List.filter_map]
    exact congrArg (List.map i.offense)
      ((hstandard i hi).filter_run_theme htemplates hperm hpaths hdefault p)
  rw [offenses_analyze ha, offenses_analyze hb, reported_eq, reported_eq, hdisabled,
    ← Offense.filter_sorted, ← Offense.filter_sorted, hfound]

/-- **The order in which files are given does not matter**, as long as the first default locale is the
same: a theme made of them has its templates in the order of their paths, and the same is reported about
it. A theme that is loaded has templates and JSON files in the order of their paths. -/
theorem analyze_reordered {root : Path} {ts ts' : List Template} {js js' : List JsonFile}
    {checks : List Check} {severity? : String → Option Severity} {autoCorrect : Bool}
    (hts : ts.Perm ts') (hjs : js.Perm js')
    (htemplates : ts.Pairwise fun s t => s.relativePath.same t.relativePath = false)
    (hjson : js.Pairwise fun f g => f.relativePath.same g.relativePath = false)
    (hchecks : ∀ c ∈ checks, c.IsStandard)
    (hdefault : Translations.default? js = Translations.default? js') :
    (new (.ofFiles root ts js) checks severity? autoCorrect).analyze.offenses =
        (new (.ofFiles root ts' js') checks severity? autoCorrect).analyze.offenses ∧
      (Theme.ofFiles root ts js).templates = (Theme.ofFiles root ts' js').templates ∧
      ((Theme.ofFiles root ts js).templates.Pairwise fun s t =>
        s.relativePath.le t.relativePath = true) ∧
      ∀ tree root ignore theme, FileTree.Proper tree → Theme.load tree root ignore = .ok theme →
        theme.Ordered := by
  have hsorted : (Theme.ofFiles root ts js).templates = (Theme.ofFiles root ts' js').templates :=
    Theme.templates_ofFiles_of_perm hts htemplates js js'
  refine ⟨?_, hsorted, Theme.pairwise_templates_ofFiles root ts js,
    fun tree root ignore theme htree h => Theme.ordered_of_load htree h⟩
  refine offenses_of_reordered (fresh_new ..) (fresh_new ..) rfl (fun i hi => ?_) hsorted hjs hjson hdefault
  exact hchecks _ (of_mem_instances_new hi).1

/-- Two templates and two locales, each in two orders, and three of these files in a directory. -/
theorem analyze_reordered_locales :
    let a : Template := ⟨⟨⟨"snippets/a.liquid"⟩, "\x7b% render 'b' %\x7d".toList⟩,
      ⟨"snippets/a.liquid"⟩⟩
    let b : Template := ⟨⟨⟨"b.liquid"⟩, "\x7b% render 'a' %\x7d".toList⟩, ⟨"b.liquid"⟩⟩
    let en : JsonFile := ⟨⟨⟨"locales/en.default.json"⟩, "\x7b\"a\": 1\x7d".toList⟩⟩
    let de : JsonFile := ⟨⟨⟨"locales/de.json"⟩, "\x7b\"b\": 1\x7d".toList⟩⟩
    let checks := Registry.builtin.allChecks
    let tree : FileTree := { entries := [(["snippets"], .directory), (["locales"], .directory),
      (["snippets", "a.liquid"], .file (.text a.source)), (["b.liquid"], .file (.text b.source)),
      (["locales", "de.json"], .file (.text de.source))] }
    let theme : Theme := ⟨⟨"."⟩, [b, a], [de]⟩
    (new (.ofFiles ⟨"."⟩ [a, b] [en, de]) checks (fun _ => none) false).analyze.offenses =
        (new (.ofFiles ⟨"."⟩ [b, a] [de, en]) checks (fun _ => none) false).analyze.offenses ∧
      (∃ o ∈ (new (.ofFiles ⟨"."⟩ [b, a] [de, en]) checks (fun _ => none) false).analyze.offenses,
        o.message = "Missing translation keys: a") ∧
      Theme.load tree ⟨"."⟩ [] = .ok theme ∧ theme.Ordered := by
  intro a b en de checks tree theme
  have hchecks : ∀ c ∈ checks, c.IsStandard := by
    intro c hc
    obtain ⟨r, hr, rfl⟩ := List.mem_map.1 hc
    exact (Registration.IsStandard.isStandard_make (.inl hr) _)
  obtain ⟨hoffenses, -, -, hordered⟩ := analyze_reordered (List.Perm.swap b a [])
    (List.Perm.swap de en []) (by decide +kernel) (by decide +kernel) hchecks (by decide +kernel)
  -- sorting does not compute, but the templates are in order already
  have htheme : Theme.ofFiles ⟨"."⟩ [b, a] [de, en] = ⟨⟨"."⟩, [b, a], [de, en]⟩ :=
    congrArg (fun ts => Theme.mk ⟨"."⟩ ts [de, en]) (List.mergeSort_of_pairwise (by decide +kernel))
  have hlist : Theme.list tree "." ".liquid".toList = [b.path, a.path] := by
    have hsort : Theme.list tree "." ".liquid".toList = [a.path, b.path].mergeSort Path.le := rfl
    have hperm : [a.path, b.path].mergeSort Path.le = [b.path, a.path].mergeSort Path.le :=
      mergeSort_eq_of_filter_path id (fun _ _ _ => Path.le_trans) Path.le_total (fun _ _ hle => hle)
        (filter_path_of_perm id (List.Perm.swap ..) (by decide +kernel))
    rw [hsort, hperm]
    exact List.mergeSort_of_pairwise (by decide +kernel)
  have hload : Theme.load tree ⟨"."⟩ [] = .ok theme := by
    refine Theme.load_eq_ok_iff.2 ⟨[], rfl, ?_, ?_,
      ⟨[[], [(de.relativePath, de.toSourceFile)], [], []], ?_, ?_⟩, rfl⟩
    · rw [hlist]
      decide +kernel
    · decide +kernel
    · decide +kernel
    · exact (List.mergeSort_singleton ..).symm
  refine ⟨hoffenses, ?_, hload, hordered tree ⟨"."⟩ [] theme (by decide +kernel) hload⟩
  rw [htheme, offenses_analyze (fresh_new ..)]
  simp only [List.mem_mergeSort]
  decide +kernel

/-- With two default locales the first one counts: files that are given in another order stay in that
order, and are reported differently. -/
theorem offenses_reordered_defaults :
    let en : JsonFile := ⟨⟨⟨"locales/en.default.json"⟩, "\x7b\"a\": 1\x7d".toList⟩⟩
    let fr : JsonFile := ⟨⟨⟨"locales/fr.default.json"⟩, "\x7b\"b\": 1\x7d".toList⟩⟩
    let de : JsonFile := ⟨⟨⟨"locales/de.json"⟩, "\x7b\"a\": 1\x7d".toList⟩⟩
    let checks := Registry.builtin.allChecks
    [de, en, fr].Perm [fr, en, de] ∧
      ([de, en, fr].Pairwise fun f g => f.relativePath.same g.relativePath = false) ∧
      (new (.ofFiles ⟨"."⟩ [] [de, en, fr]) checks (fun _ => none) false).analyze.offenses = [] ∧
      (∃ o ∈ (new (.ofFiles ⟨"."⟩ [] [fr, en, de]) checks (fun _ => none) false).analyze.offenses,
        o.location.path = ⟨"locales/de.json"⟩ ∧ o.message = "Missing translation keys: b") ∧
      ¬ (Theme.ofFiles ⟨"."⟩ [] [fr, en, de]).Ordered := by
  intro en fr de checks
  refine ⟨by decide +kernel, by decide +kernel, by decide +kernel, ?_, fun h => ?_⟩
  · rw [offenses_analyze (fresh_new ..)]
    simp only [List.mem_mergeSort]
    decide +kernel
  · have hjson : ¬ [fr, en, de].Pairwise fun f g => f.relativePath.le g.relativePath = true := by
      decide +kernel
    exact hjson h.jsonFiles

end Analyzer

end LiquidLint
