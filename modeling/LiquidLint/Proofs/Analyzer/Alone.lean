import LiquidLint.Proofs.Analyzer.Reports
import LiquidLint.Regex.Match

/-!
# Templates are analysed on their own

What an analysis with local checks reports about a template does not depend on the other files of the
theme: it is what an analysis of the template alone reports, in the same order (`analyze_alone`).
Three things could get in the way. A check could remember something of another template, which
`Check.IsLocal.run_theme` rules out. The comments of another template could be taken for those of this
one, which the paths rule out. And other offenses could change the order of these, which they do not,
since sorting is stable (`filter_mergeSort`).
-/

namespace LiquidLint

/-! ### Sorting -/

/-- **Sorting is stable**: what is picked from a sorted list is what is picked from the list,
sorted. -/
theorem filter_mergeSort {α : Type} (le : α → α → Bool)
    (htrans : ∀ a b c, le a b = true → le b c = true → le a c = true)
    (htotal : ∀ a b, (le a b || le b a) = true) (p : α → Bool) (l : List α) :
    (l.mergeSort le).filter p = (l.filter p).mergeSort le := by
  induction l with
  | nil => simp
  | cons a l ih =>
    obtain ⟨l₁, l₂, hcons, hl, h₁⟩ := List.mergeSort_cons htrans htotal a l
    rw [hl, List.filter_append] at ih
    by_cases ha : p a = true
    · rw [hcons, List.filter_append, List.filter_cons_of_pos ha, List.filter_cons_of_pos ha]
      obtain ⟨m₁, m₂, hcons', hm, hm₁⟩ := List.mergeSort_cons htrans htotal a (l.filter p)
      -- in both lists `a` stands behind what comes before it, and before the rest
      have hsorted := List.pairwise_mergeSort htrans htotal (a :: l)
      have hsorted' := List.pairwise_mergeSort htrans htotal (a :: l.filter p)
      rw [hcons] at hsorted
      rw [hcons'] at hsorted'
      have h₂ : ∀ b ∈ l₂.filter p, le a b = true := by
        intro b hb
        exact List.rel_of_pairwise_cons (List.pairwise_append.1 hsorted).2.1 (List.mem_filter.1 hb).1
      have hm₂ : ∀ b ∈ m₂, le a b = true := by
        intro b hb
        exact List.rel_of_pairwise_cons (List.pairwise_append.1 hsorted').2.1 hb
      have htake : ∀ {u v : List α}, (∀ b ∈ u, (!le a b) = true) → (∀ b ∈ v, le a b = true) →
          (u ++ v).takeWhile (!le a ·) = u := by
        intro u v hu hv
        rw [List.takeWhile_append_of_pos hu]
        cases v with
        | nil => simp
        | cons b v => rw [List.takeWhile_cons_of_neg (by simp [hv b]), List.append_nil]
      have heq : l₁.filter p ++ l₂.filter p = m₁ ++ m₂ := ih.trans hm
      have hleft : l₁.filter p = m₁ := by
        rw [← htake (fun b hb => h₁ b (List.mem_filter.1 hb).1) h₂, heq, htake hm₁ hm₂]
      have hright : l₂.filter p = m₂ := by
        rw [hleft] at heq
        exact List.append_cancel_left heq
      rw [hcons', hleft, hright]
    · rw [hcons, List.filter_append, List.filter_cons_of_neg ha, List.filter_cons_of_neg ha, ih]

theorem Location.compare_eq_lex : Location.compare =
    compareLex (fun a b => a.path.compare b.path) (compareLex (compareOn Location.start)
      (compareLex (compareOn Location.stop)
        (compareLex (compareOn Location.line) (compareOn Location.column)))) := rfl

instance : Std.TransCmp Location.compare := by
  have hpath : Std.TransCmp fun a b : Location => a.path.compare b.path :=
    transCmp_on Path.compare Location.path
  rw [Location.compare_eq_lex]
  infer_instance

namespace Offense

/-- The order of offenses. -/
def compare : Offense → Offense → Ordering :=
  compareLex (fun a b => a.location.compare b.location) (compareOn Offense.check)

instance : Std.TransCmp compare := by
  have hlocation : Std.TransCmp fun a b : Offense => a.location.compare b.location :=
    transCmp_on Location.compare Offense.location
  unfold compare
  infer_instance

theorem le_trans {a b c : Offense} (h1 : a.le b = true) (h2 : b.le c = true) : a.le c = true :=
  @Std.TransCmp.isLE_trans _ compare _ _ _ _ h1 h2

theorem le_total (a b : Offense) : (a.le b || b.le a) = true := by
  have h : compare b a = (compare a b).swap := Std.OrientedCmp.eq_swap
  show ((compare a b).isLE || (compare b a).isLE) = true
  rw [h]
  cases compare a b <;> rfl

/-- Offenses that are picked stay in the order in which they are reported. -/
theorem filter_sorted (p : Offense → Bool) (os : List Offense) :
    (os.mergeSort le).filter p = (os.filter p).mergeSort le :=
  filter_mergeSort le (fun _ _ _ => le_trans) le_total p os

end Offense

/-! ### One template of a theme -/

/-- What is found with a path is found in the files with that path. -/
theorem filter_flatMap_findings {α : Type} {path : α → Path} {findings : α → List Finding}
    (h : ∀ a, ∀ f ∈ findings a, f.location.path = path a) (p : Path) (as : List α) :
    (as.flatMap findings).filter (·.location.path.same p) =
      (as.filter fun a => (path a).same p).flatMap findings := by
  induction as with
  | nil => rfl
  | cons a as ih =>
    rw [List.flatMap_cons, List.filter_append, ih]
    by_cases hsame : (path a).same p = true
    · have hall : ∀ f ∈ findings a, f.location.path.same p = true := by
        intro f hf
        rw [h a f hf]
        exact hsame
      rw [List.filter_eq_self.2 hall, List.filter_cons_of_pos (by exact hsame), List.flatMap_cons]
    · have hnone : ∀ f ∈ findings a, ¬ f.location.path.same p = true := by
        intro f hf
        rw [h a f hf]
        exact hsame
      rw [List.filter_eq_nil_iff.2 hnone, List.filter_cons_of_neg (by exact hsame), List.nil_append]

/-- What a local check reports with the path of a template is what it reports about that template. -/
theorem Check.IsLocal.filter_run_theme {c : Check} {theme : Theme} {t : Template} (h : c.IsLocal)
    (hsole : theme.Sole t) :
    (c.run theme.events).2.filter (·.location.path.same t.relativePath) = (c.run t.events).2 := by
  rw [h.run_theme, filter_flatMap_findings fun s f hf => h.path_of_mem_run hf, hsole]
  exact List.append_nil _

namespace Analyzer

variable {a : Analyzer} {alone : Theme} {t : Template}

/-- Comments turn a check off whatever it has seen. -/
theorem isDisabled_run (a : Analyzer) (es : List Event) (disabled : List (Path × DisabledRanges))
    (o : Offense) :
    Analyzer.isDisabled { a with instances := a.instances.map fun i => i.run es } disabled o =
      a.isDisabled disabled o := by
  have hinstance : Analyzer.instance? { a with instances := a.instances.map fun i => i.run es }
      o.check = (a.instance? o.check).map fun i => i.run es := by
    unfold Analyzer.instance?
    rw [List.find?_map]
    rfl
  unfold Analyzer.isDisabled
  rw [hinstance]
  cases a.instance? o.check with
  | none => rfl
  | some i =>
    have hcan : (i.run es).check.canDisable = i.check.canDisable := Check.canDisable_run i.check es
    rw [Option.map_some]
    simp only [hcan]

/-- What the checks report about some events, check by check. -/
def found (a : Analyzer) (es : List Event) : List Offense :=
  a.instances.flatMap fun i => (i.check.run es).2.map i.offense

theorem reported_eq (a : Analyzer) : a.reported =
    (a.found a.theme.events).filter (!a.isDisabled (disabledRanges a.theme) ·) := by
  unfold reported found
  simp only [isDisabled_run, List.flatMap_map]
  rfl

theorem filter_found {theme : Theme} (hlocal : ∀ i ∈ a.instances, i.check.IsLocal)
    (hsole : theme.Sole t) :
    (a.found theme.events).filter (·.location.path.same t.relativePath) = a.found t.events := by
  unfold found
  rw [List.filter_flatMap]
  refine List.flatMap_congr fun i hi => ?_
  rw [List.filter_map]
  exact congrArg (List.map i.offense) ((hlocal i hi).filter_run_theme hsole)

theorem path_of_mem_found (hlocal : ∀ i ∈ a.instances, i.check.IsLocal) {o : Offense}
    (ho : o ∈ a.found t.events) : o.location.path = t.relativePath := by
  obtain ⟨i, hi, ho⟩ := List.mem_flatMap.1 ho
  obtain ⟨f, hf, rfl⟩ := List.mem_map.1 ho
  exact (hlocal i hi).path_of_mem_run hf

/-- What the checks report about a template and its comments do not turn off, check by check. -/
def reportedAbout (a : Analyzer) (t : Template) : List Offense :=
  (a.found t.events).filter fun o =>
    !(((a.instance? o.check).map (·.check.canDisable)).getD true &&
      t.isDisabled o.check o.location.start)

theorem filter_isDisabled {theme : Theme} (hlocal : ∀ i ∈ a.instances, i.check.IsLocal)
    (hsole : theme.Sole t) :
    (a.found t.events).filter (!a.isDisabled (disabledRanges theme) ·) = a.reportedAbout t := by
  refine List.filter_congr fun o ho => ?_
  rw [isDisabled_eq a hsole (path_of_mem_found hlocal ho)]

/-- What is reported with the path of a template is reported about the template. -/
theorem filter_reported (hlocal : ∀ i ∈ a.instances, i.check.IsLocal) (hsole : a.theme.Sole t) :
    a.reported.filter (·.location.path.same t.relativePath) = a.reportedAbout t := by
  -- both sides pick by the path and by the comments, in one order or the other
  rw [← filter_isDisabled hlocal hsole, ← filter_found hlocal hsole, reported_eq,
    List.filter_filter, List.filter_filter]
  exact List.filter_congr fun o _ => Bool.and_comm _ _

/-- With one template everything is reported about it. -/
theorem reported_of_templates (hlocal : ∀ i ∈ a.instances, i.check.IsLocal)
    (h : a.theme.templates = [t]) : a.reported = a.reportedAbout t := by
  have hdistinct : a.theme.Distinct := Theme.distinct_of_templates h
  have hfound : a.found a.theme.events = a.found t.events := by
    unfold found
    refine List.flatMap_congr fun i hi => ?_
    rw [(hlocal i hi).run_theme, h, List.flatMap_singleton]
  rw [reported_eq, hfound]
  exact filter_isDisabled hlocal (hdistinct.sole (by simp [h]))

/-- The same checks, looking at another theme. -/
def withTheme (a : Analyzer) (theme : Theme) : Analyzer := { a with toCachedTheme := .ofTheme theme }

theorem fresh_withTheme (a : Analyzer) (theme : Theme) : (a.withTheme theme).Fresh :=
  CachedTheme.fresh_ofTheme theme

theorem reportedAbout_withTheme (a : Analyzer) (theme : Theme) (t : Template) :
    (a.withTheme theme).reportedAbout t = a.reportedAbout t := rfl

/-- **Templates are analysed on their own**: in a theme without shared paths, what an analysis with
local checks reports about a template is what it reports when the template is the only one. The analyzer
may have been called before in any way, as calls leave no stale cell. -/
theorem analyze_alone (hfresh : a.Fresh) (hlocal : ∀ i ∈ a.instances, i.check.IsLocal)
    (hpaths : a.theme.Distinct) (ht : t ∈ a.theme.templates) (halone : alone.templates = [t]) :
    a.analyze.offenses.filter (·.location.path.same t.relativePath) =
      (a.withTheme alone).analyze.offenses := by
  have hlocal' : ∀ i ∈ (a.withTheme alone).instances, i.check.IsLocal := hlocal
  have htemplates : (a.withTheme alone).theme.templates = [t] := halone
  rw [offenses_analyze hfresh, offenses_analyze (a.fresh_withTheme alone), Offense.filter_sorted,
    filter_reported hlocal (hpaths.sole ht), reported_of_templates hlocal' htemplates,
    reportedAbout_withTheme]

/-- A template between one whose variables an included snippet may use and one that does not parse. -/
theorem analyze_alone_between :
    let t : Template := ⟨⟨⟨"b.liquid"⟩, "\x7b%assign x = 1%\x7da".toList⟩, ⟨"b.liquid"⟩⟩
    let alone : Theme := ⟨⟨"."⟩, [t], []⟩
    let theme : Theme := ⟨⟨"."⟩,
      [⟨⟨⟨"a.liquid"⟩, "\x7b% include 'c' %\x7d\x7b% assign x = 1 %\x7d".toList⟩, ⟨"a.liquid"⟩⟩, t,
        ⟨⟨⟨"c.liquid"⟩, "\x7b% if x %\x7d".toList⟩, ⟨"c.liquid"⟩⟩], []⟩
    let letters : PatternCheck := ⟨"Letters", .liquid, "", .style, "a letter",
      Regex.spans (.set .word), ["text"]⟩
    let a := new theme [.syntaxError, .templateLength 1, .spaceInsideBraces, .unknownFilter [],
      .unusedAssign .empty, .convertIncludeToRender, .pattern letters] (fun _ => none) false
    a.analyze.offenses.filter (·.location.path.same t.relativePath) =
        (a.withTheme alone).analyze.offenses ∧
      ∃ o ∈ (a.withTheme alone).analyze.offenses, o.check = "UnusedAssign" := by
  intro t alone theme letters a
  -- every check of the list is local, the pattern check among them
  have hlocal : ∀ i ∈ a.instances, i.check.IsLocal := by
    intro i hi
    have hcheck := (of_mem_instances_new hi).1
    simp only [List.mem_cons, List.not_mem_nil, or_false] at hcheck
    rcases hcheck with h | h | h | h | h | h | h <;> rw [h] <;> trivial
  have hpaths : a.theme.Distinct := by
    show List.Pairwise _ _
    decide +kernel
  have hreported : ∃ o ∈ (a.withTheme alone).reported, o.check = "UnusedAssign" := by decide +kernel
  obtain ⟨o, ho, hname⟩ := hreported
  refine ⟨analyze_alone (fresh_new ..) hlocal hpaths ?_ rfl, o, ?_, hname⟩
  · -- the other templates do not parse or have faults of their own, and none of that shows
    exact List.mem_cons_of_mem _ (List.mem_cons_self ..)
  · rw [offenses_analyze (a.fresh_withTheme alone)]
    exact List.mem_mergeSort.2 ho

end Analyzer

end LiquidLint
