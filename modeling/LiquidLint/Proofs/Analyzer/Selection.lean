import LiquidLint.Proofs.Analyzer.Alone
import LiquidLint.Proofs.Config.Choice
import LiquidLint.Setup

/-!
# Checks do not influence each other

Every event of a theme is shown to all checks in turn. Each of them reacts with what it remembers
itself, so all of them end where each would have ended alone (`foldl_see`). What comes after that goes by
the name of a check: comments turn offenses off by the name of their check, and a severity is set by
name. Names are unique, and sorting is stable. So when fewer checks are chosen, exactly the offenses of
the others are missing from the report (`offenses_of_fewer`).
-/

namespace LiquidLint

/-! ### Events and checks in turn -/

namespace Instance

variable {severity? : String → Option Severity}

/-- The check without anything reported. -/
def cleared (i : Instance) : Instance := { i with offenses := [] }

/-- Shows the check one event. -/
def see (i : Instance) (e : Event) : Instance :=
  { i with check := i.check.next e, offenses := i.offenses ++ (i.check.findings e).map i.offense }

theorem foldl_see_eq (i : Instance) (es : List Event) :
    es.foldl see i =
      { i with
        check := (i.check.run es).1
        offenses := i.offenses ++ (i.check.run es).2.map i.offense } := by
  induction es generalizing i with
  | nil =>
    rw [List.foldl_nil, Check.run, List.map_nil, List.append_nil]
  | cons e es ih =>
    rw [List.foldl_cons, ih]
    show Instance.mk i.name i.severity _ ((i.offenses ++ _) ++ _) = _
    rw [List.append_assoc, Check.findings_run_cons, List.map_append]
    rfl

/-- **One event after the other, to all checks**, comes to the same as all events to one check after
the other. -/
theorem foldl_see (is : List Instance) (es : List Event) :
    es.foldl (fun is e => is.map fun i => i.see e) (is.map cleared) = is.map fun i => i.run es := by
  have hsplit : ∀ js : List Instance,
      es.foldl (fun is e => is.map fun i => i.see e) js = js.map fun j => es.foldl see j := by
    induction es with
    | nil =>
      intro js
      exact (List.map_id' js).symm
    | cons e es ih =>
      intro js
      rw [List.foldl_cons, ih, List.map_map]
      rfl
  rw [hsplit, List.map_map]
  refine List.map_congr_left fun i _ => ?_
  rw [Function.comp_apply, foldl_see_eq]
  rfl

/-! ### Severities -/

/-- A check with the severity that is set for it. -/
def ofSettings (severity? : String → Option Severity) (c : Check) : Instance :=
  { ofCheck c with severity := (severity? c.name).getD c.defaultSeverity }

/-- Severities are set for all checks when their names are unique. -/
theorem override_eq_map {checks : List Check} (hnodup : (checks.map (·.name)).Nodup)
    {done : List String} (hdone : ∀ c ∈ checks, c.name ∉ done) :
    override severity? done (checks.map ofCheck) = checks.map (ofSettings severity?) := by
  induction checks generalizing done with
  | nil => rfl
  | cons c checks ih =>
    obtain ⟨hfirst, hrest⟩ := List.nodup_cons.1 hnodup
    have hnew : done.contains (ofCheck c).name = false := by
      rw [Bool.eq_false_iff]
      exact fun h => hdone c (List.mem_cons_self ..) (List.contains_iff_mem.1 h)
    have hlater : ∀ d ∈ checks, d.name ∉ (ofCheck c).name :: done := by
      intro d hd hmem
      rcases List.mem_cons.1 hmem with hname | hmem
      · exact hfirst (List.mem_map.2 ⟨d, hd, hname⟩)
      · exact hdone d (List.mem_cons_of_mem _ hd) hmem
    rw [List.map_cons, override, hnew, ih hrest hlater]
    rfl

end Instance

namespace Analyzer

variable {a b : Analyzer} {theme : Theme} {p : String → Bool} {o : Offense}

theorem instances_new_eq {checks : List Check} (hnodup : (checks.map (·.name)).Nodup)
    (severity? : String → Option Severity) (autoCorrect : Bool) :
    (new theme checks severity? autoCorrect).instances =
      checks.map (Instance.ofSettings severity?) :=
  Instance.override_eq_map hnodup (by simp)

/-! ### Fewer checks -/

/-- The check behind a name is the same among fewer checks, if the name is among theirs. -/
theorem instance?_of_filter (h : a.instances = b.instances.filter (p ·.name)) {name : String}
    (hp : p name = true) : a.instance? name = b.instance? name := by
  unfold instance?
  rw [h, List.find?_filter]
  congr 1
  funext i
  by_cases hname : i.name = name
  · simp [hname, hp]
  · simp [hname]

theorem found_of_filter (h : a.instances = b.instances.filter (p ·.name)) (es : List Event) :
    a.found es = (b.found es).filter (p ·.check) := by
  unfold found
  rw [h, List.filter_flatMap]
  induction b.instances with
  | nil => rfl
  | cons i is ih =>
    -- offenses go by the name of their check
    have hname : ∀ o ∈ (i.check.run es).2.map i.offense, p o.check = p i.name := by
      intro o ho
      obtain ⟨f, -, rfl⟩ := List.mem_map.1 ho
      rfl
    by_cases hp : p i.name = true
    · have hall : ((i.check.run es).2.map i.offense).filter (p ·.check) =
          (i.check.run es).2.map i.offense :=
        List.filter_eq_self.2 fun o ho => (hname o ho).trans hp
      rw [List.filter_cons_of_pos (by exact hp), List.flatMap_cons, List.flatMap_cons, ih, hall]
    · have hnone : ((i.check.run es).2.map i.offense).filter (p ·.check) = [] := by
        refine List.filter_eq_nil_iff.2 fun o ho => ?_
        rw [hname o ho]
        exact hp
      rw [List.filter_cons_of_neg (by exact hp), List.flatMap_cons, ih, hnone, List.nil_append]

/-- **Fewer checks report what is theirs**, in the same order. -/
theorem offenses_of_filter (ha : a.Fresh) (hb : b.Fresh) (htheme : a.theme = b.theme)
    (h : a.instances = b.instances.filter (p ·.name)) :
    a.analyze.offenses = b.analyze.offenses.filter (p ·.check) := by
  have hdisabled : ∀ o : Offense, p o.check = true →
      a.isDisabled (disabledRanges b.theme) o = b.isDisabled (disabledRanges b.theme) o := by
    intro o hp
    unfold isDisabled
    rw [instance?_of_filter h hp]
  have hreported : a.reported = b.reported.filter (p ·.check) := by
    rw [reported_eq, reported_eq, htheme, found_of_filter h, List.filter_filter, List.filter_filter]
    refine List.filter_congr fun o _ => ?_
    by_cases hp : p o.check = true
    · rw [hdisabled o hp, Bool.and_comm]
    · simp [hp]
  rw [offenses_analyze ha, offenses_analyze hb, Offense.filter_sorted, hreported]

/-- An offense has the name and the severity of a check in use. -/
theorem exists_instance_of_mem (ha : a.Fresh) (ho : o ∈ a.analyze.offenses) :
    ∃ i ∈ a.instances, o.check = i.name ∧ o.severity = i.severity := by
  obtain ⟨⟨i, hi, f, -, rfl⟩, -⟩ := (mem_offenses_analyze ha).1 ho
  exact ⟨i, hi, rfl, rfl⟩

end Analyzer

/-! ### Configurations -/

namespace Setup

variable {s : Setup} {c d : Config} {tree : FileTree} {a : Analyzer}

/-- A setup that names no checks by hand has those that its configuration enables. -/
theorem analyzer_of_config (hchecks : s.checks = []) (c : Config) (tree : FileTree) :
    analyzer { s with config := some c } tree =
      (loadTheme { s with config := some c } tree).map fun theme =>
        Analyzer.new theme c.enabledChecks c.severity? s.autoCorrect := by
  have hactive : activeChecks { s with config := some c } = c.enabledChecks := by
    unfold activeChecks
    rw [hchecks]
    rfl
  unfold analyzer
  rw [hactive]
  rfl

/-- **Checks do not influence each other.** Of two configurations that differ in which checks they
choose, let one choose checks that the other chooses as well. Then an analysis with the fewer checks
reports what an analysis with the more checks reports about these, in the same order and with nothing
changed. What is reported is of checks that are chosen, with the severity that is set for the check,
else with its own. -/
theorem offenses_of_fewer (hchecks : s.checks = []) (hstandard : c.registry.Standard)
    (hsame : c.SameButChoice d) (hsubset : c.enabledNames ⊆ d.enabledNames)
    (ha : analyzer { s with config := some c } tree = .ok a) :
    ∃ b, analyzer { s with config := some d } tree = .ok b ∧
      a.analyze.offenses =
        b.analyze.offenses.filter (fun o => c.enabledNames.contains o.check) ∧
      ∀ o ∈ a.analyze.offenses, o.check ∈ c.enabledNames ∧
        ∃ check ∈ c.enabledChecks, check.name = o.check ∧
          o.severity = (c.severity? o.check).getD check.defaultSeverity := by
  rw [analyzer_of_config hchecks] at ha
  rw [analyzer_of_config hchecks]
  -- the choice does not matter for the theme, nor for the severities
  have hload : loadTheme { s with config := some d } tree =
      loadTheme { s with config := some c } tree := by
    unfold loadTheme themeRoot ignore
    simp only [Option.map_some, hsame.root, hsame.ignore]
  have hseverity : d.severity? = c.severity? := by
    funext name
    exact (hsame.severity? name).symm
  cases htheme : loadTheme { s with config := some c } tree with
  | error e =>
    rw [htheme] at ha
    cases ha
  | ok theme =>
    rw [htheme] at ha
    obtain rfl := Except.ok.inj ha
    have hnodup := Config.nodup_names_enabledChecks hstandard
    have hnodup' := Config.nodup_names_enabledChecks (hsame.registry ▸ hstandard)
    refine ⟨Analyzer.new theme d.enabledChecks d.severity? s.autoCorrect, ?_, ?_, fun o ho => ?_⟩
    · rw [hload, htheme]
      rfl
    · -- the instances of `c` are those of `d` that are enabled in `c`
      refine Analyzer.offenses_of_filter (Analyzer.fresh_new ..) (Analyzer.fresh_new ..) rfl ?_
      rw [Analyzer.instances_new_eq hnodup, Analyzer.instances_new_eq hnodup', List.filter_map,
        hsame.enabledChecks hstandard hsubset, hseverity]
      rfl
    · -- an offense belongs to an instance, and that comes from an enabled check
      obtain ⟨i, hi, hname, hsev⟩ := Analyzer.exists_instance_of_mem (Analyzer.fresh_new ..) ho
      rw [Analyzer.instances_new_eq hnodup] at hi
      obtain ⟨check, hcheck, rfl⟩ := List.mem_map.1 hi
      have hmem : check.name ∈ c.enabledNames := by
        rw [← Config.names_enabledChecks hstandard]
        exact List.mem_map.2 ⟨check, hcheck, rfl⟩
      rw [hname, hsev]
      exact ⟨hmem, check, hcheck, rfl, rfl⟩

/-- A check that is switched off and one of a category that is left out, beside two that stay. -/
theorem offenses_of_fewer_chosen :
    let theme : Theme := ⟨⟨"."⟩,
      [⟨⟨⟨"a.liquid"⟩, "\x7b\x7bx \x7d\x7d".toList⟩, ⟨"a.liquid"⟩⟩,
        ⟨⟨⟨"b.liquid"⟩, "\x7b% assign x = 1 %\x7d".toList⟩, ⟨"b.liquid"⟩⟩,
        ⟨⟨⟨"d.liquid"⟩, ['x']⟩, ⟨"d.liquid"⟩⟩], [⟨⟨⟨"c.json"⟩, ['x']⟩⟩]⟩
    let letters : PatternCheck := ⟨"Letters", .liquid, "", .style, "a letter",
      Regex.spans (.set .word), ["text"]⟩
    let declared : Registration := ⟨letters.name, letters.category, fun _ => .pattern letters⟩
    let registry : Registry := ⟨Registry.builtinChecks ++ [declared], Registry.builtin.defaults⟩
    let strict : Options := Options.set {} "severity" (.string "error")
    let d : Config :=
      { root := ⟨"."⟩, source := .default, ignore := [], registry
        merged := registry.names.map fun n => (n, if n = "Letters" then strict else {}) }
    let c := d.choose (fun name => name != "UnusedAssign") [] [.json]
    let s : Setup := { theme := some theme }
    ∃ a b, analyzer { s with config := some c } .empty = .ok a ∧
      analyzer { s with config := some d } .empty = .ok b ∧
      a.analyze.offenses =
        b.analyze.offenses.filter (fun o => c.enabledNames.contains o.check) ∧
      a.analyze.offenses.map (fun o => (o.check, o.severity)) =
        [("SpaceInsideBraces", .style), ("Letters", .error)] ∧
      b.analyze.offenses.map (·.check) =
        ["SpaceInsideBraces", "UnusedAssign", "ValidJson", "Letters"] := by
  intro theme letters declared registry strict d c s
  have hstandard : c.registry.Standard :=
    Registry.standard_builtin.register (.inr ⟨letters, rfl⟩) (by rfl)
  have hsubset : c.enabledNames ⊆ d.enabledNames := by
    have hall : ∀ name ∈ c.enabledNames, name ∈ d.enabledNames := by decide +kernel
    exact hall
  obtain ⟨b, hb, hoffenses, -⟩ := offenses_of_fewer (s := s) rfl hstandard
    (Config.sameButChoice_choose d _ _ _) hsubset rfl
  obtain rfl := Except.ok.inj hb
  have hsorted : (Analyzer.new theme d.enabledChecks d.severity? false).analyze.offenses =
      (Analyzer.new theme d.enabledChecks d.severity? false).reported :=
    Analyzer.offenses_of_pairwise (Analyzer.fresh_new ..) (by decide +kernel)
  refine ⟨_, _, rfl, hb, hoffenses, ?_, ?_⟩
  · rw [hoffenses]
    show List.map _ ((Analyzer.new theme d.enabledChecks d.severity? false).analyze.offenses.filter
      _) = _
    rw [hsorted]
    decide +kernel
  · show (Analyzer.new theme d.enabledChecks d.severity? false).analyze.offenses.map _ = _
    rw [hsorted]
    decide +kernel

end Setup

end LiquidLint
