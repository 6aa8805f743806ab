import LiquidLint.Proofs.Analyzer.Alone
import LiquidLint.Proofs.Analyzer.Correct
import LiquidLint.Setup

/-!
# Analyses have no memory

An analyzer keeps its checks from one call to the next, and with them what they remember of the last
theme they have seen. Each kind of memory is given up at another event: known and used names at the
start of a theme, assignments at the document of each template. `forget` is a check or an analyzer
without its memory. No event brings back what is forgotten (`Check.forget_next`), and what is reported
about a theme is the same without it (`Check.run_forget`). So calls of an analyzer change nothing but
its theme, as far as later analyses go (`forget_performAll`).

The trees of the templates are kept as well. They are given up where a template gets another source, so
after any number of calls each of them is that of the source of its template (`fresh_performAll`).
-/

namespace LiquidLint

/-! ### Checks -/

namespace Check

/-- The check without what it remembers. -/
def forget : Check → Check
  | .missingTemplate _ => .missingTemplate []
  | .unusedSnippet _ => .unusedSnippet .none
  | .unusedAssign _ => .unusedAssign .empty
  | c => c

theorem forget_next (c : Check) (e : Event) : (c.next e).forget = c.forget := by
  cases c with
  | missingTemplate known => cases e <;> rfl
  | _ => rfl

theorem forget_run (c : Check) (es : List Event) : (c.run es).1.forget = c.forget := by
  induction es generalizing c with
  | nil => rfl
  | cons e es ih =>
    rw [run, ih]
    exact c.forget_next e

theorem canDisable_forget (c : Check) : c.forget.canDisable = c.canDisable := by
  cases c <;> rfl

/-- **What is reported about a theme** does not depend on what is remembered. -/
theorem run_forget (c : Check) (theme : Theme) :
    (c.forget.run theme.events).2 = (c.run theme.events).2 := by
  cases c with
  | missingTemplate known =>
    -- the names are those of the theme from its first event on
    rfl
  | unusedSnippet uses => rfl
  | unusedAssign l =>
    -- assignments are given up at every document, so only what comes before the first one would
    -- see them, and nothing is reported there
    have hlocal : ∀ l : Assignments.Ledger, (Check.unusedAssign l).IsLocal := fun _ => trivial
    show ((Check.unusedAssign .empty).run theme.events).2 = _
    rw [(hlocal _).run_theme, (hlocal l).run_theme]
    refine List.flatMap_congr fun t _ => ?_
    exact (Alike.ledger .empty l).run_template t
  | _ => rfl

end Check

/-! ### Analyzers -/

/-- A check in use without what it remembers and what it has reported. -/
def Instance.forget (i : Instance) : Instance := { i with check := i.check.forget, offenses := [] }

namespace Analyzer

variable {a b : Analyzer} {tree tree' : FileTree}

/-- The analyzer without what is left of earlier calls. -/
def forget (a : Analyzer) : Analyzer :=
  { a with
    toCachedTheme := .ofTheme a.theme
    instances := a.instances.map Instance.forget
    offenses := [] }

theorem fresh_forget (a : Analyzer) : a.forget.Fresh := CachedTheme.fresh_ofTheme a.theme

theorem forget_withTheme (a : Analyzer) (theme : Theme) :
    (a.withTheme theme).forget = a.forget.withTheme theme := rfl

/-- An analysis leaves nothing behind but memories. -/
theorem forget_analyze (a : Analyzer) : a.analyze.forget = a.forget := by
  have hinstances : a.analyze.instances.map Instance.forget = a.instances.map Instance.forget := by
    show (a.instances.map fun i => i.run (a.theme.eventsOf a.parsed)).map Instance.forget = _
    rw [List.map_map]
    refine List.map_congr_left fun i _ => ?_
    show Instance.mk i.name i.severity (i.check.run (a.theme.eventsOf a.parsed)).1.forget [] = _
    rw [Check.forget_run]
    rfl
  show Analyzer.mk (.ofTheme a.theme) (a.analyze.instances.map Instance.forget) a.autoCorrect [] = _
  rw [hinstances]
  rfl

theorem isDisabled_forget (a : Analyzer) (disabled : List (Path × DisabledRanges)) (o : Offense) :
    a.forget.isDisabled disabled o = a.isDisabled disabled o := by
  have hinstance : a.forget.instance? o.check = (a.instance? o.check).map Instance.forget := by
    unfold instance? forget
    rw [List.find?_map]
    rfl
  unfold isDisabled
  rw [hinstance]
  cases a.instance? o.check with
  | none => rfl
  | some i =>
    have hcan : i.forget.check.canDisable = i.check.canDisable := i.check.canDisable_forget
    rw [Option.map_some]
    simp only [hcan]

/-- **An analysis does not depend on memories**, as long as no cell is stale. -/
theorem offenses_forget (h : a.Fresh) : a.forget.analyze.offenses = a.analyze.offenses := by
  have hfound : a.forget.found a.theme.events = a.found a.theme.events := by
    unfold found forget
    rw [List.flatMap_map]
    refine List.flatMap_congr fun i _ => ?_
    show ((i.check.forget.run a.theme.events).2).map i.offense = _
    rw [Check.run_forget]
  rw [offenses_analyze a.fresh_forget, offenses_analyze h, reported_eq, reported_eq]
  show List.mergeSort ((a.forget.found a.theme.events).filter _) _ = _
  rw [hfound]
  refine congrArg (fun l => List.mergeSort l Offense.le) (List.filter_congr fun o _ => ?_)
  rw [← isDisabled_forget a]
  rfl

/-- Analyzers with the same rules and themes report the same. -/
theorem offenses_of_forget (ha : a.Fresh) (hb : b.Fresh) (h : a.forget = b.forget) :
    a.analyze.offenses = b.analyze.offenses := by
  rw [← offenses_forget ha, h, offenses_forget hb]

/-- A correction changes the theme and the offenses only. -/
theorem forget_correct (a : Analyzer) (tree : FileTree) :
    (a.correct tree).1.forget = a.forget.withTheme (a.correct tree).1.theme := by
  unfold correct
  split
  · rfl
  · rfl

end Analyzer

/-! ### Calls -/

/-- A call of an analyzer. -/
inductive Call where
  /-- Looks at the theme. -/
  | analyze
  /-- Applies edits and writes files. -/
  | correct
deriving DecidableEq, Repr

namespace Call

/-- An analyzer and the files it works on. -/
abbrev State := Analyzer × FileTree

/-- What a call makes of an analyzer and of the files; nothing when a file cannot be written. -/
def perform (s : State) : Call → Option State
  | .analyze => some (s.1.analyze, s.2)
  | .correct =>
    match s.1.correct s.2 with
    | (_, _, .error (.theme _)) => none
    | (a, tree, _) => some (a, tree)

/-- What calls make of an analyzer and of the files, one after the other. -/
def performAll (s : State) (calls : List Call) : Option State := calls.foldlM perform s

variable {s s' : State} {calls : List Call} {call : Call}

/-- An analysis and a correction that succeeds. -/
theorem performAll_of_correct {a b : Analyzer} {tree tree' : FileTree} {summary : CorrectionSummary}
    (h : a.analyze.correct tree = (b, tree', .ok summary)) :
    performAll (a, tree) [.analyze, .correct] = some (b, tree') := by
  show (perform (a.analyze, tree) .correct).bind some = _
  unfold perform
  rw [h]
  rfl

/-- A correction that may be made was made. -/
theorem perform_correct (hauto : s.1.autoCorrect = true) (h : perform s .correct = some s') :
    ∃ summary, (s.1.correct s.2).2.2 = .ok summary ∧
      s' = ((s.1.correct s.2).1, (s.1.correct s.2).2.1) := by
  unfold perform at h
  obtain ⟨c, tree, result, happly⟩ :
      ∃ c tree result, Analyzer.applyEdits s.1.toCachedTheme s.2 ⟨0, 0, 0⟩ s.1.edits =
        (c, tree, result) := ⟨_, _, _, rfl⟩
  unfold Analyzer.correct at h ⊢
  rw [hauto, if_pos rfl, happly] at h ⊢
  cases result with
  | error e => cases h
  | ok summary => exact ⟨summary, rfl, (Option.some.inj h).symm⟩

/-- **What a call can do**: analyse, correct with all files written, or refuse to correct. -/
theorem perform_cases (h : perform s call = some s') :
    s' = (s.1.analyze, s.2) ∨
      (∃ summary, (s.1.correct s.2).2.2 = .ok summary ∧
        s' = ((s.1.correct s.2).1, (s.1.correct s.2).2.1)) ∨
      s' = s := by
  cases call with
  | analyze => exact .inl (Option.some.inj h).symm
  | correct =>
    cases hauto : s.1.autoCorrect with
    | true => exact .inr (.inl (perform_correct hauto h))
    | false =>
      have hrefused : s.1.correct s.2 = (s.1, s.2, .error .autoCorrectDisabled) := by
        unfold Analyzer.correct
        rw [hauto]
        rfl
      unfold perform at h
      rw [hrefused] at h
      exact .inr (.inr (Option.some.inj h).symm)

/-- What one call keeps is kept by any number of them. -/
theorem performAll_induction {P : State → Prop}
    (hstep : ∀ s call s', P s → perform s call = some s' → P s') (hstart : P s)
    (h : performAll s calls = some s') : P s' := by
  unfold performAll at h
  induction calls generalizing s with
  | nil =>
    obtain rfl := Option.some.inj h
    exact hstart
  | cons call calls ih =>
    rw [List.foldlM_cons] at h
    obtain ⟨s₁, hfirst, hrest⟩ := Option.bind_eq_some_iff.1 h
    exact ih (hstep s call s₁ hstart hfirst) hrest

theorem forget_perform (h : perform s call = some s') :
    s'.1.forget = s.1.forget.withTheme s'.1.theme := by
  rcases perform_cases h with rfl | ⟨summary, -, rfl⟩ | rfl
  · exact s.1.forget_analyze
  · exact s.1.forget_correct s.2
  · rfl

/-- **Calls leave nothing behind but memories and another theme.** -/
theorem forget_performAll (h : performAll s calls = some s') :
    s'.1.forget = s.1.forget.withTheme s'.1.theme := by
  refine performAll_induction (P := fun r => r.1.forget = s.1.forget.withTheme r.1.theme)
    (fun r call r' hr hcall => ?_) rfl h
  rw [forget_perform hcall, hr]
  rfl

theorem fresh_perform (hs : s.1.Fresh) (h : perform s call = some s') : s'.1.Fresh := by
  rcases perform_cases h with rfl | ⟨summary, -, rfl⟩ | rfl
  · exact Analyzer.fresh_analyze hs
  · exact Analyzer.fresh_correct hs s.2
  · exact hs

/-- **Calls leave no stale cell**: a tree that is kept is that of the source that its template has now,
after as many analyses and corrections as there may be. -/
theorem fresh_performAll (hs : s.1.Fresh) (h : performAll s calls = some s') : s'.1.Fresh :=
  performAll_induction (P := fun r => r.1.Fresh) (fun _ _ _ hr hcall => fresh_perform hr hcall) hs h

/-- **The next analysis** finds what the analyzer would have found in the theme at the start. -/
theorem offenses_of_performAll (hs : s.1.Fresh) (h : performAll s calls = some s') :
    s'.1.analyze.offenses = (s.1.withTheme s'.1.theme).analyze.offenses := by
  apply Analyzer.offenses_of_forget (fresh_performAll hs h) (s.1.fresh_withTheme s'.1.theme)
  rw [Analyzer.forget_withTheme]
  exact forget_performAll h

end Call

/-- **What a setup makes**: an analyzer for the theme it loads. -/
theorem Setup.exists_of_analyzer {s : Setup} {tree : FileTree} {a : Analyzer}
    (ha : s.analyzer tree = .ok a) : ∃ theme, s.loadTheme tree = .ok theme ∧
      a = Analyzer.new theme s.activeChecks s.severity? s.autoCorrect := by
  unfold analyzer at ha
  cases hload : s.loadTheme tree with
  | error e =>
    rw [hload] at ha
    cases ha
  | ok theme =>
    rw [hload] at ha
    exact ⟨theme, rfl, (Except.ok.inj ha).symm⟩

/-- A new analyzer has parsed nothing yet. -/
theorem Setup.fresh_of_analyzer {s : Setup} {tree : FileTree} {a : Analyzer}
    (ha : s.analyzer tree = .ok a) : a.Fresh := by
  obtain ⟨theme, -, rfl⟩ := exists_of_analyzer ha
  exact Analyzer.fresh_new ..

theorem Setup.analyzer_of_loadTheme {s : Setup} {tree : FileTree} {theme : Theme}
    (h : s.loadTheme tree = .ok theme) :
    s.analyzer tree = .ok (Analyzer.new theme s.activeChecks s.severity? s.autoCorrect) := by
  unfold analyzer
  rw [h]
  rfl

/-- A setup makes the same analyzer of another theme, but for the theme. -/
theorem Setup.analyzer_withTheme {s : Setup} {tree : FileTree} {a : Analyzer}
    (ha : s.analyzer tree = .ok a) (theme : Theme) (tree' : FileTree) :
    Setup.analyzer { s with theme := some theme } tree' = .ok (a.withTheme theme) := by
  obtain ⟨loaded, -, rfl⟩ := exists_of_analyzer ha
  rfl

end LiquidLint
