import LiquidLint.Command.Run
import LiquidLint.Proofs.Theme.Reload
import LiquidLint.Regex.Parse

/-!
# Reports after corrections

A command that corrects a theme reads the settings and the theme again before it reports what is left.
Corrections write to templates only. As long as no template is a settings file as well, the same
configuration is read (`Config.ofSource_of_read`) and the theme that is loaded is the one in memory,
so the report is that of looking at the theme in memory once more.

`no_memory` says this of the command and of any calls of an analyzer. What files hold is said of
templates that held it at the start, each in a file of its own, as the templates of a loaded theme do;
of those that share a path only the first one is corrected (`source_stale_shared`).
-/

namespace LiquidLint

/-! ### Settings -/

theorem foldlM_congr {α β ε : Type} {f g : β → α → Except ε β} {l : List α} {b : β}
    (h : ∀ b, ∀ x ∈ l, f b x = g b x) : l.foldlM f b = l.foldlM g b := by
  induction l generalizing b with
  | nil => rfl
  | cons x l ih =>
    rw [List.foldlM_cons, List.foldlM_cons, h b x (List.mem_cons_self ..)]
    refine congrArg (g b x >>= ·) (funext fun b => ?_)
    exact ih fun b y hy => h b y (List.mem_cons_of_mem _ hy)

namespace Config

variable {tree tree' : FileTree} {source : SettingsSource} {start : Path} {r : Registry}

/-- The files that declare the checks of a settings file. -/
def required (tree : FileTree) (file : Path) : List Path :=
  ((Settings.ofFile tree file).toOption.elim [] (·.require)).map (baseDirectory file).join

/-- The files that are read for a configuration: the settings file and those that declare checks. -/
def files (tree : FileTree) (source : SettingsSource) : List Path :=
  source.path?.toList.flatMap fun file => file :: required tree file

theorem new_of_read [RegexEngine] {base : Path} {s : Settings}
    (h : ∀ p ∈ s.require.map base.join, tree'.read p = tree.read p) :
    new tree' base s r = new tree base s r := by
  have hrequire : requireAll tree' base r s.require = requireAll tree base r s.require := by
    refine foldlM_congr fun r file hfile => ?_
    have hread : Registry.readChecks tree' (base.join file) =
        Registry.readChecks tree (base.join file) := by
      unfold Registry.readChecks
      rw [h _ (List.mem_map.2 ⟨file, hfile, rfl⟩)]
    unfold Registry.registerFile
    rw [hread]
  unfold new
  rw [hrequire]

/-- **A configuration depends on its files only.** -/
theorem ofSource_of_read [RegexEngine] (h : ∀ p ∈ files tree source, tree'.read p = tree.read p) :
    ofSource tree' start source r = ofSource tree start source r := by
  unfold ofSource
  cases hfile : source.path? with
  | none => rfl
  | some file =>
    -- the settings file is one of the files that stay, and so are those it requires
    have hfiles : files tree source = file :: required tree file := by
      unfold files
      rw [hfile]
      exact List.append_nil _
    rw [hfiles] at h
    obtain ⟨hself, hrequired⟩ := List.forall_mem_cons.1 h
    have hsettings : Settings.ofFile tree' file = Settings.ofFile tree file := by
      unfold Settings.ofFile
      rw [hself]
    dsimp only
    rw [hsettings]
    cases hs : Settings.ofFile tree file with
    | error e => rfl
    | ok s =>
      have hnew : new tree' (baseDirectory file) s r = new tree (baseDirectory file) s r := by
        refine new_of_read fun p hp => hrequired p ?_
        unfold required
        rw [hs]
        exact hp
      show (new tree' (baseDirectory file) s r >>= _) = (new tree (baseDirectory file) s r >>= _)
      rw [hnew]

end Config

/-- The same settings file is found in trees of the same shape. -/
theorem SettingsSource.resolve_of_sameShape {tree tree' : FileTree}
    (h : FileTree.SameShape tree tree') (start : Path) (explicit : Option Path) :
    resolve tree' start explicit = resolve tree start explicit := by
  have hfile : tree'.isFile = tree.isFile := funext h.isFile
  unfold resolve
  rw [hfile]

/-! ### Analyzers -/

namespace Setup

variable {s : Setup} {tree tree' : FileTree} {a : Analyzer} {theme' : Theme}

/-- Without a theme of its own, a setup loads one. -/
theorem load_of_analyzer (hnone : s.theme = none) (ha : s.analyzer tree = .ok a) :
    Theme.load tree s.themeRoot s.ignore = .ok a.theme ∧
      a = Analyzer.new a.theme s.activeChecks s.severity? s.autoCorrect := by
  obtain ⟨theme, hload, rfl⟩ := exists_of_analyzer ha
  unfold loadTheme at hload
  rw [hnone] at hload
  exact ⟨hload, rfl⟩

/-- A theme that a setup has loaded is stored. -/
theorem stored_of_analyzer (htree : tree.Proper) (hnone : s.theme = none)
    (ha : s.analyzer tree = .ok a) : a.theme.Stored tree :=
  Theme.stored_of_load htree (load_of_analyzer hnone ha).1

/-- **A setup loads a saved theme** as it is in memory. -/
theorem loadTheme_of_saved (htree : tree.Proper) (hnone : s.theme = none)
    (ha : s.analyzer tree = .ok a) (hsaved : Theme.Saved a.theme tree theme' tree') :
    s.loadTheme tree' = .ok theme' := by
  unfold loadTheme
  rw [hnone]
  exact Theme.load_of_saved htree (load_of_analyzer hnone ha).1 hsaved

end Setup

/-! ### Steps of commands -/

namespace Command

/-- A step that succeeds with a value. -/
def Gives {α : Type} (x : Step α) (s : Session) (v : α) (s' : Session) : Prop :=
  x.run.run s = (.ok v, s')

section

variable {α β : Type} {x : Step α} {f : α → Step β} {s s' s'' : Session} {v : α} {w : β}

theorem Gives.bind (hx : Gives x s v s') (hf : Gives (f v) s' w s'') : Gives (x >>= f) s w s'' := by
  unfold Gives at hx hf ⊢
  rw [ExceptT.run_bind, StateT.run_bind, hx]
  exact hf

theorem gives_pure (v : α) (s : Session) : Gives (pure v) s v s := rfl

theorem gives_get (s : Session) : Gives get s s s := rfl

theorem gives_modify (f : Session → Session) (s : Session) : Gives (modify f) s () (f s) := rfl

theorem gives_attempt {ε : Type} {failure : ε → Failure} {result : Except ε α}
    (h : result = .ok v) : Gives (attempt failure result) s v s := by
  rw [h]
  rfl

end

variable {r : CheckRequest} {session : Session} {config : Config} {a : Analyzer}
  {summary : CorrectionSummary}

/-- What a request for a check is set up with. -/
def setup (r : CheckRequest) (config : Config) (autoCorrect : Bool) : Setup :=
  { config := some (config.withFilters r.only r.exclude), autoCorrect }

/-- The settings of a request. -/
def settings (tree : FileTree) (r : CheckRequest) : SettingsSource :=
  .resolve tree r.path r.config

theorem gives_analyzed [RegexEngine] {autoCorrect : Bool} {purpose : String}
    (hconfig : Config.ofSource session.tree r.path (settings session.tree r) .builtin = .ok config)
    (ha : (setup r config autoCorrect).analyzer session.tree = .ok a) :
    Gives (analyzed r autoCorrect purpose) session a.analyze session := by
  have hload : Gives (loadConfig r.path r.config) session config session :=
    (gives_get session).bind (gives_attempt hconfig)
  exact hload.bind ((gives_get session).bind ((gives_attempt ha).bind (gives_pure _ _)))

/-- The line that says how much was corrected. -/
def corrected (summary : CorrectionSummary) : String :=
  unlines ["Corrected " ++ toString summary.applied ++ " offense(s) in " ++
    toString summary.filesWritten ++ " file(s)"]

theorem gives_correctAll (hok : (a.correct session.tree).2.2 = .ok summary) :
    Gives (correctAll a) session ()
      ⟨(a.correct session.tree).2.1, session.errors ++ corrected summary⟩ :=
  (gives_get session).bind ((gives_modify _ _).bind ((gives_attempt hok).bind (gives_modify _ _)))

/-- A check that corrects reports what it finds in the files after that. -/
theorem gives_runCheck [RegexEngine] {last : Analyzer} {tree' : FileTree} (hauto : r.autoCorrect = true)
    (hconfig : Config.ofSource session.tree r.path (settings session.tree r) .builtin = .ok config)
    (ha : (setup r config true).analyzer session.tree = .ok a)
    (hok : (a.analyze.correct session.tree).2.2 = .ok summary)
    (htree : tree' = (a.analyze.correct session.tree).2.1)
    (hagain : Config.ofSource tree' r.path (settings tree' r) .builtin = .ok config)
    (hlast : (setup r config false).analyzer tree' = .ok last) :
    Gives (runCheck r) session
      (render last.analyze.report last.theme r.format r.failLevel,
        if last.analyze.report.hasOffensesAt r.failLevel then 1 else 0)
      ⟨tree', session.errors ++ corrected summary⟩ := by
  -- the first run analyses and corrects
  have hfirst : Gives (analyzed r true "Failed to load theme") session a.analyze session :=
    gives_analyzed hconfig ha
  have hcorrect := gives_correctAll hok
  rw [← htree] at hcorrect
  -- the second run has the same configuration and loads the theme again
  have hsecond : Gives (analyzed r false "Failed to reload theme")
      ⟨tree', session.errors ++ corrected summary⟩ last.analyze
      ⟨tree', session.errors ++ corrected summary⟩ :=
    gives_analyzed hagain hlast
  unfold runCheck
  rw [hauto]
  refine hfirst.bind ?_
  rw [if_pos rfl]
  exact hcorrect.bind (hsecond.bind (gives_pure _ _))

/-- **A command line that asks for corrections** prints the report of looking at the theme in memory
once more. -/
theorem run_of_calls [RegexEngine] {tree tree' : FileTree} {words : List String} {b : Analyzer}
    (htree : tree.Proper) (hparse : parse words = .ok (.check r)) (hauto : r.autoCorrect = true)
    (hconfig : Config.ofSource tree r.path (settings tree r) .builtin = .ok config)
    (ha : (setup r config true).analyzer tree = .ok a)
    (hapart : ∀ p ∈ Config.files tree (settings tree r), ∀ key, tree.resolve p = .ok key →
      ¬ a.theme.At tree key)
    (hcalls : Call.performAll (a, tree) [.analyze, .correct] = some (b, tree')) :
    ∃ summary, (a.analyze.correct tree).2.2 = .ok summary ∧
      run tree words =
        ({ code := if b.analyze.report.hasOffensesAt r.failLevel then 1 else 0
           output := render b.analyze.report b.theme r.format r.failLevel
           errors := corrected summary }, tree') := by
  obtain ⟨-, hnew⟩ := Setup.load_of_analyzer rfl ha
  have hstored : a.theme.Stored tree := Setup.stored_of_analyzer htree rfl ha
  have hsaved : Theme.Saved a.theme tree b.theme tree' := Call.saved_performAll hstored hcalls
  -- the second call is the correction that the command makes
  obtain ⟨summary, hok, hb⟩ : ∃ summary, (a.analyze.correct tree).2.2 = .ok summary ∧
      (b, tree') = ((a.analyze.correct tree).1, (a.analyze.correct tree).2.1) := by
    have hmay : a.autoCorrect = true := by
      rw [hnew]
      rfl
    have hcorrect : Call.perform (a.analyze, tree) .correct = some (b, tree') := by
      rw [← hcalls]
      exact (Option.bind_fun_some _).symm
    exact Call.perform_correct hmay hcorrect
  -- the same configuration is read
  have hagain : Config.ofSource tree' r.path (settings tree' r) .builtin = .ok config := by
    have hsource : settings tree' r = settings tree r :=
      SettingsSource.resolve_of_sameShape hsaved.rewritten.shape r.path r.config
    rw [hsource, Config.ofSource_of_read fun p hp => hsaved.rewritten.read (hapart p hp)]
    exact hconfig
  -- the theme in memory is loaded
  have hload : (setup r config false).loadTheme tree' = .ok b.theme :=
    Setup.loadTheme_of_saved (s := setup r config true) htree rfl ha hsaved
  have hreport : b.analyze.report = (Analyzer.new b.theme (setup r config false).activeChecks
      (setup r config false).severity? false).analyze.report := by
    show Report.mk b.analyze.offenses b.theme.templates.length = _
    rw [Call.offenses_of_performAll (Setup.fresh_of_analyzer ha) hcalls, hnew]
    rfl
  have hgives : Gives (runCheck r) { tree } _ _ :=
    gives_runCheck hauto hconfig ha hok (Prod.mk.inj hb).2 hagain (Setup.analyzer_of_loadTheme hload)
  have hsteps : (steps (.check r)).run.run { tree } =
      (.ok (render b.analyze.report b.theme r.format r.failLevel,
        if b.analyze.report.hasOffensesAt r.failLevel then 1 else 0),
        ⟨tree', "" ++ corrected summary⟩) := by
    rw [hreport]
    exact hgives
  refine ⟨summary, hok, ?_⟩
  unfold run
  rw [hparse]
  dsimp only
  rw [hsteps, String.empty_append]

/-- **Analyses have no memory.** Let an analyzer be set up and called any number of times, to analyse
or to correct, with all files written. The next analysis finds the offenses that an analyzer finds
which is newly set up for the theme in memory. No cell keeps a tree of an older source, and the trees
that the next analysis reads are those of the sources that the templates have now. Nothing else in the
theme has changed, so what was parsed of JSON files is what they hold. When templates held
what their files held at the start, they do so afterwards, and then these are the trees of what the
files hold. This is the case for a theme that was loaded, and loading it again gives the theme in
memory and so the same offenses. A command line that asks for corrections does so, with its settings
read again: unless a template is a settings file or declares checks, it prints the report of analysing
the theme in memory again, and its exit code is that of this report. -/
theorem no_memory [RegexEngine] {s : Setup} {tree tree' : FileTree} {a b : Analyzer} {calls : List Call}
    (ha : s.analyzer tree = .ok a) (hcalls : Call.performAll (a, tree) calls = some (b, tree')) :
    (∃ fresh, Setup.analyzer { s with theme := some b.theme } tree' = .ok fresh ∧
      b.analyze.offenses = fresh.analyze.offenses) ∧
    (b.Fresh ∧ (b.parsed = b.theme.templates.map fun t => (t, Liquid.parse t.source)) ∧
      b.theme = { a.theme with templates := b.theme.templates }) ∧
    (a.theme.Stored tree → ∀ t ∈ b.theme.templates, ∃ text,
      tree'.read t.path = .ok text ∧ t.source = text ∧ (t, Liquid.parse text) ∈ b.parsed) ∧
    (s.theme = none → tree.Proper → a.theme.Stored tree ∧
      ∃ fresh, s.analyzer tree' = .ok fresh ∧ fresh.theme = b.theme ∧
        b.analyze.offenses = fresh.analyze.offenses) ∧
    ∀ words r config, tree.Proper → parse words = .ok (.check r) → r.autoCorrect = true →
      Config.ofSource tree r.path (settings tree r) .builtin = .ok config →
      s = setup r config true → calls = [.analyze, .correct] →
      (∀ p ∈ Config.files tree (settings tree r), ∀ key, tree.resolve p = .ok key →
        ¬ a.theme.At tree key) →
      ∃ summary, (a.analyze.correct tree).2.2 = .ok summary ∧
        run tree words =
          ({ code := if b.analyze.report.hasOffensesAt r.failLevel then 1 else 0
             output := render b.analyze.report b.theme r.format r.failLevel
             errors := corrected summary }, tree') := by
  have hoffenses : b.analyze.offenses = (a.withTheme b.theme).analyze.offenses :=
    Call.offenses_of_performAll (Setup.fresh_of_analyzer ha) hcalls
  have hfresh : b.Fresh := Call.fresh_performAll (Setup.fresh_of_analyzer ha) hcalls
  refine ⟨⟨_, Setup.analyzer_withTheme ha b.theme tree', hoffenses⟩,
    ⟨hfresh, hfresh.parsed_eq, Call.theme_performAll hcalls⟩, fun hstored t ht => ?_,
    fun hnone htree => ?_, ?_⟩
  · -- what is read through its cell is what parsing gives, and the source is what the file holds
    have hsaved := Call.saved_performAll hstored hcalls
    refine ⟨t.source, hsaved.stored.read t ht, rfl, ?_⟩
    rw [hfresh.parsed_eq]
    exact List.mem_map.2 ⟨t, ht, rfl⟩
  · have hstored := Setup.stored_of_analyzer htree hnone ha
    have hload := Setup.loadTheme_of_saved htree hnone ha (Call.saved_performAll hstored hcalls)
    refine ⟨hstored, _, Setup.analyzer_of_loadTheme hload, rfl, ?_⟩
    rw [hoffenses, (Setup.load_of_analyzer hnone ha).2]
    rfl
  · intro words r config htree hparse hauto hconfig hs hcalls' hapart
    obtain rfl := hs
    obtain rfl := hcalls'
    exact run_of_calls htree hparse hauto hconfig ha hapart hcalls

/-- A theme with one flaw that is mended, beside an empty settings file. -/
theorem no_memory_mended :
    let tree : FileTree := { entries := [([".theme-check.yml"], .file (.text [])),
      (["a.liquid"], .file (.text "\x7b\x7bx \x7d\x7d".toList)), (["b.liquid"], .file (.text ['b']))] }
    let config : Config :=
      { root := ⟨"."⟩, source := .discovered ⟨"./.theme-check.yml"⟩, ignore := []
        registry := .builtin
        merged := Registry.builtin.names.map fun n => (n, Config.mergedOptions .builtin {} n) }
    let r : CheckRequest := { autoCorrect := true }
    ∃ a b tree' fresh, (setup r config true).analyzer tree = .ok a ∧
      Call.performAll (a, tree) [.analyze, .correct] = some (b, tree') ∧
      (setup r config true).analyzer tree' = .ok fresh ∧
      b.analyze.offenses = fresh.analyze.offenses ∧
      tree'.read ⟨"a.liquid"⟩ = .ok "\x7b\x7b x \x7d\x7d".toList ∧
      (∀ t ∈ b.theme.templates, tree'.read t.path = .ok t.source) ∧
      run tree ["check", "--auto-correct"] =
        ({ code := 0
           output := render b.analyze.report b.theme .text .error
           errors := corrected ⟨1, 1, 0⟩ }, tree') := by
  intro tree config r
  let t : Template := ⟨⟨⟨"a.liquid"⟩, "\x7b\x7bx \x7d\x7d".toList⟩, ⟨"a.liquid"⟩⟩
  let other : Template := ⟨⟨⟨"b.liquid"⟩, ['b']⟩, ⟨"b.liquid"⟩⟩
  let theme : Theme := ⟨⟨"."⟩, [t, other], []⟩
  let a := Analyzer.new theme (setup r config true).activeChecks (setup r config true).severity? true
  have hproper : tree.Proper := by decide +kernel
  have hsettings : settings tree r = .discovered ⟨"./.theme-check.yml"⟩ := by decide +kernel
  have hconfig : Config.ofSource tree r.path (settings tree r) .builtin = .ok config := by
    rw [hsettings]
    rfl
  -- the two templates are listed in order, and none of the JSON directories is there
  have ha : (setup r config true).analyzer tree = .ok a := by
    have hlist : Theme.list tree "." ".liquid".toList = [⟨"a.liquid"⟩, ⟨"b.liquid"⟩] := by
      have hsort : Theme.list tree "." ".liquid".toList =
          [⟨"a.liquid"⟩, ⟨"b.liquid"⟩].mergeSort Path.le := rfl
      rw [hsort]
      exact List.mergeSort_of_pairwise (by decide +kernel)
    have hload : Theme.load tree ⟨"."⟩ [] = .ok theme := by
      refine Theme.load_eq_ok_iff.2 ⟨[], rfl, ?_, ?_, ⟨[[], [], [], []], ?_, ?_⟩, rfl⟩
      · rw [hlist]
        decide +kernel
      · decide +kernel
      · decide +kernel
      · exact (List.mergeSort_nil ..).symm
    exact Setup.analyzer_of_loadTheme hload
  -- sorting does not compute, but what is reported is sorted already
  have hfresh : a.Fresh := Analyzer.fresh_new ..
  have hoffenses : a.analyze.offenses = a.reported :=
    Analyzer.offenses_of_pairwise hfresh (by decide +kernel)
  have hedits : a.analyze.edits = [(⟨"a.liquid"⟩, [.insert 2 " "])] := by
    unfold Analyzer.edits
    rw [hoffenses]
    decide +kernel
  have hpatch : Correction.applyAll t.source [.insert 2 " "] =
      ⟨"\x7b\x7b x \x7d\x7d".toList, 2, 1, 0⟩ := by
    rw [Correction.applyAll_of_increasing (List.pairwise_singleton _ _)]
    rfl
  -- one file is written
  let text : Text := "\x7b\x7b x \x7d\x7d".toList
  let tree' : FileTree := tree.put ["a.liquid"] (.file (.text text))
  let b : Analyzer := { a.analyze with
    toCachedTheme := a.analyze.setSource ⟨"a.liquid"⟩ text, offenses := a.analyze.uncorrectable }
  have hcorrect : a.analyze.correct tree = (b, tree', .ok ⟨1, 1, 0⟩) := by
    have hfound : theme.templateAt? ⟨"a.liquid"⟩ = some t := by decide +kernel
    have hwrite : tree.write t.path text = .ok tree' := by
      have hresolve : tree.resolve t.path = .ok ["a.liquid"] := by decide +kernel
      have hentry : tree.entry? ["a.liquid"] = some (.file (.text t.source)) := by decide +kernel
      exact FileTree.write_of_file hresolve hentry text
    exact Analyzer.correct_of_written rfl hedits hfound hpatch (by decide) hwrite
  have hcalls : Call.performAll (a, tree) [.analyze, .correct] = some (b, tree') :=
    Call.performAll_of_correct hcorrect
  -- nothing is left that makes the command fail
  have hleft : b.analyze.offenses = b.reported :=
    Analyzer.offenses_of_pairwise (Call.fresh_performAll hfresh hcalls) (by decide +kernel)
  have hcode : b.analyze.report.hasOffensesAt .error = false := by
    show Report.hasOffensesAt ⟨b.analyze.offenses, 2⟩ .error = false
    rw [hleft]
    decide +kernel
  have hapart : ∀ p ∈ Config.files tree (settings tree r), ∀ key, tree.resolve p = .ok key →
      ¬ a.theme.At tree key := by
    have hfiles : Config.files tree (settings tree r) = [⟨"./.theme-check.yml"⟩] := by
      rw [hsettings]
      decide +kernel
    have hresolve : tree.resolve ⟨"./.theme-check.yml"⟩ = .ok [".theme-check.yml"] := by
      decide +kernel
    -- the settings file is where no template is
    have hother : ∀ p ∈ theme.templates.map (·.path), tree.resolve p ≠ .ok [".theme-check.yml"] := by
      decide +kernel
    intro p hp key hkey hat
    rw [hfiles, List.mem_singleton] at hp
    obtain rfl := hp
    obtain rfl := Except.ok.inj (hresolve.symm.trans hkey)
    obtain ⟨q, hq, hqkey⟩ := hat
    exact hother q hq hqkey
  obtain ⟨-, -, hread, hreload, hrun⟩ := no_memory ha hcalls
  obtain ⟨hstored, fresh, hfresh, -, hsame⟩ := hreload rfl hproper
  obtain ⟨summary, hok, hout⟩ := hrun ["check", "--auto-correct"] r config hproper
    (by decide +kernel) rfl hconfig rfl rfl hapart
  rw [hcorrect] at hok
  obtain rfl := Except.ok.inj hok
  rw [hcode] at hout
  refine ⟨a, b, tree', fresh, ha, hcalls, hfresh, hsame, by decide +kernel, fun t ht => ?_, hout⟩
  obtain ⟨text, htext, rfl, -⟩ := hread hstored t ht
  exact htext

/-- **Templates that share a path** both hold what their file holds, and when it is corrected the
second one does no more. -/
theorem source_stale_shared :
    let t : Template := ⟨⟨⟨"a.liquid"⟩, "\x7b\x7bx \x7d\x7d".toList⟩, ⟨"a.liquid"⟩⟩
    let s : Setup :=
      { theme := some ⟨⟨"."⟩, [t, t], []⟩, checks := [.spaceInsideBraces], autoCorrect := true }
    let tree : FileTree := { entries := [(["a.liquid"], .file (.text t.source))] }
    ∃ a b tree', s.analyzer tree = .ok a ∧
      (∀ t ∈ a.theme.templates, tree.read t.path = .ok t.source) ∧
      Call.performAll (a, tree) [.analyze, .correct] = some (b, tree') ∧
      ¬ ∀ t ∈ b.theme.templates, tree'.read t.path = .ok t.source := by
  intro t s tree
  let theme : Theme := ⟨⟨"."⟩, [t, t], []⟩
  let a := Analyzer.new theme [.spaceInsideBraces] (fun _ => none) true
  have hread : ∀ t ∈ theme.templates, tree.read t.path = .ok t.source := by decide +kernel
  have hoffenses : a.analyze.offenses = a.reported :=
    Analyzer.offenses_of_pairwise (Analyzer.fresh_new ..) (by decide +kernel)
  have hedits : a.analyze.edits = [(⟨"a.liquid"⟩, [.insert 2 " ", .insert 2 " "])] := by
    unfold Analyzer.edits
    rw [hoffenses]
    decide +kernel
  have hpatch : Correction.applyAll t.source [.insert 2 " ", .insert 2 " "] =
      ⟨"\x7b\x7b x \x7d\x7d".toList, 2, 1, 0⟩ := by
    have htwins : Correction.NoTwins [.insert 2 " "] :=
      Correction.noTwins_of_tidy (by simp [Correction.Tidy])
    rw [Correction.applyAll_of_mem_iff t.source htwins (by simp),
      Correction.applyAll_of_increasing (List.pairwise_singleton _ _)]
    rfl
  have hfound : a.analyze.theme.templateAt? ⟨"a.liquid"⟩ = some t := by
    show theme.templateAt? _ = _
    decide +kernel
  have hfile : tree.isFile t.path = true := by decide +kernel
  obtain ⟨tree', hwrite, -⟩ := FileTree.write_of_isFile hfile "\x7b\x7b x \x7d\x7d".toList
  obtain ⟨b, hcorrect, hfirst, hsecond⟩ : ∃ b, a.analyze.correct tree = (b, tree', .ok ⟨1, 1, 0⟩) ∧
      t.setSource "\x7b\x7b x \x7d\x7d".toList ∈ b.theme.templates ∧ t ∈ b.theme.templates := by
    refine ⟨_, Analyzer.correct_of_written rfl hedits hfound hpatch (by decide) hwrite, ?_, ?_⟩
    · show _ ∈ (theme.setSource _ _).templates
      decide +kernel
    · show _ ∈ (theme.setSource _ _).templates
      decide +kernel
  have hcalls : Call.performAll (a, tree) [.analyze, .correct] = some (b, tree') :=
    Call.performAll_of_correct hcorrect
  refine ⟨a, b, tree', rfl, hread, hcalls, fun hall => ?_⟩
  -- one file does not hold two sources
  have hsame := (hall _ hfirst).symm.trans (hall t hsecond)
  have hne : "\x7b\x7b x \x7d\x7d".toList ≠ t.source := by decide +kernel
  exact hne (Except.ok.inj hsame)

end Command

end LiquidLint
