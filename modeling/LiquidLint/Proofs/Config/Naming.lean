import LiquidLint.Proofs.Config.Required
import LiquidLint.Proofs.Config.Resolution

/-!
# Names of declared checks

The options of a check stand in the settings under its name. Definition files accept every name made
of letters and digits, and settings have three keys of their own (`Settings.ownKeys`), which are such
names too. A declared check with any other name has the options that stand under its name, and is on or
off as they say; one with the name of such a key has none (`Settings.configurable_iff`).
-/

namespace LiquidLint

/-! ### Registries -/

namespace Registry

variable {r r' : Registry} {ps : List PatternCheck} {p : PatternCheck} {tree : FileTree} {path : Path}
  {source : Text}

/-- Checks are registered behind the others, or not at all. -/
theorem eq_withChecks_of_registerAll (h : ps.foldlM registerPattern r = .ok r') :
    r' = r.withChecks ps := by
  induction ps generalizing r with
  | nil =>
    rw [withChecks_nil]
    exact (Except.ok.inj h).symm
  | cons p ps ih =>
    rw [List.foldlM_cons] at h
    obtain ⟨next, hp, hps⟩ := exists_of_bind_eq_ok h
    by_cases hname : p.name ∈ r.names
    · rw [registerPattern_of_mem hname] at hp
      cases hp
    · rw [registerPattern_of_not_mem hname] at hp
      obtain rfl := Except.ok.inj hp
      rw [ih hps, ← withChecks_append]
      rfl

/-- A check that a file declares is registered with the file. -/
theorem mem_names_of_registerFile [RegexEngine] (hread : tree.read path = .ok source)
    (hload : PatternCheck.load source = .ok ps) (hp : p ∈ ps) (h : r.registerFile tree path = .ok r') :
    p.name ∈ r'.names := by
  have hloads : Loads tree path ps := ⟨source, hread, PatternCheck.load_eq_ok_iff.1 hload⟩
  unfold registerFile at h
  rw [readChecks_eq_ok_iff.2 hloads] at h
  obtain rfl := eq_withChecks_of_registerAll h
  rw [names_withChecks]
  exact List.mem_append_right _ (List.mem_map_of_mem hp)

end Registry

/-! ### Configurations -/

namespace Config

variable {c : Config} {tree : FileTree} {base : Path} {s : Settings} {r : Registry} {name : String}
  {o : Options} {on : Bool}

/-- Without required files there is a configuration. -/
theorem exists_new [RegexEngine] (hs : s.require = []) (tree : FileTree) (base : Path) (r : Registry) :
    ∃ c, new tree base s r = .ok c ∧ c.registry = r := by
  unfold new requireAll
  rw [hs, List.foldlM_nil]
  exact ⟨_, rfl, rfl⟩

/-- A new configuration lets all categories through. -/
theorem admits_of_new [RegexEngine] (h : new tree base s r = .ok c) (category : Category) :
    c.admits category = true := by
  obtain ⟨honly, hexclude⟩ := filters_of_new h
  rw [admits_iff, honly, hexclude]
  exact ⟨fun hne => absurd rfl hne, List.not_mem_nil⟩

/-- A registered check has a category, at least the one it is registered with. -/
theorem exists_category? (hname : name ∈ c.registry.names) :
    ∃ category, c.category? name = some category := by
  obtain ⟨registration, -, hfind, -⟩ := Registry.exists_find?_of_mem_names hname
  have hregistered : c.registry.category? name = some registration.category := by
    unfold Registry.category?
    rw [hfind]
    rfl
  unfold category?
  rw [hregistered]
  cases (c.options? name).bind (·.category?) with
  | none => exact ⟨_, rfl⟩
  | some category => exact ⟨category, rfl⟩

/-- **The flag of the settings counts**: a registered check is on or off as its options say. -/
theorem mem_enabledNames_iff [RegexEngine] (h : new tree base s r = .ok c)
    (hname : name ∈ c.registry.names) (ho : s.options? name = some o)
    (hproper : (YamlValue.mapping o.entries).Proper) (hon : o.enabled? = some on) :
    name ∈ c.enabledNames ↔ on = true := by
  -- what the settings say of the check is merged into its defaults
  have hoptions : c.options? name = some (((r.defaults? name).getD {}).merge o) := by
    rw [options?_of_new h, if_pos hname, ho]
  have henabled : (((r.defaults? name).getD {}).merge o).enabled? = some on := by
    unfold Options.enabled? Options.get? Options.merge at *
    rw [YamlValue.lookup_string_foldl_insert hproper]
    cases hv : YamlValue.lookup (.string "enabled") o.entries with
    | none =>
      rw [hv] at hon
      cases hon
    | some v =>
      rw [hv] at hon
      exact hon
  obtain ⟨category, hcategory⟩ := exists_category? hname
  have hflag : c.isEnabled name = on := by
    unfold isEnabled
    rw [hoptions]
    dsimp only
    rw [henabled, hcategory, Option.getD_some]
    dsimp only
    rw [admits_of_new h, Bool.and_true]
  unfold enabledNames
  rw [List.mem_filter, hflag]
  exact and_iff_right hname

end Config

/-! ### Settings -/

namespace Settings

variable {s : Settings} {m : List (YamlValue × YamlValue)} {name : String} {source : Text}
  {checks : List PatternCheck} {p : PatternCheck}

/-- The keys of settings that are no names of checks. -/
def ownKeys : List String := ["root", "require", "ignore"]

/-- A key that is none of these holds the options of a check. -/
theorem addEntry_of_not_mem (hname : name ∉ ownKeys) (v : YamlValue) :
    s.addEntry (.string name) v =
      (readOptions name v).map fun o => { s with checks := insertCheck name o s.checks } := by
  have hkey : (YamlValue.string name).string? = some name := rfl
  unfold addEntry
  rw [hkey]
  split
  · rename_i h
    cases h
  · rename_i h
    exact absurd (by simp [ownKeys, Option.some.inj h]) hname
  · rename_i h
    exact absurd (by simp [ownKeys, Option.some.inj h]) hname
  · rename_i h
    exact absurd (by simp [ownKeys, Option.some.inj h]) hname
  · rename_i h
    obtain rfl := Option.some.inj h
    cases readOptions name v <;> rfl

theorem readOptions_of_validate (h : Options.validate ⟨m⟩ name = .ok ()) :
    readOptions name (.mapping m) = .ok ⟨m⟩ := by
  show (Options.validate ⟨m⟩ name).map _ = _
  rw [h]
  rfl

/-- A mapping is no value for one of the own keys. -/
theorem ofMapping_of_mem (hname : name ∈ ownKeys) (m : List (YamlValue × YamlValue)) :
    ∃ expectation,
      ofMapping [(.string name, .mapping m)] = .error (.invalidValue name expectation) := by
  simp only [ownKeys, List.mem_cons, List.not_mem_nil, or_false] at hname
  rcases hname with rfl | rfl | rfl
  · exact ⟨"expected a path", rfl⟩
  · exact ⟨"expected a list of strings", rfl⟩
  · exact ⟨"expected a list of strings", rfl⟩

/-- Under any other key, options that are accepted are those of a check, and the only ones. -/
theorem ofMapping_of_not_mem (hname : name ∉ ownKeys) (hvalid : Options.validate ⟨m⟩ name = .ok ()) :
    ofMapping [(.string name, .mapping m)] = .ok { checks := [(name, ⟨m⟩)] } := by
  show (addEntry {} (.string name) (.mapping m) >>= pure) = _
  rw [addEntry_of_not_mem hname, readOptions_of_validate hvalid]
  rfl

/-- **Declared checks are configured under their names**, unless settings have a key of the same name
for themselves. -/
theorem configurable_iff [RegexEngine] (hload : PatternCheck.load source = .ok checks) (hp : p ∈ checks)
    (hm : (YamlValue.mapping m).Proper) (hvalid : Options.validate ⟨m⟩ p.name = .ok ()) :
    ((∃ s, ofMapping [(.string p.name, .mapping m)] = .ok s) ↔ p.name ∉ ownKeys) ∧
      (p.name ∈ ownKeys → ∃ expectation,
        ofMapping [(.string p.name, .mapping m)] = .error (.invalidValue p.name expectation)) ∧
      ∀ s, ofMapping [(.string p.name, .mapping m)] = .ok s →
        s = { checks := [(p.name, ⟨m⟩)] } ∧ s.options? p.name = some ⟨m⟩ ∧
          ∀ (tree : FileTree) (path base : Path) (r r' : Registry), tree.read path = .ok source →
            r.registerFile tree path = .ok r' →
              ∃ c, Config.new tree base s r' = .ok c ∧ c.registry = r' ∧
                ∀ on, Options.enabled? ⟨m⟩ = some on → (p.name ∈ c.enabledNames ↔ on = true) := by
  -- a name that settings keep for themselves is never read as that of a check
  have hrefused : p.name ∈ ownKeys → ∀ s, ofMapping [(.string p.name, .mapping m)] ≠ .ok s := by
    intro hname s hs
    obtain ⟨expectation, herror⟩ := ofMapping_of_mem hname m
    rw [herror] at hs
    cases hs
  refine ⟨⟨?_, fun hname => ⟨_, ofMapping_of_not_mem hname hvalid⟩⟩,
    fun hname => ofMapping_of_mem hname m, fun s hs => ?_⟩
  · rintro ⟨s, hs⟩ hname
    exact hrefused hname s hs
  · have hname : p.name ∉ ownKeys := fun hname => hrefused hname s hs
    obtain rfl := Except.ok.inj ((ofMapping_of_not_mem hname hvalid).symm.trans hs)
    -- any other name is, and the check is found under it
    have hoptions : options? { checks := [(p.name, ⟨m⟩)] } p.name = some ⟨m⟩ := by
      show List.lookup p.name [(p.name, _)] = _
      rw [List.lookup_cons_self]
    refine ⟨rfl, hoptions, fun tree path base r r' hread hfile => ?_⟩
    obtain ⟨c, hnew, hregistry⟩ :=
      Config.exists_new (s := { checks := [(p.name, ⟨m⟩)] }) rfl tree base r'
    have hmem : p.name ∈ c.registry.names := by
      rw [hregistry]
      exact Registry.mem_names_of_registerFile hread hload hp hfile
    refine ⟨c, hnew, hregistry, fun on hon => ?_⟩
    exact Config.mem_enabledNames_iff hnew hmem hoptions hm hon

/-- A declared check that the settings switch off. -/
theorem configurable_off :
    let source : Text := "name: A\ncategory: json\nmessage: m\npattern: x".toList
    let tree : FileTree := { entries := [(["a.yml"], .file (.text source))] }
    let m : List (YamlValue × YamlValue) := [(.string "enabled", .bool false)]
    ∃ p s r c, PatternCheck.load source = .ok [p] ∧ p.name = "A" ∧
      ofMapping [(.string "A", .mapping m)] = .ok s ∧ s.options? "A" = some ⟨m⟩ ∧
      Registry.registerFile {} tree ⟨"a.yml"⟩ = .ok r ∧ Config.new tree ⟨"."⟩ s r = .ok c ∧
      c.registry.names = ["A"] ∧ "A" ∉ c.enabledNames := by
  intro source tree m
  have hrun : (PatternCheck.load source).toOption.map (·.map (·.name)) = some ["A"] := by
    decide +kernel
  obtain ⟨checks, hload, hnames⟩ := Option.map_eq_some_iff.1 hrun
  obtain ⟨p, rest, rfl, hname, hrest⟩ := List.map_eq_cons_iff.1 hnames
  obtain rfl := List.map_eq_nil_iff.1 hrest
  replace hload := Config.eq_ok_of_toOption hload
  have hread : tree.read ⟨"a.yml"⟩ = .ok source := by decide +kernel
  have hfile : Registry.registerFile {} tree ⟨"a.yml"⟩ = .ok (Registry.withChecks {} [p]) := by
    refine Registry.registerFile_of_loads ⟨source, hread, PatternCheck.load_eq_ok_iff.1 hload⟩ ?_
    exact List.pairwise_singleton _ _
  have hm : (YamlValue.mapping m).Proper := by simp [m, YamlValue.Proper.string, YamlValue.Proper.bool]
  have hvalid : Options.validate ⟨m⟩ p.name = .ok () := rfl
  obtain ⟨haccepted, -, hslice⟩ := configurable_iff hload List.mem_cons_self hm hvalid
  obtain ⟨s, hs⟩ := haccepted.2 (by rw [hname]; decide)
  obtain ⟨-, hoptions, hconfig⟩ := hslice s hs
  obtain ⟨c, hc, hregistry, hflag⟩ := hconfig tree ⟨"a.yml"⟩ ⟨"."⟩ {} _ hread hfile
  rw [hname] at hs hoptions hflag
  refine ⟨p, s, _, c, hload, hname, hs, hoptions, hfile, hc, ?_, ?_⟩
  · rw [hregistry, Registry.names_withChecks]
    exact congrArg (fun n => [n]) hname
  · rw [hflag false rfl]
    decide

/-- A declared check with the name of a key that settings have for themselves. -/
theorem not_configurable_root :
    let source : Text := "name: root\ncategory: json\nmessage: m\npattern: x".toList
    let m : List (YamlValue × YamlValue) := [(.string "enabled", .bool false)]
    ∃ p, PatternCheck.load source = .ok [p] ∧ p.name = "root" ∧ Options.validate ⟨m⟩ p.name = .ok () ∧
      ofMapping [(.string p.name, .mapping m)] = .error (.invalidValue "root" "expected a path") := by
  intro source m
  have hrun : (PatternCheck.load source).toOption.map (·.map (·.name)) = some ["root"] := by
    decide +kernel
  obtain ⟨checks, hload, hnames⟩ := Option.map_eq_some_iff.1 hrun
  obtain ⟨p, rest, rfl, hname, hrest⟩ := List.map_eq_cons_iff.1 hnames
  obtain rfl := List.map_eq_nil_iff.1 hrest
  refine ⟨p, Config.eq_ok_of_toOption hload, hname, rfl, ?_⟩
  rw [hname]
  rfl

end Settings

end LiquidLint
