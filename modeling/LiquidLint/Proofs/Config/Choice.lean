import LiquidLint.Config
import LiquidLint.Proofs.Analyzer.Reports
import LiquidLint.Proofs.Yaml.Equality

/-!
# Choosing checks

A registry of built-in and declared checks has unique names, and a check made from a registration has
the name that it was registered with (`Registration.IsStandard.name_make`). Options say whether a check
runs, and with what settings it runs. These have nothing to do with each other: the flag `enabled` and
the category filters decide the first, and nothing that a check is made from depends on them. So the
checks of a configuration that enables fewer are some of the checks of one that enables more
(`Config.SameButChoice.enabledChecks`).
-/

namespace LiquidLint

/-! ### Registrations -/

/-- A registration of a built-in check or of a declared one. -/
def Registration.IsStandard (r : Registration) : Prop :=
  r ∈ Registry.builtinChecks ∨ ∃ p : PatternCheck, r = ⟨p.name, p.category, fun _ => .pattern p⟩

namespace Registration.IsStandard

variable {r : Registration} {o o' : Options}

/-- A check has the name that it is registered with. -/
theorem name_make (h : r.IsStandard) (o : Options) : (r.make o).name = r.name := by
  rcases h with h | ⟨p, rfl⟩
  · simp only [Registry.builtinChecks, List.mem_cons, List.not_mem_nil, or_false] at h
    rcases h with rfl | rfl | rfl | rfl | rfl | rfl | rfl | rfl | rfl | rfl <;> rfl
  · rfl

theorem isStandard_make (h : r.IsStandard) (o : Options) : (r.make o).IsStandard := by
  rcases h with h | ⟨p, rfl⟩
  · simp only [Registry.builtinChecks, List.mem_cons, List.not_mem_nil, or_false] at h
    rcases h with rfl | rfl | rfl | rfl | rfl | rfl | rfl | rfl | rfl | rfl <;> trivial
  · trivial

/-- Whether a check is switched on does not matter to what it is made into. -/
theorem make_eq (h : r.IsStandard) (hsame : ∀ key, key ≠ "enabled" → o.get? key = o'.get? key) :
    r.make o = r.make o' := by
  have hlength : Registry.maxLength o = Registry.maxLength o' := by
    unfold Registry.maxLength Options.integer
    rw [hsame "max_length" (by decide)]
  have hfilters : o.strings "ignore_filters" = o'.strings "ignore_filters" := by
    unfold Options.strings
    rw [hsame "ignore_filters" (by decide)]
  rcases h with h | ⟨p, rfl⟩
  · simp only [Registry.builtinChecks, List.mem_cons, List.not_mem_nil, or_false] at h
    rcases h with rfl | rfl | rfl | rfl | rfl | rfl | rfl | rfl | rfl | rfl
    case inr.inl => exact congrArg Check.templateLength hlength
    case inr.inr.inr.inl => exact congrArg Check.unknownFilter hfilters
    all_goals rfl
  · rfl

end Registration.IsStandard

/-! ### Registries -/

/-- A computation succeeds when both of its steps do. -/
theorem exists_of_bind_eq_ok {α β ε : Type} {x : Except ε α} {f : α → Except ε β} {b : β}
    (h : x >>= f = .ok b) : ∃ a, x = .ok a ∧ f a = .ok b := by
  cases x with
  | error e => cases h
  | ok a => exact ⟨a, rfl, h⟩

theorem bind_eq_ok {α β ε : Type} {x : Except ε α} {f : α → Except ε β} {a : α} {b : β}
    (hx : x = .ok a) (hf : f a = .ok b) : x >>= f = .ok b := by
  rw [hx]
  exact hf

/-- Computations that all succeed, with their results. -/
theorem mapM_eq_ok_iff {α β ε : Type} {f : α → Except ε β} {as : List α} {bs : List β} :
    as.mapM f = .ok bs ↔ List.Forall₂ (fun a b => f a = .ok b) as bs := by
  induction as generalizing bs with
  | nil =>
    rw [List.forall₂_nil_left_iff]
    exact ⟨fun h => (Except.ok.inj h).symm, fun h => congrArg Except.ok h.symm⟩
  | cons a as ih =>
    rw [List.mapM_cons]
    constructor
    · intro h
      obtain ⟨b, hb, h⟩ := exists_of_bind_eq_ok h
      obtain ⟨bs', hbs, h⟩ := exists_of_bind_eq_ok h
      obtain rfl := Except.ok.inj h
      exact .cons hb (ih.1 hbs)
    · rintro (_ | ⟨hb, hbs⟩)
      exact bind_eq_ok hb (bind_eq_ok (ih.2 hbs) rfl)

/-- What holds at the start and after each step that succeeds holds at the end. -/
theorem of_foldlM_eq_ok_of_mem {α β ε : Type} {P : β → Prop} {f : β → α → Except ε β} {l : List α}
    (hstep : ∀ b, ∀ a ∈ l, ∀ b', P b → f b a = .ok b' → P b') {b b' : β} (hstart : P b)
    (h : l.foldlM f b = .ok b') : P b' := by
  induction l generalizing b with
  | nil =>
    obtain rfl := Except.ok.inj h
    exact hstart
  | cons a l ih =>
    rw [List.foldlM_cons] at h
    obtain ⟨b₁, hfirst, hrest⟩ := exists_of_bind_eq_ok h
    exact ih (fun b a' ha' => hstep b a' (List.mem_cons_of_mem _ ha'))
      (hstep b a List.mem_cons_self b₁ hstart hfirst) hrest

theorem of_foldlM_eq_ok {α β ε : Type} {P : β → Prop} {f : β → α → Except ε β}
    (hstep : ∀ b a b', P b → f b a = .ok b' → P b') {l : List α} {b b' : β} (hstart : P b)
    (h : l.foldlM f b = .ok b') : P b' :=
  of_foldlM_eq_ok_of_mem (fun b a _ => hstep b a) hstart h

namespace Registry

/-- A registry of built-in and declared checks with unique names. -/
structure Standard (r : Registry) : Prop where
  isStandard : ∀ c ∈ r.registrations, c.IsStandard
  nodup : r.names.Nodup

theorem standard_builtin : builtin.Standard := ⟨fun _ hc => .inl hc, by decide +kernel⟩

variable {r r' : Registry} {tree : FileTree} {path : Path} {name : String}

/-- Names stay unique when a check is registered. -/
theorem Standard.register (h : r.Standard) {c : Registration} (hc : c.IsStandard)
    (hok : r.register c = .ok r') : r'.Standard := by
  unfold Registry.register at hok
  split at hok
  · cases hok
  · rename_i hnew
    obtain rfl := Except.ok.inj hok
    refine ⟨fun d hd => ?_, ?_⟩
    · rcases List.mem_append.1 hd with hd | hd
      · exact h.isStandard d hd
      · rw [List.mem_singleton.1 hd]
        exact hc
    · have hnames : names { r with registrations := r.registrations ++ [c] } =
          r.names ++ [c.name] := List.map_append
      rw [hnames]
      refine List.nodup_append.2 ⟨h.nodup, List.pairwise_singleton _ _, ?_⟩
      rintro n hn _ hm rfl
      rw [List.mem_singleton.1 hm] at hn
      exact hnew (List.contains_iff_mem.2 hn)

/-- Definition files declare checks only. -/
theorem Standard.registerFile [RegexEngine] (h : r.Standard) (hok : r.registerFile tree path = .ok r') :
    r'.Standard := by
  obtain ⟨checks, -, hfold⟩ := exists_of_bind_eq_ok hok
  exact of_foldlM_eq_ok (fun r p r' hr hp => hr.register (.inr ⟨p, rfl⟩) hp) h hfold

/-- A name that is registered is found, with its registration. -/
theorem exists_find?_of_mem_names (h : name ∈ r.names) :
    ∃ c ∈ r.registrations, r.find? name = some c ∧ c.name = name := by
  obtain ⟨c, hc, hname⟩ := List.mem_map.1 h
  have hsome : (r.find? name).isSome = true :=
    List.find?_isSome.2 ⟨c, hc, by simpa using hname⟩
  obtain ⟨d, hd⟩ := Option.isSome_iff_exists.1 hsome
  exact ⟨d, List.mem_of_find?_eq_some hd, hd, by simpa using List.find?_some hd⟩

end Registry

/-! ### Configurations -/

/-- Setting one option leaves the others. -/
theorem Options.get?_set_of_ne (o : Options) {key other : String} (h : key ≠ other)
    (v : YamlValue) : (o.set other v).get? key = o.get? key := by
  have hsame : YamlValue.same (.string key) (.string other) = false := by
    simpa [YamlValue.same] using h
  show YamlValue.lookup _ (YamlValue.insert _ v o.entries) = YamlValue.lookup _ o.entries
  rw [YamlValue.lookup_string_insert, hsame]
  rfl

namespace Config

variable {c d : Config} {tree : FileTree} {base start : Path} {s : Settings}
  {source : SettingsSource} {r : Registry} {name : String}

theorem standard_of_new [RegexEngine] (h : r.Standard) (hok : new tree base s r = .ok c) :
    c.registry.Standard := by
  obtain ⟨registry, hrequire, hc⟩ := exists_of_bind_eq_ok hok
  obtain rfl := Except.ok.inj hc
  exact of_foldlM_eq_ok (fun r file r' hr hfile => hr.registerFile hfile) h hrequire

/-- **Configurations have the checks they start with and declared ones.** -/
theorem standard_of_ofSource [RegexEngine] (h : r.Standard)
    (hok : ofSource tree start source r = .ok c) :
    c.registry.Standard := by
  unfold ofSource at hok
  cases hpath : source.path? with
  | none =>
    rw [hpath] at hok
    obtain ⟨config, hnew, hc⟩ := exists_of_bind_eq_ok hok
    have hstandard := standard_of_new h hnew
    obtain rfl := Except.ok.inj hc
    exact hstandard
  | some file =>
    rw [hpath] at hok
    obtain ⟨settings, -, hrest⟩ := exists_of_bind_eq_ok hok
    obtain ⟨config, hnew, hc⟩ := exists_of_bind_eq_ok hrest
    have hstandard := standard_of_new h hnew
    obtain rfl := Except.ok.inj hc
    exact hstandard

/-- A check as its options make it. -/
def check? (c : Config) (name : String) : Option Check :=
  (c.options? name).bind (c.registry.instantiate? name)

theorem enabledChecks_eq (c : Config) : c.enabledChecks = c.enabledNames.filterMap c.check? := rfl

theorem exists_registration_of_check? {x : Check} (h : c.check? name = some x) :
    ∃ r ∈ c.registry.registrations, r.name = name ∧ ∃ o, c.options? name = some o ∧
      x = r.make o := by
  obtain ⟨o, ho, hx⟩ := Option.bind_eq_some_iff.1 h
  obtain ⟨r, hr, rfl⟩ := Option.map_eq_some_iff.1 hx
  exact ⟨r, List.mem_of_find?_eq_some hr, by simpa using List.find?_some hr, o, ho, rfl⟩

theorem name_of_check? (h : c.registry.Standard) {x : Check} (hx : c.check? name = some x) :
    x.name = name := by
  obtain ⟨r, hr, hname, o, -, rfl⟩ := exists_registration_of_check? hx
  rw [(h.isStandard r hr).name_make, hname]

/-- The checks that a configuration enables are built in or declared. -/
theorem isStandard_of_mem_enabledChecks (h : c.registry.Standard) {x : Check}
    (hx : x ∈ c.enabledChecks) : x.IsStandard := by
  obtain ⟨name, -, hx⟩ := List.mem_filterMap.1 hx
  obtain ⟨r, hr, -, o, -, rfl⟩ := exists_registration_of_check? hx
  exact (h.isStandard r hr).isStandard_make o

theorem exists_options_of_isEnabled (h : c.isEnabled name = true) :
    ∃ o, c.options? name = some o := by
  unfold isEnabled at h
  split at h
  · cases h
  · rename_i o ho
    exact ⟨o, ho⟩

/-- **Every enabled name stands for a check**, which has that name. -/
theorem names_enabledChecks (h : c.registry.Standard) :
    c.enabledChecks.map (·.name) = c.enabledNames := by
  have hsome : ∀ name ∈ c.enabledNames, (c.check? name).map (·.name) = some name := by
    intro name hname
    obtain ⟨hmem, henabled⟩ := List.mem_filter.1 hname
    obtain ⟨o, ho⟩ := exists_options_of_isEnabled henabled
    obtain ⟨r, hr, hfind, hrname⟩ := Registry.exists_find?_of_mem_names hmem
    have hcheck : c.check? name = some (r.make o) := by
      unfold check? Registry.instantiate?
      rw [ho, Option.bind_some, hfind, Option.map_some]
    rw [hcheck, Option.map_some, (h.isStandard r hr).name_make, hrname]
  rw [enabledChecks_eq, List.map_filterMap, List.filterMap_congr hsome, List.filterMap_some]

theorem nodup_names_enabledChecks (h : c.registry.Standard) :
    (c.enabledChecks.map (·.name)).Nodup := by
  rw [names_enabledChecks h]
  exact h.nodup.filter _

/-! ### Two ways of choosing -/

/-- Two configurations that differ at most in which checks they choose: in the flag `enabled` of
checks and in the category filters. -/
structure SameButChoice (c d : Config) : Prop where
  root : c.root = d.root
  ignore : c.ignore = d.ignore
  registry : c.registry = d.registry
  options : ∀ name key, key ≠ "enabled" →
    (c.options? name).bind (·.get? key) = (d.options? name).bind (·.get? key)

namespace SameButChoice

theorem severity? (h : c.SameButChoice d) (name : String) : c.severity? name = d.severity? name := by
  have hbind : ∀ c : Config, c.severity? name =
      (((c.options? name).bind (·.get? "severity")).bind (·.string?)).bind Severity.ofWord? := by
    intro c
    unfold Config.severity? Options.severity?
    cases c.options? name <;> rfl
  rw [hbind, hbind, h.options name "severity" (by decide)]

/-- A check that both choose is made into the same. -/
theorem check? (h : c.SameButChoice d) (hstandard : c.registry.Standard)
    (hc : c.isEnabled name = true) (hd : d.isEnabled name = true) : c.check? name = d.check? name := by
  obtain ⟨o, ho⟩ := exists_options_of_isEnabled hc
  obtain ⟨o', ho'⟩ := exists_options_of_isEnabled hd
  have hsame : ∀ key, key ≠ "enabled" → o.get? key = o'.get? key := by
    intro key hkey
    have := h.options name key hkey
    rwa [ho, ho'] at this
  unfold Config.check? Registry.instantiate?
  rw [ho, ho', ← h.registry, Option.bind_some, Option.bind_some]
  cases hfind : c.registry.find? name with
  | none => rfl
  | some r =>
    have hr := hstandard.isStandard r (List.mem_of_find?_eq_some hfind)
    rw [Option.map_some, Option.map_some, hr.make_eq hsame]

/-- **Choosing fewer checks** leaves those that are chosen as they are. -/
theorem enabledChecks (h : c.SameButChoice d) (hstandard : c.registry.Standard)
    (hsubset : c.enabledNames ⊆ d.enabledNames) :
    c.enabledChecks = d.enabledChecks.filter fun x => c.enabledNames.contains x.name := by
  have hstandard' : d.registry.Standard := h.registry ▸ hstandard
  -- the names that `c` enables are among those that `d` enables, in the same order
  have hnames : c.enabledNames = d.enabledNames.filter fun name => c.enabledNames.contains name := by
    unfold enabledNames
    rw [← h.registry, List.filter_filter]
    refine List.filter_congr fun name hname => ?_
    by_cases hc : c.isEnabled name = true
    · have hmem : name ∈ c.enabledNames := List.mem_filter.2 ⟨hname, hc⟩
      have hd : d.isEnabled name = true := (List.mem_filter.1 (hsubset hmem)).2
      rw [hc, hd, Bool.and_true]
      exact (List.contains_iff_mem.2 hmem).symm
    · have hnot : ¬ name ∈ c.registry.names.filter c.isEnabled := fun hmem =>
        hc (List.mem_filter.1 hmem).2
      have hcontains : (c.registry.names.filter c.isEnabled).contains name = false := by
        rw [Bool.eq_false_iff]
        exact fun hmem => hnot (List.contains_iff_mem.1 hmem)
      rw [hcontains, Bool.false_and, Bool.eq_false_iff.2 hc]
  have hchecks : ∀ name ∈ c.enabledNames, c.check? name = d.check? name := by
    intro name hname
    exact h.check? hstandard (List.mem_filter.1 hname).2 (List.mem_filter.1 (hsubset hname)).2
  calc c.enabledChecks
      = c.enabledNames.filterMap d.check? := List.filterMap_congr hchecks
    _ = (d.enabledNames.filter fun name => c.enabledNames.contains name).filterMap d.check? := by
        rw [← hnames]
    _ = d.enabledChecks.filter fun x => c.enabledNames.contains x.name := by
        rw [enabledChecks_eq, List.filter_filterMap, List.filterMap_filter]
        refine List.filterMap_congr fun name _ => ?_
        cases hx : d.check? name with
        | none => simp
        | some x => simp [Option.filter_some, name_of_check? hstandard' hx]

end SameButChoice

/-- The same configuration with every check switched on or off, and with other category filters. -/
def choose (c : Config) (on : String → Bool) (only exclude : List Category) : Config :=
  { c with
    merged := c.merged.map fun (name, o) => (name, o.set "enabled" (.bool (on name)))
    only
    exclude }

theorem sameButChoice_choose (c : Config) (on : String → Bool) (only exclude : List Category) :
    (c.choose on only exclude).SameButChoice c := by
  refine ⟨rfl, rfl, rfl, fun name key hkey => ?_⟩
  have hlookup : (c.choose on only exclude).options? name =
      (c.options? name).map fun o => o.set "enabled" (.bool (on name)) := by
    show (c.merged.map _).lookup name = (c.merged.lookup name).map _
    induction c.merged with
    | nil => rfl
    | cons e rest ih =>
      rw [List.map_cons, List.lookup_cons, List.lookup_cons]
      by_cases hname : name = e.1
      · simp [hname]
      · have hne : (name == e.1) = false := beq_eq_false_iff_ne.2 hname
        simp only [hne]
        exact ih
  rw [hlookup]
  cases c.options? name with
  | none => rfl
  | some o => exact Options.get?_set_of_ne o hkey _

end Config

end LiquidLint
