import LiquidLint.Proofs.Config.Choice
import LiquidLint.Proofs.Yaml.Equality
import LiquidLint.Regex.Parse

/-!
# How settings are resolved

The options of a check are those of the user over the defaults, key by key. `Options.Overrides` says
what that means for what is found, for the order of keys and for the keys that mean the same for every
check. It needs that no key stands twice in the options that are read, and that these keys hold what
they must (`Options.Sound`), which is so for all settings that are accepted (`Settings.sound_of_parse`).
Which checks run is then a filter: `Config.Chooses` says it of one check. Filters can be set any number
of times, and the last ones count (`Config.filtered_eq`). Main statement: `Config.resolution`.
-/

namespace LiquidLint

/-! ### Options -/

namespace Options

variable {o d u : Options} {key : String}

/-- Whether an option, if it is set, is one that `read` can read. -/
def Reads {α : Type} (o : Options) (key : String) (read : YamlValue → Option α) : Prop :=
  ∀ v, o.get? key = some v → ∃ a, read v = some a

/-- The severity that a value names. -/
def readSeverity (v : YamlValue) : Option Severity := v.string?.bind Severity.ofWord?

/-- The category that a value names. -/
def readCategory (v : YamlValue) : Option Category := v.string?.bind Category.ofWord?

theorem severity?_eq (o : Options) : o.severity? = (o.get? "severity").bind readSeverity :=
  Option.bind_assoc ..

theorem category?_eq (o : Options) : o.category? = (o.get? "category").bind readCategory :=
  Option.bind_assoc ..

theorem not_fault_iff {α : Type} {read : YamlValue → Option α} :
    ¬ ((o.get? key).isSome && ((o.get? key).bind read).isNone) = true ↔ o.Reads key read := by
  unfold Reads
  cases o.get? key with
  | none => simp
  | some v => cases hread : read v <;> simp [hread]

theorem fault?_eq_none_iff : o.fault? = none ↔
    o.Reads "enabled" (·.bool?) ∧ o.Reads "severity" readSeverity ∧ o.Reads "category" readCategory := by
  rw [← not_fault_iff, ← not_fault_iff, ← not_fault_iff, ← severity?_eq, ← category?_eq]
  unfold fault? enabled?
  split
  · rename_i h
    simp [h]
  · rename_i h
    split
    · rename_i h'
      simp [h']
    · rename_i h'
      split
      · rename_i h''
        simp [h'']
      · rename_i h''
        exact ⟨fun _ => ⟨h, h', h''⟩, fun _ => rfl⟩

/-- Options as they are accepted: no key is there twice, and the keys of every check hold what they
must. -/
structure Sound (o : Options) : Prop where
  proper : (YamlValue.mapping o.entries).Proper
  fault : o.fault? = none

theorem sound_empty : Sound {} := ⟨.mapping (List.forall_mem_nil _) (List.forall_mem_nil _) .nil, rfl⟩

/-! ### Merging -/

/-- What it means that options are those of `u` over the defaults `d`. -/
structure Overrides (o d u : Options) : Prop where
  /-- Each key has the value of `u`, else that of `d`. -/
  lookup : ∀ k : YamlValue, k.Proper → YamlValue.lookup k o.entries =
    (YamlValue.lookup k u.entries).or (YamlValue.lookup k d.entries)
  /-- The keys of `d` stay in their places, and the further ones of `u` follow in their order. -/
  keys : o.entries.map (·.1) = d.entries.map (·.1) ++
    (u.entries.map (·.1)).filter fun k => (YamlValue.lookup k d.entries).isNone
  /-- If `u` says whether the check is on, that counts. -/
  enabled : ∀ v, u.get? "enabled" = some v → ∃ b, v.bool? = some b ∧ o.enabled? = some b
  /-- If `u` sets the severity, that counts. -/
  severity : ∀ v, u.get? "severity" = some v → ∃ s, readSeverity v = some s ∧ o.severity? = some s
  /-- If `u` sets the category, that counts. -/
  category : ∀ v, u.get? "category" = some v → ∃ c, readCategory v = some c ∧ o.category? = some c

theorem get?_of_lookup (h : ∀ k : YamlValue, k.Proper → YamlValue.lookup k o.entries =
    (YamlValue.lookup k u.entries).or (YamlValue.lookup k d.entries)) (key : String) :
    o.get? key = (u.get? key).or (d.get? key) := h (.string key) (.string key)

/-- An option that `u` sets is what is read from the options of `u` over others. -/
theorem bind_of_reads {α : Type} {read : YamlValue → Option α} {v : YamlValue}
    (hget : o.get? key = (u.get? key).or (d.get? key)) (hreads : u.Reads key read)
    (hv : u.get? key = some v) : ∃ a, read v = some a ∧ (o.get? key).bind read = some a := by
  obtain ⟨a, ha⟩ := hreads v hv
  refine ⟨a, ha, ?_⟩
  rw [hget, hv, Option.some_or, Option.bind_some, ha]

/-- **Merging overrides.** -/
theorem overrides_merge (hd : d.Sound) (hu : u.Sound) : (d.merge u).Overrides d u := by
  obtain ⟨hkeys, -, -⟩ := YamlValue.proper_mapping_iff.1 hd.proper
  obtain ⟨henabled, hseverity, hcategory⟩ := fault?_eq_none_iff.1 hu.fault
  have hlookup : ∀ k : YamlValue, k.Proper → YamlValue.lookup k (d.merge u).entries =
      (YamlValue.lookup k u.entries).or (YamlValue.lookup k d.entries) :=
    fun k hk => YamlValue.lookup_foldl_insert hk hkeys hu.proper
  have hget := get?_of_lookup hlookup
  refine ⟨hlookup, YamlValue.keys_foldl_insert hkeys hu.proper, fun v hv => ?_, fun v hv => ?_,
    fun v hv => ?_⟩
  · exact bind_of_reads (hget "enabled") henabled hv
  · rw [severity?_eq]
    exact bind_of_reads (hget "severity") hseverity hv
  · rw [category?_eq]
    exact bind_of_reads (hget "category") hcategory hv

/-- Options over which nothing is set. -/
theorem overrides_empty (d : Options) : d.Overrides d {} := by
  refine ⟨fun k _ => by rw [YamlValue.lookup, Option.none_or], ?_, ?_, ?_, ?_⟩
  · simp
  all_goals
    intro v hv
    cases hv

/-- Whether a check is on is read, if it is set. -/
theorem Overrides.reads_enabled (h : o.Overrides d u) (hd : d.Sound) (hu : u.Sound) :
    o.Reads "enabled" (·.bool?) := by
  intro v hv
  rw [get?_of_lookup h.lookup] at hv
  rcases Option.or_eq_some_iff.1 hv with hv | ⟨-, hv⟩
  · exact (fault?_eq_none_iff.1 hu.fault).1 v hv
  · exact (fault?_eq_none_iff.1 hd.fault).1 v hv

end Options

/-! ### Settings -/

namespace Settings

variable {s s' : Settings} {name : String} {o : Options}

/-- Settings in which the options of all checks are as they are accepted. -/
def Sound (s : Settings) : Prop := ∀ e ∈ s.checks, e.2.Sound

theorem mem_insertCheck {e : String × Options} {checks : List (String × Options)}
    (h : e ∈ insertCheck name o checks) : e = (name, o) ∨ e ∈ checks := by
  induction checks with
  | nil => exact Or.inl (List.mem_singleton.1 h)
  | cons f rest ih =>
    rw [insertCheck] at h
    split at h
    · rcases List.mem_cons.1 h with h | h
      · exact Or.inl h
      · exact Or.inr (List.mem_cons_of_mem _ h)
    · split at h
      · exact List.mem_cons.1 h
      · rcases List.mem_cons.1 h with h | h
        · exact Or.inr (h ▸ List.mem_cons_self)
        · exact (ih h).imp id (List.mem_cons_of_mem _)

theorem sound_of_readOptions {v : YamlValue} (hv : v.Proper) (h : readOptions name v = .ok o) :
    o.Sound := by
  unfold readOptions at h
  split at h
  · obtain rfl := Except.ok.inj h
    exact Options.sound_empty
  · rename_i entries
    unfold Options.validate at h
    cases hfault : Options.fault? ⟨entries⟩ with
    | none =>
      rw [hfault] at h
      obtain rfl := Except.ok.inj h
      exact ⟨hv, hfault⟩
    | some fault =>
      rw [hfault] at h
      cases h
  · cases h

theorem Sound.addEntry {key value : YamlValue} (hs : s.Sound) (hv : value.Proper)
    (h : s.addEntry key value = .ok s') : s'.Sound := by
  unfold Settings.addEntry at h
  -- entries that are set aside, those for the run, and at last the options of a check
  split at h
  · cases h
  · split at h
    · obtain rfl := Except.ok.inj h
      exact hs
    · cases h
  · obtain ⟨files, -, h⟩ := exists_of_bind_eq_ok h
    obtain rfl := Except.ok.inj h
    exact hs
  · obtain ⟨patterns, -, h⟩ := exists_of_bind_eq_ok h
    obtain rfl := Except.ok.inj h
    exact hs
  · -- the options of a check come from its value, and the rest was sound before
    obtain ⟨o, ho, h⟩ := exists_of_bind_eq_ok h
    obtain rfl := Except.ok.inj h
    intro e he
    rcases mem_insertCheck he with rfl | he
    · exact sound_of_readOptions hv ho
    · exact hs e he

/-- **Settings that are accepted are sound.** -/
theorem sound_of_parse {source : Text} (h : parse source = .ok s) : s.Sound := by
  have hempty : Sound {} := List.forall_mem_nil _
  unfold parse parseFrom at h
  split at h
  · rename_i v hv
    have hproper := YamlValue.proper_of_parse? hv
    unfold ofValue at h
    split at h
    · obtain rfl := Except.ok.inj h
      exact hempty
    · rename_i entries
      obtain ⟨-, hvalues, -⟩ := YamlValue.proper_mapping_iff.1 hproper
      exact of_foldlM_eq_ok_of_mem (fun s e he s' hs hstep => hs.addEntry (hvalues e he) hstep) hempty h
    · cases h
  · cases h

/-- The options of a check are sound, also where nothing is set. -/
theorem Sound.options (hs : s.Sound) (name : String) : ((s.options? name).getD {}).Sound := by
  cases ho : s.options? name with
  | none => exact Options.sound_empty
  | some o =>
    obtain ⟨_, _, hchecks, -⟩ := List.lookup_eq_some_iff.1 ho
    exact hs (name, o) (hchecks ▸ List.mem_append_right _ List.mem_cons_self)

end Settings

/-! ### Registries -/

namespace Registry

variable {r r' : Registry} {tree : FileTree} {path : Path}

theorem defaults_register {c : Registration} (h : r.register c = .ok r') : r'.defaults = r.defaults := by
  unfold register at h
  split at h
  · cases h
  · obtain rfl := Except.ok.inj h
    rfl

theorem defaults_registerFile [RegexEngine] (h : r.registerFile tree path = .ok r') :
    r'.defaults = r.defaults := by
  obtain ⟨checks, -, hfold⟩ := exists_of_bind_eq_ok h
  exact of_foldlM_eq_ok (P := fun x : Registry => x.defaults = r.defaults)
    (fun _ _ _ hb hstep => (defaults_register hstep).trans hb) rfl hfold

end Registry

namespace Config

variable {c : Config} {tree : FileTree} {base : Path} {s d u : Settings} {r : Registry} {name : String}

/-! ### Merged options -/

/-- The registered checks and no others have options: those of the user over the defaults that the
registry had from the start. -/
theorem options?_of_new [RegexEngine] (h : new tree base s r = .ok c) (name : String) :
    c.options? name = if name ∈ c.registry.names then
      some (match s.options? name with
        | some o => ((r.defaults? name).getD {}).merge o
        | none => (r.defaults? name).getD {})
    else none := by
  obtain ⟨registry, hrequire, hc⟩ := exists_of_bind_eq_ok h
  obtain rfl := Except.ok.inj hc
  -- the files that are required add checks, and no defaults
  have hdefaults : registry.defaults = r.defaults :=
    of_foldlM_eq_ok (P := fun x : Registry => x.defaults = r.defaults)
      (fun _ _ _ hb hstep => (Registry.defaults_registerFile hstep).trans hb) rfl hrequire
  show (registry.names.map fun n => (n, mergedOptions registry s n)).lookup name =
    if name ∈ registry.names then _ else _
  by_cases hname : name ∈ registry.names
  · have hdefault : registry.defaults? name = r.defaults? name := congrArg _ hdefaults
    rw [if_pos hname, List.lookup_graph _ hname]
    unfold mergedOptions
    cases s.options? name with
    | none => exact congrArg (fun d => some (d.getD {})) hdefault
    | some o => exact congrArg (fun d => some ((d.getD {}).merge o)) hdefault
  · rw [if_neg hname, List.lookup_eq_none_iff]
    rintro _ he
    obtain ⟨n, hn, rfl⟩ := List.mem_map.1 he
    exact bne_iff_ne.2 fun heq => hname (heq ▸ hn)

/-- A new configuration has no filters. -/
theorem filters_of_new [RegexEngine] (h : new tree base s r = .ok c) :
    c.only = [] ∧ c.exclude = [] := by
  obtain ⟨registry, -, hc⟩ := exists_of_bind_eq_ok h
  obtain rfl := Except.ok.inj hc
  exact ⟨rfl, rfl⟩

theorem options?_eq_none_iff [RegexEngine] (h : new tree base s r = .ok c) :
    c.options? name = none ↔ name ∉ c.registry.names := by
  rw [options?_of_new h]
  split <;> simp_all

/-- **The options of a check are those of the user over the defaults.** -/
theorem overrides_of_options? [RegexEngine] (hd : d.Sound) (hu : u.Sound)
    (h : new tree base u (r.setDefaults d) = .ok c) {o : Options} (ho : c.options? name = some o) :
    o.Overrides ((d.options? name).getD {}) ((u.options? name).getD {}) := by
  rw [options?_of_new h] at ho
  split at ho
  · obtain rfl := Option.some.inj ho
    have huser := hu.options name
    cases hname : u.options? name with
    | none => exact Options.overrides_empty _
    | some p =>
      rw [hname] at huser
      exact Options.overrides_merge (hd.options name) huser
  · cases ho

/-! ### Choice -/

/-- Whether a check is chosen: it is registered, it is not switched off, and its category is one of
`only`, if there are any, and none of `exclude`. -/
def Chooses (c : Config) (only exclude : List Category) (name : String) : Prop :=
  name ∈ c.registry.names ∧ ∃ o category, c.options? name = some o ∧
    (o.get? "enabled" = none ∨ o.enabled? = some true) ∧
    o.category?.or (c.registry.category? name) = some category ∧
    (only ≠ [] → category ∈ only) ∧ category ∉ exclude

theorem admits_iff {category : Category} :
    c.admits category = true ↔ (c.only ≠ [] → category ∈ c.only) ∧ category ∉ c.exclude := by
  unfold admits
  simp only [Bool.and_eq_true, Bool.or_eq_true, List.isEmpty_iff, List.contains_iff_mem,
    Bool.not_eq_true', Bool.eq_false_iff, ne_eq]
  rw [or_iff_not_imp_left]

theorem isEnabled_iff (hregistered : ∀ name, c.options? name = none ↔ name ∉ c.registry.names)
    (hreads : ∀ name o, c.options? name = some o → o.Reads "enabled" (·.bool?)) :
    c.isEnabled name = true ↔ c.Chooses c.only c.exclude name := by
  unfold isEnabled Chooses category?
  cases ho : c.options? name with
  | none => simp
  | some o =>
    have hname : name ∈ c.registry.names := by
      by_contra hnot
      rw [(hregistered name).2 hnot] at ho
      cases ho
    have henabled : o.enabled?.getD true = true ↔ o.get? "enabled" = none ∨ o.enabled? = some true := by
      unfold Options.enabled?
      cases hv : o.get? "enabled" with
      | none => simp
      | some v =>
        -- a value that is set is read, so the default of an unread value does not count
        obtain ⟨b, hb⟩ := hreads name o ho v hv
        simp [hb]
    simp only [Bool.and_eq_true, henabled, Option.bind_some, hname, true_and, Option.some.injEq]
    cases hcategory : o.category?.or (c.registry.category? name) with
    | none => simp [hcategory]
    | some category => simp [hcategory, admits_iff]

/-! ### Filters -/

/-- A call that sets one of the category filters. -/
inductive FilterCall where
  | only (categories : List Category)
  | exclude (categories : List Category)
deriving DecidableEq, Repr

/-- The categories to which a call restricts the run. -/
def FilterCall.only? : FilterCall → Option (List Category)
  | .only categories => some categories
  | .exclude _ => none

/-- The categories that a call leaves out. -/
def FilterCall.exclude? : FilterCall → Option (List Category)
  | .only _ => none
  | .exclude categories => some categories

/-- The configuration after a call. -/
def filter (c : Config) : FilterCall → Config
  | .only categories => c.withFilters categories c.exclude
  | .exclude categories => c.withFilters c.only categories

/-- The configuration after some calls. -/
def filtered (c : Config) (calls : List FilterCall) : Config := calls.foldl filter c

/-- The last value that some calls set, if they set one. -/
def lastSet (value? : FilterCall → Option (List Category)) (calls : List FilterCall) :
    Option (List Category) :=
  (calls.filterMap value?).getLast?

/-- **The last filters count.** -/
theorem filtered_eq (c : Config) (calls : List FilterCall) :
    c.filtered calls = c.withFilters ((lastSet FilterCall.only? calls).getD c.only)
      ((lastSet FilterCall.exclude? calls).getD c.exclude) := by
  induction calls generalizing c with
  | nil => rfl
  | cons call calls ih =>
    show (c.filter call).filtered calls = _
    rw [ih]
    cases call <;>
      simp [filter, withFilters, lastSet, FilterCall.only?, FilterCall.exclude?, List.getLast?_cons]

/-- **Settings are resolved key by key, and then filtered.** -/
theorem resolution [RegexEngine] {defaults user : Text} (hd : Settings.parse defaults = .ok d)
    (hu : Settings.parse user = .ok u) (hc : new tree base u (r.setDefaults d) = .ok c) :
    (∀ name, c.options? name = none ↔ name ∉ c.registry.names) ∧
      (∀ name o, c.options? name = some o →
        o.Overrides ((d.options? name).getD {}) ((u.options? name).getD {})) ∧
      ∀ calls : List FilterCall,
        let only := (lastSet FilterCall.only? calls).getD []
        let exclude := (lastSet FilterCall.exclude? calls).getD []
        (∀ name, (c.filtered calls).isEnabled name = true ↔ c.Chooses only exclude name) ∧
          (c.filtered calls).enabledNames = c.registry.names.filter (c.filtered calls).isEnabled ∧
          (c.filtered calls).enabledNames = (c.withFilters only exclude).enabledNames := by
  have hdsound := Settings.sound_of_parse hd
  have husound := Settings.sound_of_parse hu
  have hregistered : ∀ name, c.options? name = none ↔ name ∉ c.registry.names :=
    fun name => options?_eq_none_iff hc
  have hoverrides : ∀ name o, c.options? name = some o →
      o.Overrides ((d.options? name).getD {}) ((u.options? name).getD {}) :=
    fun name o => overrides_of_options? hdsound husound hc
  refine ⟨hregistered, hoverrides, fun calls => ?_⟩
  dsimp only
  -- of several calls for the same list the last one counts
  have hfiltered : c.filtered calls = c.withFilters ((lastSet FilterCall.only? calls).getD [])
      ((lastSet FilterCall.exclude? calls).getD []) := by
    rw [filtered_eq, (filters_of_new hc).1, (filters_of_new hc).2]
  rw [hfiltered]
  refine ⟨fun name => ?_, rfl, rfl⟩
  -- whether a check is chosen is read off from its options, which keep the last flag
  exact isEnabled_iff (c := c.withFilters _ _) hregistered fun name o ho =>
    (hoverrides name o ho).reads_enabled (hdsound.options name) (husound.options name)

theorem eq_ok_of_toOption {α ε : Type} {x : Except ε α} {a : α} (h : x.toOption = some a) :
    x = .ok a := by
  cases x with
  | error e => cases h
  | ok b => exact congrArg Except.ok (Option.some.inj h)

/-- A check that is switched off and gets a new option, another that is let through by the last of
several filters, and one that is not registered. -/
theorem resolution_overridden :
    let defaults : Text := "A:\n  enabled: true\n  category: json".toList
    let user : Text := "A:\n  x: 1\n  enabled: false\nB:\n  severity: style\nC:".toList
    let r : Registry := { registrations := [⟨"B", .liquid, fun _ => .syntaxError⟩,
      ⟨"A", .liquid, fun _ => .validJson⟩] }
    let calls : List FilterCall := [.only [.json], .exclude [.json], .only []]
    ∃ d u c, Settings.parse defaults = .ok d ∧ Settings.parse user = .ok u ∧
      new .empty ⟨"."⟩ u (r.setDefaults d) = .ok c ∧ c.options? "C" = none ∧
      (∃ o, c.options? "A" = some o ∧
        o.Overrides ((d.options? "A").getD {}) ((u.options? "A").getD {}) ∧
        o.keys = ["enabled", "category", "x"] ∧ o.enabled? = some false) ∧
      c.Chooses [] [.json] "B" ∧ (c.filtered calls).enabledNames = ["B"] := by
  intro defaults user r calls
  have hrun : (do
      let d ← Settings.parse defaults
      let u ← Settings.parse user
      new .empty ⟨"."⟩ u (r.setDefaults d)).toOption.map (fun c : Config =>
        (c.registry.names, (c.options? "A").map fun o : Options => (o.keys, o.enabled?),
          (c.filtered calls).enabledNames)) =
      some (["B", "A"], some (["enabled", "category", "x"], some false), ["B"]) := by
    decide +kernel
  obtain ⟨c, hok, hc⟩ := Option.map_eq_some_iff.1 hrun
  obtain ⟨d, hd, hok⟩ := exists_of_bind_eq_ok (eq_ok_of_toOption hok)
  obtain ⟨u, hu, hok⟩ := exists_of_bind_eq_ok hok
  obtain ⟨hnames, hrest⟩ := Prod.mk.inj hc
  obtain ⟨hoptions, henabled⟩ := Prod.mk.inj hrest
  obtain ⟨hregistered, hoverrides, hfilters⟩ := resolution hd hu hok
  obtain ⟨o, ho, hkeys⟩ := Option.map_eq_some_iff.1 hoptions
  refine ⟨d, u, c, hd, hu, hok, ?_, ⟨o, ho, hoverrides "A" o ho, ?_⟩, ?_, henabled⟩
  · rw [hregistered, hnames]
    decide
  · exact Prod.mk.inj hkeys
  · refine ((hfilters calls).1 "B").1 ?_
    have hmem : "B" ∈ (c.filtered calls).enabledNames := by rw [henabled]; exact List.mem_singleton.2 rfl
    exact (List.mem_filter.1 hmem).2

end Config

end LiquidLint
