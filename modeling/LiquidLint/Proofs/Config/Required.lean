import LiquidLint.Proofs.Config.Choice
import LiquidLint.Regex.Parse
import Mathlib.Data.List.Nodup

/-!
# Required files

Settings name files that declare checks. A file is loaded as a whole before any of its checks is
registered: `PatternCheck.DeclaredBy` says when a text is accepted, and which checks it declares. The
files are read one after another, and each check needs a name that is new, so a configuration is made
exactly when all files are loaded and no name is there twice (`Config.requireAll_of_loaded`). Otherwise
there is a first file with a fault (`Config.FirstFault`), and the error is about that fault
(`Config.requireAll_of_firstFault`). Main statement: `Config.required_checks`.
-/

namespace LiquidLint

/-! ### Declarations -/

/-- What it means that a declaration describes a check: each field that it sets is understood, and the
others have their defaults. -/
structure Declaration.Describes [RegexEngine] (d : Declaration) (p : PatternCheck) : Prop where
  name : d.name = some p.name
  isName : p.name ≠ "" ∧ ∀ c ∈ p.name.toList, c.isAlphanum = true
  category : Category.ofWord? (d.category.getD "") = some p.category
  severity : Severity.ofWord? (d.severity.getD defaultSeverity) = some p.severity
  pattern : RegexEngine.compile? (d.pattern.getD "").toList = some p.search
  nodeTypes : d.nodeTypes.getD defaultNodeTypes = p.nodeTypes
  nodeTypes_ne : p.nodeTypes ≠ []
  message : d.message.getD "" = p.message
  description : d.description.join.getD "" = p.description

namespace Declaration

variable {d : Declaration} {p : PatternCheck} {name : String}

theorem isName_iff : isName name = true ↔ name ≠ "" ∧ ∀ c ∈ name.toList, c.isAlphanum = true := by
  unfold isName
  simp

/-- A name of letters and digits is not missing. -/
theorem name_eq_some_of_isName (h : isName (d.name.getD "") = true) :
    d.name = some (d.name.getD "") := by
  cases hname : d.name with
  | none =>
    rw [hname] at h
    cases h
  | some name => rfl

/-- A declared check is one that its declaration describes. -/
theorem toCheck_eq_ok_iff [RegexEngine] : d.toCheck = .ok p ↔ d.Describes p := by
  unfold toCheck
  dsimp only
  constructor
  · intro h
    -- the five places where a declaration can be refused
    split at h
    · cases h
    rename_i hname
    have hname : isName (d.name.getD "") = true := by simpa using hname
    cases hcategory : Category.ofWord? (d.category.getD "") with
    | none =>
      rw [hcategory] at h
      cases h
    | some category =>
      cases hseverity : Severity.ofWord? (d.severity.getD defaultSeverity) with
      | none =>
        rw [hcategory, hseverity] at h
        cases h
      | some severity =>
        cases hpattern : RegexEngine.compile? (d.pattern.getD "").toList with
        | none =>
          rw [hcategory, hseverity, hpattern] at h
          cases h
        | some search =>
          rw [hcategory, hseverity, hpattern] at h
          replace h : (if (d.nodeTypes.getD defaultNodeTypes).isEmpty then _ else _) = _ := h
          split at h
          · cases h
          rename_i htypes
          obtain rfl := Except.ok.inj h
          exact ⟨name_eq_some_of_isName hname, isName_iff.1 hname, hcategory, hseverity, hpattern, rfl,
            fun hnil => htypes (List.isEmpty_iff.2 hnil), rfl, rfl⟩
  · intro h
    have hname : isName p.name = true := isName_iff.2 h.isName
    have htypes : p.nodeTypes.isEmpty = false := List.isEmpty_eq_false_iff.2 h.nodeTypes_ne
    rw [h.name, Option.getD_some, hname, h.category, h.severity, h.pattern, h.nodeTypes, htypes,
      h.message, h.description]
    rfl

end Declaration

namespace PatternCheck

/-- What it means that a text declares some checks: it is a definition file with at least one
declaration, and each of them describes a check. -/
def DeclaredBy [RegexEngine] (source : Text) (checks : List PatternCheck) : Prop :=
  ∃ value declarations, YamlValue.parse? source = some value ∧
    Declaration.readFile value = .ok declarations ∧ declarations ≠ [] ∧
    List.Forall₂ Declaration.Describes declarations checks

/-- **A definition file is accepted as a whole.** -/
theorem load_eq_ok_iff [RegexEngine] {source : Text} {checks : List PatternCheck} :
    load source = .ok checks ↔ DeclaredBy source checks := by
  unfold load
  constructor
  · intro h
    -- the text is read, then the declarations in it, and then each of them becomes a check
    cases hvalue : YamlValue.parse? source with
    | none =>
      rw [hvalue] at h
      cases h
    | some value =>
      rw [hvalue] at h
      replace h : ((Declaration.readFile value).mapError DefinitionError.form >>= fun ds =>
          if ds.isEmpty then .error .empty else ds.mapM (·.toCheck)) = .ok checks := h
      cases hfile : Declaration.readFile value with
      | error e =>
        rw [hfile] at h
        cases h
      | ok ds =>
        rw [hfile] at h
        replace h : (if ds.isEmpty then .error .empty else ds.mapM (·.toCheck)) = .ok checks := h
        split at h
        · cases h
        rename_i hempty
        refine ⟨value, ds, hvalue, hfile, fun hnil => hempty (List.isEmpty_iff.2 hnil), ?_⟩
        exact (mapM_eq_ok_iff.1 h).imp fun d p hd => Declaration.toCheck_eq_ok_iff.1 hd
  · rintro ⟨value, declarations, hvalue, hfile, hne, hchecks⟩
    have hempty : declarations.isEmpty = false := List.isEmpty_eq_false_iff.2 hne
    rw [hvalue]
    refine bind_eq_ok (a := declarations) (by rw [hfile]; rfl) ?_
    rw [hempty]
    exact mapM_eq_ok_iff.2 (hchecks.imp fun d p hd => Declaration.toCheck_eq_ok_iff.2 hd)

/-- The registration of a declared check. -/
def registration (p : PatternCheck) : Registration := ⟨p.name, p.category, fun _ => .pattern p⟩

end PatternCheck

/-! ### Registering many checks -/

/-- Names that are not all different have a first one that was there before. -/
theorem exists_first_taken {α : Type} {f : α → String} {taken : List String} {l : List α}
    (htaken : taken.Nodup) (h : ¬ (taken ++ l.map f).Nodup) : ∃ front a rest, l = front ++ a :: rest ∧
      (taken ++ front.map f).Nodup ∧ f a ∈ taken ++ front.map f := by
  induction l generalizing taken with
  | nil => exact absurd (by simpa using htaken) h
  | cons a l ih =>
    -- the first name is taken, or it is one more that later names must not have
    by_cases ha : f a ∈ taken
    · exact ⟨[], a, l, rfl, by simpa using htaken, by simpa using ha⟩
    · have hnew : (taken ++ [f a]).Nodup := by
        refine List.nodup_append.2 ⟨htaken, List.pairwise_singleton _ _, ?_⟩
        rintro n hn _ hm rfl
        exact ha (List.mem_singleton.1 hm ▸ hn)
      rw [List.map_cons, List.append_cons] at h
      obtain ⟨front, b, rest, rfl, hfront, hb⟩ := ih hnew h
      refine ⟨a :: front, b, rest, rfl, ?_, ?_⟩
      · rwa [List.map_cons, List.append_cons]
      · rwa [List.map_cons, List.append_cons]

namespace Registry

variable {r r' : Registry} {p : PatternCheck} {ps qs : List PatternCheck} {tree : FileTree}
  {path : Path} {e : ConfigError}

/-- A registry with declared checks behind those it has. -/
def withChecks (r : Registry) (ps : List PatternCheck) : Registry :=
  { r with registrations := r.registrations ++ ps.map (·.registration) }

@[simp] theorem withChecks_nil (r : Registry) : r.withChecks [] = r := by
  unfold withChecks
  rw [List.map_nil, List.append_nil]

theorem withChecks_append (r : Registry) (ps qs : List PatternCheck) :
    r.withChecks (ps ++ qs) = (r.withChecks ps).withChecks qs := by
  unfold withChecks
  rw [List.map_append, List.append_assoc]

theorem names_withChecks (r : Registry) (ps : List PatternCheck) :
    (r.withChecks ps).names = r.names ++ ps.map (·.name) := by
  unfold names withChecks
  rw [List.map_append, List.map_map]
  rfl

theorem registerPattern_of_not_mem (h : p.name ∉ r.names) :
    r.registerPattern p = .ok (r.withChecks [p]) := by
  have hnew : r.contains p.name = false := by
    rw [Bool.eq_false_iff]
    exact fun hmem => h (List.contains_iff_mem.1 hmem)
  unfold registerPattern register
  rw [hnew]
  rfl

theorem registerPattern_of_mem (h : p.name ∈ r.names) :
    r.registerPattern p = .error (.duplicateCheck p.name) := by
  have hold : r.contains p.name = true := List.contains_iff_mem.2 h
  unfold registerPattern register
  rw [hold]
  rfl

/-- Checks whose names are all new are registered. -/
theorem registerAll_of_nodup (h : (r.names ++ ps.map (·.name)).Nodup) :
    ps.foldlM registerPattern r = .ok (r.withChecks ps) := by
  induction ps generalizing r with
  | nil => rw [withChecks_nil]; rfl
  | cons p ps ih =>
    have hnew : p.name ∉ r.names := by
      intro hmem
      exact (List.nodup_append.1 h).2.2 p.name hmem p.name List.mem_cons_self rfl
    have hrest : ((r.withChecks [p]).names ++ ps.map (·.name)).Nodup := by
      rw [names_withChecks, List.append_assoc]
      exact h
    rw [List.foldlM_cons, registerPattern_of_not_mem hnew]
    show ps.foldlM registerPattern (r.withChecks [p]) = _
    rw [ih hrest, ← withChecks_append]
    rfl

/-- The first name that is taken is what is reported. -/
theorem registerAll_of_mem (hps : (r.names ++ ps.map (·.name)).Nodup)
    (hp : p.name ∈ r.names ++ ps.map (·.name)) (qs : List PatternCheck) :
    (ps ++ p :: qs).foldlM registerPattern r = .error (.duplicateCheck p.name) := by
  rw [← names_withChecks] at hp
  rw [List.foldlM_append, registerAll_of_nodup hps]
  show (p :: qs).foldlM registerPattern (r.withChecks ps) = _
  rw [List.foldlM_cons, registerPattern_of_mem hp]
  rfl

/-! ### Files -/

/-- What it means that a file is loaded, and declares some checks. -/
def Loads [RegexEngine] (tree : FileTree) (path : Path) (checks : List PatternCheck) : Prop :=
  ∃ source, tree.read path = .ok source ∧ PatternCheck.DeclaredBy source checks

/-- What can be wrong with a file when the names `taken` are in use. A file that can be loaded is at
fault if it declares a check whose name is in use, or is that of a check it declared before. -/
inductive Fault [RegexEngine] (tree : FileTree) (path : Path) (taken : List String) :
    ConfigError → Prop where
  | unreadable {e : FileError} : tree.read path = .error e →
      Fault tree path taken (.loadCheck path (.unreadable e))
  | rejected {source : Text} {e : DefinitionError} : tree.read path = .ok source →
      PatternCheck.load source = .error e → Fault tree path taken (.loadCheck path (.rejected e))
  | duplicate {front rest : List PatternCheck} {p : PatternCheck} :
      Loads tree path (front ++ p :: rest) → (taken ++ front.map (·.name)).Nodup →
      p.name ∈ taken ++ front.map (·.name) → Fault tree path taken (.duplicateCheck p.name)

theorem readChecks_eq_ok_iff [RegexEngine] : readChecks tree path = .ok ps ↔ Loads tree path ps := by
  unfold readChecks Loads
  cases tree.read path with
  | error e => simp
  | ok source =>
    simp only [Except.ok.injEq, exists_eq_left', ← PatternCheck.load_eq_ok_iff]
    cases PatternCheck.load source <;> simp

theorem registerFile_of_loads [RegexEngine] (hps : Loads tree path ps)
    (h : (r.names ++ ps.map (·.name)).Nodup) :
    r.registerFile tree path = .ok (r.withChecks ps) :=
  bind_eq_ok (readChecks_eq_ok_iff.2 hps) (registerAll_of_nodup h)

theorem registerFile_of_fault [RegexEngine] (h : Fault tree path r.names e) :
    r.registerFile tree path = .error e := by
  unfold registerFile
  cases h with
  | unreadable hread =>
    unfold readChecks
    rw [hread]
    rfl
  | rejected hread hload =>
    unfold readChecks
    rw [hread]
    dsimp only
    rw [hload]
    rfl
  | @duplicate front rest p hloads hfront hp =>
    rw [readChecks_eq_ok_iff.2 hloads]
    exact registerAll_of_mem hfront hp rest

/-- A file has no fault, or has one. -/
theorem loads_or_fault [RegexEngine] (tree : FileTree) (path : Path) {taken : List String}
    (h : taken.Nodup) :
    (∃ ps, Loads tree path ps ∧ (taken ++ ps.map (·.name)).Nodup) ∨ ∃ e, Fault tree path taken e := by
  cases hread : tree.read path with
  | error e => exact .inr ⟨_, .unreadable hread⟩
  | ok source =>
    cases hload : PatternCheck.load source with
    | error e => exact .inr ⟨_, .rejected hread hload⟩
    | ok ps =>
      have hloads : Loads tree path ps := ⟨source, hread, PatternCheck.load_eq_ok_iff.1 hload⟩
      by_cases hnames : (taken ++ ps.map (·.name)).Nodup
      · exact .inl ⟨ps, hloads, hnames⟩
      · obtain ⟨front, p, rest, rfl, hfront, hp⟩ := exists_first_taken h hnames
        exact .inr ⟨_, .duplicate hloads hfront hp⟩

/-- A registered check is found by its name. -/
theorem find?_of_mem (h : r.names.Nodup) {c : Registration} (hc : c ∈ r.registrations) :
    r.find? c.name = some c := by
  obtain ⟨d, hd, hfind, hname⟩ := exists_find?_of_mem_names (List.mem_map_of_mem hc)
  rw [hfind, List.inj_on_of_nodup_map h hd hc hname]

end Registry

namespace Config

variable {c : Config} {tree : FileTree} {base : Path} {s : Settings} {r r' : Registry}
  {files : List Path} {lists : List (List PatternCheck)} {taken : List String} {e : ConfigError}

/-! ### Many files -/

/-- What it means that files, seen from the directory `base`, are all loaded, each with the checks that
it declares. -/
def Loaded [RegexEngine] (tree : FileTree) (base : Path) (files : List Path)
    (lists : List (List PatternCheck)) :
    Prop :=
  List.Forall₂ (fun file checks => Registry.Loads tree (base.join file) checks) files lists

/-- What it means that an error is about the first file with a fault: the files before it are loaded,
and their checks have new names. -/
def FirstFault [RegexEngine] (tree : FileTree) (base : Path) (taken : List String) (files : List Path)
    (e : ConfigError) : Prop :=
  ∃ before file after lists, files = before ++ file :: after ∧ Loaded tree base before lists ∧
    (taken ++ lists.flatten.map (·.name)).Nodup ∧
    Registry.Fault tree (base.join file) (taken ++ lists.flatten.map (·.name)) e

/-- Files that are all loaded add their checks, in order. -/
theorem requireAll_of_loaded [RegexEngine] (h : Loaded tree base files lists)
    (hnames : (r.names ++ lists.flatten.map (·.name)).Nodup) :
    requireAll tree base r files = .ok (r.withChecks lists.flatten) := by
  induction h generalizing r with
  | nil => rw [List.flatten_nil, Registry.withChecks_nil]; rfl
  | @cons file checks files lists hfile _ ih =>
    rw [List.flatten_cons, List.map_append, ← List.append_assoc] at hnames
    have hfirst := Registry.registerFile_of_loads hfile (List.nodup_append.1 hnames).1
    rw [← Registry.names_withChecks] at hnames
    rw [List.flatten_cons, Registry.withChecks_append]
    exact bind_eq_ok hfirst (ih hnames)

/-- The first fault is what is reported. -/
theorem requireAll_of_firstFault [RegexEngine] (h : FirstFault tree base r.names files e) :
    requireAll tree base r files = .error e := by
  obtain ⟨before, file, after, lists, rfl, hbefore, hnames, hfault⟩ := h
  have hloaded := requireAll_of_loaded hbefore hnames
  rw [← Registry.names_withChecks] at hfault
  unfold requireAll at hloaded ⊢
  rw [List.foldlM_append, hloaded]
  show (file :: after).foldlM (fun r file => r.registerFile tree (base.join file))
    (r.withChecks lists.flatten) = _
  rw [List.foldlM_cons, Registry.registerFile_of_fault hfault]
  rfl

/-- Files are all loaded, or there is a first one with a fault. -/
theorem loaded_or_firstFault [RegexEngine] (tree : FileTree) (base : Path) (files : List Path)
    (h : taken.Nodup) :
    (∃ lists, Loaded tree base files lists ∧ (taken ++ lists.flatten.map (·.name)).Nodup) ∨
      ∃ e, FirstFault tree base taken files e := by
  -- along the files; the names that are taken grow by those of each file that loads
  induction files generalizing taken with
  | nil => exact .inl ⟨[], .nil, by simpa using h⟩
  | cons file files ih =>
    rcases Registry.loads_or_fault tree (base.join file) h with ⟨ps, hps, hnames⟩ | ⟨e, hfault⟩
    · have hflatten : ∀ lists : List (List PatternCheck), taken ++ (ps :: lists).flatten.map (·.name) =
          taken ++ ps.map (·.name) ++ lists.flatten.map (·.name) := by
        intro lists
        rw [List.flatten_cons, List.map_append, List.append_assoc]
      rcases ih hnames with ⟨lists, hlists, hall⟩ |
        ⟨e, before, bad, after, lists, rfl, hlists, hall, hfault⟩
      · exact .inl ⟨ps :: lists, .cons hps hlists, by rwa [hflatten]⟩
      · refine .inr ⟨e, file :: before, bad, after, ps :: lists, rfl, .cons hps hlists, ?_, ?_⟩
        · rwa [hflatten]
        · rwa [hflatten]
    · refine .inr ⟨e, [], file, files, [], rfl, .nil, ?_, ?_⟩
      · simpa using h
      · simpa using hfault

/-! ### Configurations -/

/-- What a configuration has that was made with some checks from files. -/
structure MadeWith (c : Config) (r : Registry) (ps : List PatternCheck) : Prop where
  /-- The old checks come first, then the declared ones in order. -/
  registry : c.registry = r.withChecks ps
  nodup : c.registry.names.Nodup
  /-- Each registered name has its options, and no other name has some. -/
  options : ∀ name ∈ c.registry.names, ∃! o, (name, o) ∈ c.merged
  names : c.merged.map (·.1) = c.registry.names
  /-- A declared check is made under its name, and is of its category. -/
  instantiate : ∀ p ∈ ps, c.registry.category? p.name = some p.category ∧
    ∀ o, ∃ x, c.registry.instantiate? p.name o = some x ∧ x.name = p.name ∧ x.category = p.category

theorem madeWith_of_new [RegexEngine] {ps : List PatternCheck} (hr : (r.names ++ ps.map (·.name)).Nodup)
    (hrequire : requireAll tree base r s.require = .ok (r.withChecks ps))
    (h : new tree base s r = .ok c) : c.MadeWith r ps := by
  obtain ⟨registry, hregistry, hc⟩ := exists_of_bind_eq_ok h
  obtain rfl := Except.ok.inj (hrequire.symm.trans hregistry)
  obtain rfl := Except.ok.inj hc
  have hnodup : (r.withChecks ps).names.Nodup := by rwa [Registry.names_withChecks]
  refine ⟨rfl, hnodup, fun name hname => ?_, ?_, fun p hp => ?_⟩
  · -- the options of a name are those that are merged for it
    refine ⟨mergedOptions (r.withChecks ps) s name, List.mem_map.2 ⟨name, hname, rfl⟩, ?_⟩
    intro o ho
    obtain ⟨n, -, hn⟩ := List.mem_map.1 ho
    obtain ⟨rfl, rfl⟩ := Prod.mk.inj hn
    rfl
  · show ((r.withChecks ps).names.map _).map _ = _
    rw [List.map_map]
    exact List.map_id _
  · -- names are registered once, so each check is found under its own name
    have hmem : p.registration ∈ (r.withChecks ps).registrations :=
      List.mem_append_right _ (List.mem_map_of_mem hp)
    have hfind : (r.withChecks ps).find? p.name = some p.registration :=
      Registry.find?_of_mem hnodup hmem
    refine ⟨?_, fun o => ⟨.pattern p, ?_, rfl, rfl⟩⟩
    · show ((r.withChecks ps).find? p.name).map _ = _
      rw [hfind]
      rfl
    · show ((r.withChecks ps).find? p.name).map _ = _
      rw [hfind]
      rfl

/-- **Required files are all or nothing.** -/
theorem required_checks [RegexEngine] (hr : r.names.Nodup) :
    ((∃ c, new tree base s r = .ok c) ↔ ∃ lists, Loaded tree base s.require lists ∧
      (r.names ++ lists.flatten.map (·.name)).Nodup) ∧
    (∀ c, new tree base s r = .ok c → ∃ lists, Loaded tree base s.require lists ∧
      c.MadeWith r lists.flatten) ∧
    ∀ e, new tree base s r = .error e ↔ FirstFault tree base r.names s.require e := by
  rcases loaded_or_firstFault tree base s.require hr with ⟨lists, hlists, hnames⟩ | ⟨e, hfault⟩
  · -- all files are loaded, and so no file is at fault
    have hrequire := requireAll_of_loaded hlists hnames
    obtain ⟨c, hc⟩ : ∃ c, new tree base s r = .ok c := by
      unfold new
      rw [hrequire]
      exact ⟨_, rfl⟩
    refine ⟨⟨fun _ => ⟨lists, hlists, hnames⟩, fun _ => ⟨c, hc⟩⟩, fun c' hc' => ?_, fun e => ?_⟩
    · exact ⟨lists, hlists, madeWith_of_new hnames hrequire hc'⟩
    · constructor
      · intro herror
        rw [hc] at herror
        cases herror
      · intro hfault
        rw [requireAll_of_firstFault hfault] at hrequire
        cases hrequire
  · -- a file is at fault, and so there is no configuration
    have hrequire := requireAll_of_firstFault hfault
    have herror : new tree base s r = .error e := by
      unfold new
      rw [hrequire]
      rfl
    refine ⟨⟨?_, ?_⟩, fun c hc => ?_, fun e' => ?_⟩
    · rintro ⟨c, hc⟩
      rw [herror] at hc
      cases hc
    · rintro ⟨lists, hlists, hnames⟩
      rw [requireAll_of_loaded hlists hnames] at hrequire
      cases hrequire
    · rw [herror] at hc
      cases hc
    · rw [herror]
      constructor
      · intro he
        obtain rfl := Except.error.inj he
        exact hfault
      · intro hfault'
        rw [requireAll_of_firstFault hfault'] at hrequire
        exact congrArg Except.error (Except.error.inj hrequire).symm

/-- A file is loaded, and a second one is at fault, which declares a check of the same name. -/
theorem required_checks_twice :
    let first : Text := "name: A\ncategory: json\nmessage: m\npattern: x".toList
    let second : Text := "name: A\ncategory: liquid\nmessage: m\npattern: y".toList
    let tree : FileTree :=
      { entries := [(["a.yml"], .file (.text first)), (["b.yml"], .file (.text second))] }
    let r : Registry := { registrations := [⟨"Old", .liquid, fun _ => .syntaxError⟩] }
    r.names.Nodup ∧
      (∃ c lists, new tree ⟨"."⟩ { require := [⟨"a.yml"⟩] } r = .ok c ∧
        Loaded tree ⟨"."⟩ [⟨"a.yml"⟩] lists ∧ c.MadeWith r lists.flatten ∧
        c.registry.names = ["Old", "A"]) ∧
      ∃ e, new tree ⟨"."⟩ { require := [⟨"a.yml"⟩, ⟨"b.yml"⟩] } r = .error e ∧
        FirstFault tree ⟨"."⟩ r.names [⟨"a.yml"⟩, ⟨"b.yml"⟩] e ∧
        e.message = "Check `A` is already registered" := by
  intro first second tree r
  have hr : r.names.Nodup := by decide
  have hok : (new tree ⟨"."⟩ { require := [⟨"a.yml"⟩] } r).toOption.map (·.registry.names) =
      some ["Old", "A"] := by decide +kernel
  have herror : (match new tree ⟨"."⟩ { require := [⟨"a.yml"⟩, ⟨"b.yml"⟩] } r with
      | .ok _ => none
      | .error e => some e.message) = some "Check `A` is already registered" := by decide +kernel
  refine ⟨hr, ?_, ?_⟩
  · cases hnew : new tree ⟨"."⟩ { require := [⟨"a.yml"⟩] } r with
    | error e =>
      rw [hnew] at hok
      cases hok
    | ok c =>
      rw [hnew] at hok
      obtain ⟨lists, hlists, hmade⟩ := (required_checks hr).2.1 c hnew
      exact ⟨c, lists, rfl, hlists, hmade, Option.some.inj hok⟩
  · cases hnew : new tree ⟨"."⟩ { require := [⟨"a.yml"⟩, ⟨"b.yml"⟩] } r with
    | ok c =>
      rw [hnew] at herror
      cases herror
    | error e =>
      rw [hnew] at herror
      exact ⟨e, rfl, ((required_checks hr).2.2 e).1 hnew, Option.some.inj herror⟩

end Config

end LiquidLint
