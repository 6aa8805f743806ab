import LiquidLint.Yaml.Parse
import Mathlib.Data.List.Forall2
import Mathlib.Data.Option.Basic
import Mathlib.Tactic.Common

/-!
# Equality of YAML values

The keys of a mapping are told apart by `YamlValue.same`, for which the order of entries does not
matter. It is reflexive and transitive. Whether it is symmetric depends on the mappings inside a value:
a mapping of two equal entries is the same as one of these and another, but not the other way round. No
such mapping can be read from a text. In the values that can be read, the keys of every mapping differ
(`YamlValue.Proper`, `YamlValue.proper_of_parse?`), and on these values `same` is an equivalence
(`YamlValue.same_symm`). With that, setting the value of a key does what it should to every other key
(`YamlValue.lookup_insert`), and so does setting many (`YamlValue.lookup_foldl_insert`).
-/

namespace LiquidLint

/-! ### Numbers -/

namespace Binary64

variable {x y z : Binary64}

/-- Two numbers are the same if they are equal or both are zeros. -/
theorem same_iff : x.same y = true ↔
    x = y ∨ ∃ s e t f, x = .finite s 0 e ∧ y = .finite t 0 f := by
  unfold same
  split
  · simp
  · rename_i hzero
    rw [beq_iff_eq]
    refine ⟨Or.inl, ?_⟩
    rintro (h | ⟨s, e, t, f, rfl, rfl⟩)
    · exact h
    · exact absurd rfl (hzero s e t f rfl)

theorem same_refl (x : Binary64) : x.same x = true := same_iff.2 (Or.inl rfl)

theorem same_symm (h : x.same y = true) : y.same x = true := by
  rcases same_iff.1 h with rfl | ⟨s, e, t, f, rfl, rfl⟩
  · exact same_refl _
  · exact same_iff.2 (Or.inr ⟨t, f, s, e, rfl, rfl⟩)

theorem same_trans (h : x.same y = true) (h' : y.same z = true) : x.same z = true := by
  rcases same_iff.1 h with rfl | ⟨s, e, t, f, rfl, rfl⟩
  · exact h'
  · rcases same_iff.1 h' with rfl | ⟨_, _, u, g, -, rfl⟩
    · exact h
    · exact same_iff.2 (Or.inr ⟨s, e, u, g, rfl, rfl⟩)

end Binary64

namespace YamlValue

variable {u v w k l q : YamlValue} {es fs : List (YamlValue × YamlValue)}

/-! ### Values by their parts -/

/-- What holds of scalars and of collections of values of which it holds, holds of all values. -/
@[elab_as_elim]
theorem induction {P : YamlValue → Prop} (null : P .null) (bool : ∀ b, P (.bool b))
    (integer : ∀ n, P (.integer n)) (real : ∀ x, P (.real x)) (string : ∀ s, P (.string s))
    (sequence : ∀ vs, (∀ v ∈ vs, P v) → P (.sequence vs))
    (mapping : ∀ es, (∀ e ∈ es, P e.1 ∧ P e.2) → P (.mapping es))
    (tagged : ∀ tag v, P v → P (.tagged tag v)) (v : YamlValue) : P v :=
  @YamlValue.rec P (fun vs => ∀ v ∈ vs, P v) (fun es => ∀ e ∈ es, P e.1 ∧ P e.2)
    (fun e => P e.1 ∧ P e.2) null bool integer real string sequence mapping tagged
    (List.forall_mem_nil _) (fun _ _ hv hvs => List.forall_mem_cons.2 ⟨hv, hvs⟩)
    (List.forall_mem_nil _) (fun _ _ he hes => List.forall_mem_cons.2 ⟨he, hes⟩)
    (fun _ _ hk hv => ⟨hk, hv⟩) v

theorem sameElements_iff (vs ws : List YamlValue) :
    sameElements vs ws = true ↔ List.Forall₂ (same · · = true) vs ws := by
  induction vs generalizing ws with
  | nil => cases ws <;> simp [sameElements]
  | cons v vs ih => cases ws <;> simp [sameElements, ih]

/-- Two entries with the same key and the same value. -/
def SameEntry (e f : YamlValue × YamlValue) : Prop := same e.1 f.1 = true ∧ same e.2 f.2 = true

theorem sameEntries_iff : sameEntries es fs = true ↔ ∀ e ∈ es, ∃ f ∈ fs, SameEntry e f := by
  induction es with
  | nil => simp [sameEntries]
  | cons e es ih => simp [sameEntries, ih, SameEntry]

/-- Values that are the same, by their parts. -/
inductive Matches : YamlValue → YamlValue → Prop where
  | null : Matches .null .null
  | bool (b : Bool) : Matches (.bool b) (.bool b)
  | integer (n : Int) : Matches (.integer n) (.integer n)
  | real {x y : Binary64} : x.same y = true → Matches (.real x) (.real y)
  | string (s : String) : Matches (.string s) (.string s)
  | sequence {vs ws : List YamlValue} : List.Forall₂ (same · · = true) vs ws →
      Matches (.sequence vs) (.sequence ws)
  | mapping {es fs : List (YamlValue × YamlValue)} : es.length = fs.length →
      (∀ e ∈ es, ∃ f ∈ fs, SameEntry e f) → Matches (.mapping es) (.mapping fs)
  | tagged (tag : String) {v w : YamlValue} : same v w = true →
      Matches (.tagged tag v) (.tagged tag w)

theorem same_iff : same v w = true ↔ Matches v w := by
  constructor
  · intro h
    unfold same at h
    split at h
    · exact .null
    · exact beq_iff_eq.1 h ▸ .bool _
    · exact beq_iff_eq.1 h ▸ .integer _
    · exact .real h
    · exact beq_iff_eq.1 h ▸ .string _
    · exact .sequence ((sameElements_iff _ _).1 h)
    · obtain ⟨hlength, hentries⟩ := Bool.and_eq_true_iff.1 h
      exact .mapping (beq_iff_eq.1 hlength) (sameEntries_iff.1 hentries)
    · obtain ⟨htag, hvalue⟩ := Bool.and_eq_true_iff.1 h
      exact beq_iff_eq.1 htag ▸ .tagged _ hvalue
    · cases h
  · intro h
    cases h with
    | sequence h => exact (sameElements_iff _ _).2 h
    | mapping hlength h =>
      exact Bool.and_eq_true_iff.2 ⟨beq_iff_eq.2 hlength, sameEntries_iff.2 h⟩
    | _ => simp_all [same]

/-! ### Reflexive and transitive -/

@[simp] theorem same_refl (v : YamlValue) : same v v = true := by
  induction v using induction with
  | null => exact same_iff.2 .null
  | bool b => exact same_iff.2 (.bool b)
  | integer n => exact same_iff.2 (.integer n)
  | real x => exact same_iff.2 (.real x.same_refl)
  | string s => exact same_iff.2 (.string s)
  | sequence vs ih => exact same_iff.2 (.sequence (List.forall₂_same.2 ih))
  | mapping es ih => exact same_iff.2 (.mapping rfl fun e he => ⟨e, he, ih e he⟩)
  | tagged tag v ih => exact same_iff.2 (.tagged tag ih)

theorem same_trans (h : same u v = true) (h' : same v w = true) : same u w = true := by
  -- by induction on the first value: its shape fixes the shape of the other two
  induction u using induction generalizing v w with
  | null => cases same_iff.1 h; exact h'
  | bool b => cases same_iff.1 h; exact h'
  | integer n => cases same_iff.1 h; exact h'
  | string s => cases same_iff.1 h; exact h'
  | real x =>
    cases same_iff.1 h with | real hxy =>
    cases same_iff.1 h' with | real hyz =>
    exact same_iff.2 (.real (Binary64.same_trans hxy hyz))
  | sequence us ih =>
    cases same_iff.1 h with | sequence huv =>
    cases same_iff.1 h' with | @sequence _ ws hvw =>
    refine same_iff.2 (.sequence ?_)
    clear h h'
    induction huv generalizing ws with
    | nil => exact hvw
    | @cons u v us vs huv _ ihs =>
      obtain ⟨w, ws, hfirst, hrest, rfl⟩ := List.forall₂_cons_left_iff.1 hvw
      exact .cons (ih u List.mem_cons_self huv hfirst)
        (ihs (fun u hu => ih u (List.mem_cons_of_mem _ hu)) hrest)
  -- an entry's partner has a partner in turn
  | mapping es ih =>
    cases same_iff.1 h with | mapping hlength hes =>
    cases same_iff.1 h' with | mapping hlength' hfs =>
    refine same_iff.2 (.mapping (hlength.trans hlength') fun e he => ?_)
    obtain ⟨f, hf, hkey, hvalue⟩ := hes e he
    obtain ⟨g, hg, hkey', hvalue'⟩ := hfs f hf
    exact ⟨g, hg, (ih e he).1 hkey hkey', (ih e he).2 hvalue hvalue'⟩
  | tagged tag u ih =>
    cases same_iff.1 h with | tagged _ huv =>
    cases same_iff.1 h' with | tagged _ hvw =>
    exact same_iff.2 (.tagged tag (ih huv hvw))

/-! ### Proper values -/

/-- Values in which no mapping has a key twice. -/
inductive Proper : YamlValue → Prop where
  | null : Proper .null
  | bool (b : Bool) : Proper (.bool b)
  | integer (n : Int) : Proper (.integer n)
  | real (x : Binary64) : Proper (.real x)
  | string (s : String) : Proper (.string s)
  | sequence {vs : List YamlValue} : (∀ v ∈ vs, Proper v) → Proper (.sequence vs)
  | mapping {es : List (YamlValue × YamlValue)} : (∀ e ∈ es, Proper e.1) → (∀ e ∈ es, Proper e.2) →
      es.Pairwise (fun e f => same f.1 e.1 = false) → Proper (.mapping es)
  | tagged (tag : String) {v : YamlValue} : Proper v → Proper (.tagged tag v)

@[simp] theorem proper_sequence_iff {vs : List YamlValue} :
    (sequence vs).Proper ↔ ∀ v ∈ vs, v.Proper :=
  ⟨fun | .sequence h => h, .sequence⟩

@[simp] theorem proper_mapping_iff :
    (mapping es).Proper ↔ (∀ e ∈ es, e.1.Proper) ∧ (∀ e ∈ es, e.2.Proper) ∧
      es.Pairwise fun e f => same f.1 e.1 = false :=
  ⟨fun | .mapping hkeys hvalues hapart => ⟨hkeys, hvalues, hapart⟩,
    fun ⟨hkeys, hvalues, hapart⟩ => .mapping hkeys hvalues hapart⟩

@[simp] theorem proper_tagged_iff {tag : String} : (tagged tag v).Proper ↔ v.Proper :=
  ⟨fun | .tagged _ h => h, .tagged tag⟩

/-- As many things as there are places, each with a place and no two with the same one, leave no place
empty. -/
theorem exists_mem_of_length_le {α β : Type} {R : α → β → Prop} {as : List α} {bs : List β}
    (hplace : ∀ a ∈ as, ∃ b ∈ bs, R a b) (hapart : as.Pairwise fun a a' => ∀ b ∈ bs, R a b → ¬ R a' b)
    (hlength : bs.length ≤ as.length) : ∀ b ∈ bs, ∃ a ∈ as, R a b := by
  induction as generalizing bs with
  | nil =>
    intro b hb
    rw [List.eq_nil_of_length_eq_zero (Nat.le_zero.1 hlength)] at hb
    cases hb
  | cons a as ih =>
    obtain ⟨hfirst, hrest⟩ := List.pairwise_cons.1 hapart
    obtain ⟨b₀, hb₀, hab₀⟩ := hplace a List.mem_cons_self
    obtain ⟨before, after, rfl⟩ := List.append_of_mem hb₀
    -- the place of the first thing is taken, so the others have theirs among the rest
    have hsub : ∀ b, b ∈ before ++ after → b ∈ before ++ b₀ :: after := by
      intro b hb
      rcases List.mem_append.1 hb with hb | hb
      · exact List.mem_append_left _ hb
      · exact List.mem_append_right _ (List.mem_cons_of_mem _ hb)
    have hothers : ∀ b ∈ before ++ after, ∃ a' ∈ as, R a' b := by
      refine ih ?_ (hrest.imp fun h b hb => h b (hsub b hb)) ?_
      · intro a' ha'
        obtain ⟨b, hb, hab⟩ := hplace a' (List.mem_cons_of_mem _ ha')
        have hne : b ≠ b₀ := by
          rintro rfl
          exact hfirst a' ha' b hb hab₀ hab
        refine ⟨b, ?_, hab⟩
        simpa [hne] using hb
      · simp only [List.length_append, List.length_cons] at hlength ⊢
        omega
    intro b hb
    by_cases hbb : b = b₀
    · exact ⟨a, List.mem_cons_self, hbb ▸ hab₀⟩
    · obtain ⟨a', ha', hab⟩ := hothers b (by simpa [hbb] using hb)
      exact ⟨a', List.mem_cons_of_mem _ ha', hab⟩

/-- **Equality is symmetric** on proper values. -/
theorem same_symm (hv : v.Proper) (hw : w.Proper) (h : same v w = true) : same w v = true := by
  induction v using induction generalizing w with
  | null => cases same_iff.1 h; exact h
  | bool b => cases same_iff.1 h; exact h
  | integer n => cases same_iff.1 h; exact h
  | string s => cases same_iff.1 h; exact h
  | real x =>
    cases same_iff.1 h with | real hxy =>
    exact same_iff.2 (.real (Binary64.same_symm hxy))
  | sequence vs ih =>
    cases same_iff.1 h with | sequence hvw =>
    rw [proper_sequence_iff] at hv hw
    refine same_iff.2 (.sequence ?_)
    clear h
    induction hvw with
    | nil => exact .nil
    | @cons v w vs ws hvw _ ihs =>
      refine .cons (ih v List.mem_cons_self (hv v List.mem_cons_self) (hw w List.mem_cons_self) hvw)
        (ihs (fun v' hv' => ih v' (List.mem_cons_of_mem _ hv')) ?_ ?_)
      · exact fun v' hv' => hv v' (List.mem_cons_of_mem _ hv')
      · exact fun w' hw' => hw w' (List.mem_cons_of_mem _ hw')
  | mapping es ih =>
    cases same_iff.1 h with | @mapping _ fs hlength hes =>
    obtain ⟨hekeys, hevalues, heapart⟩ := proper_mapping_iff.1 hv
    obtain ⟨hfkeys, hfvalues, -⟩ := proper_mapping_iff.1 hw
    refine same_iff.2 (.mapping hlength.symm fun f hf => ?_)
    have hback : ∃ e ∈ es, SameEntry e f := by
      refine exists_mem_of_length_le hes ?_ (Nat.le_of_eq hlength.symm) f hf
      -- two entries that are the same as one entry have the same key
      refine heapart.imp_of_mem fun {e e'} he he' hne f hf h h' => ?_
      have hkey := (ih e he).1 (hekeys e he) (hfkeys f hf) h.1
      rw [same_trans h'.1 hkey] at hne
      cases hne
    obtain ⟨e, he, hkey, hvalue⟩ := hback
    exact ⟨e, he, (ih e he).1 (hekeys e he) (hfkeys f hf) hkey,
      (ih e he).2 (hevalues e he) (hfvalues f hf) hvalue⟩
  | tagged tag v ih =>
    cases same_iff.1 h with | tagged _ hvw =>
    exact same_iff.2 (.tagged tag (ih (proper_tagged_iff.1 hv) (proper_tagged_iff.1 hw) hvw))

/-! ### Keys -/

theorem lookup_eq_none_iff : lookup k es = none ↔ ∀ e ∈ es, same k e.1 = false := by
  induction es with
  | nil => simp [lookup]
  | cons e es ih =>
    rw [lookup, List.forall_mem_cons]
    by_cases h : same k e.1 = true <;> simp [h, ih]

/-- The keys after a value is set: a new key comes last. -/
theorem keys_insert : (insert k v es).map (·.1) =
    es.map (·.1) ++ if lookup k es = none then [k] else [] := by
  induction es with
  | nil => rfl
  | cons e es ih =>
    rw [insert, lookup]
    by_cases h : same k e.1 = true <;> simp [h, ih]

/-- **Setting the value of a key** changes what is found for this key, and for no other. -/
theorem lookup_insert (hq : q.Proper) (hk : k.Proper) (hes : ∀ e ∈ es, e.1.Proper) :
    lookup q (insert k v es) = if same q k then some v else lookup q es := by
  induction es with
  | nil => rfl
  | cons e es ih =>
    obtain ⟨he, hes⟩ := List.forall_mem_cons.1 hes
    rw [insert]
    split
    · rename_i hke
      -- the old key stays, and what is the same as one of the two keys is the same as the other
      have hqe : same q e.1 = same q k :=
        Bool.eq_iff_iff.2 ⟨fun h => same_trans h (same_symm hk he hke), fun h => same_trans h hke⟩
      rw [lookup, lookup, hqe]
      split <;> rfl
    · rename_i hke
      rw [lookup, lookup, ih hes]
      by_cases hqe : same q e.1 = true
      · have hqk : same q k = false := by
          rw [Bool.eq_false_iff]
          exact fun h => hke (same_trans (same_symm hq hk h) hqe)
        simp [hqe, hqk]
      · simp [hqe]

/-- Nothing but a string itself is the same as it. -/
theorem same_string_iff {key : String} : same k (.string key) = true ↔ k = .string key := by
  cases k <;> simp [same]

theorem string_same_iff {key : String} : same (.string key) k = true ↔ k = .string key := by
  cases k with
  | string s =>
    rw [eq_comm (a := string s)]
    simp [same]
  | _ => simp [same]

/-- A key that is a string is found whatever the other keys are. -/
theorem lookup_string_insert (key : String) :
    lookup (.string key) (insert k v es) =
      if same (.string key) k then some v else lookup (.string key) es := by
  induction es with
  | nil => rfl
  | cons e es ih =>
    rw [insert]
    split
    · rename_i hke
      have hsame : same (.string key) e.1 = same (.string key) k := by
        refine Bool.eq_iff_iff.2 ⟨fun h => ?_, fun h => same_trans h hke⟩
        rw [string_same_iff.1 h] at hke
        exact string_same_iff.2 (same_string_iff.1 hke)
      rw [lookup, lookup, hsame]
      split <;> rfl
    · rename_i hke
      rw [lookup, lookup, ih]
      by_cases h : same (.string key) e.1 = true
      · -- the keys differ, so they cannot both be the one looked up
        have hk : same (.string key) k = false := by
          rw [Bool.eq_false_iff]
          intro hk
          rw [string_same_iff.1 h, string_same_iff.1 hk] at hke
          exact hke (same_refl _)
        simp [h, hk]
      · simp [h]

theorem proper_keys_insert (hk : k.Proper) (hes : ∀ e ∈ es, e.1.Proper) :
    ∀ e ∈ insert k v es, e.1.Proper := by
  intro e he
  have hkey : e.1 ∈ (insert k v es).map (·.1) := List.mem_map_of_mem he
  rw [keys_insert, List.mem_append] at hkey
  rcases hkey with hkey | hkey
  · obtain ⟨f, hf, hfe⟩ := List.mem_map.1 hkey
    exact hfe ▸ hes f hf
  · split at hkey
    · rw [List.mem_singleton.1 hkey]
      exact hk
    · cases hkey

/-- What is found after some values were set one after the other. -/
theorem lookup_foldl_insert (hq : q.Proper) (hes : ∀ e ∈ es, e.1.Proper) (hfs : (mapping fs).Proper) :
    lookup q (fs.foldl (fun es f => insert f.1 f.2 es) es) = (lookup q fs).or (lookup q es) := by
  induction fs generalizing es with
  | nil => rfl
  | cons f fs ih =>
    obtain ⟨hkeys, hvalues, hapart⟩ := proper_mapping_iff.1 hfs
    obtain ⟨hf, hkeys⟩ := List.forall_mem_cons.1 hkeys
    obtain ⟨hfirst, hapart⟩ := List.pairwise_cons.1 hapart
    have hrest : (mapping fs).Proper := .mapping hkeys (List.forall_mem_cons.1 hvalues).2 hapart
    rw [List.foldl_cons, ih (proper_keys_insert hf hes) hrest, lookup_insert hq hf hes, lookup]
    by_cases hqf : same q f.1 = true
    · -- no later key is the same as this one
      have hnone : lookup q fs = none := by
        refine lookup_eq_none_iff.2 fun g hg => Bool.eq_false_iff.2 fun hqg => ?_
        have hgf := same_trans (same_symm hq (hkeys g hg) hqg) hqf
        rw [hfirst g hg] at hgf
        cases hgf
      simp [hqf, hnone]
    · simp [hqf]

/-- A key that is a string is found whatever else was set before. -/
theorem lookup_string_foldl_insert (hfs : (mapping fs).Proper) (key : String) :
    lookup (.string key) (fs.foldl (fun es f => insert f.1 f.2 es) es) =
      (lookup (.string key) fs).or (lookup (.string key) es) := by
  induction fs generalizing es with
  | nil => rfl
  | cons f fs ih =>
    obtain ⟨hkeys, hvalues, hapart⟩ := proper_mapping_iff.1 hfs
    obtain ⟨hfirst, hapart⟩ := List.pairwise_cons.1 hapart
    have hrest : (mapping fs).Proper :=
      .mapping (List.forall_mem_cons.1 hkeys).2 (List.forall_mem_cons.1 hvalues).2 hapart
    rw [List.foldl_cons, ih hrest, lookup_string_insert, lookup]
    by_cases hf : same (.string key) f.1 = true
    · have hnone : lookup (.string key) fs = none := by
        refine lookup_eq_none_iff.2 fun g hg => ?_
        have hne := hfirst g hg
        rw [string_same_iff.1 hf, Bool.eq_false_iff] at hne
        exact Bool.eq_false_iff.2 fun h => hne (same_string_iff.2 (string_same_iff.1 h))
      simp [hf, hnone]
    · simp [hf]

/-- The keys after some values were set one after the other: the new ones come last. -/
theorem keys_foldl_insert (hes : ∀ e ∈ es, e.1.Proper) (hfs : (mapping fs).Proper) :
    (fs.foldl (fun es f => insert f.1 f.2 es) es).map (·.1) =
      es.map (·.1) ++ (fs.map (·.1)).filter fun k => (lookup k es).isNone := by
  induction fs generalizing es with
  | nil => simp
  | cons f fs ih =>
    obtain ⟨hkeys, hvalues, hapart⟩ := proper_mapping_iff.1 hfs
    obtain ⟨hf, hkeys⟩ := List.forall_mem_cons.1 hkeys
    obtain ⟨hfirst, hapart⟩ := List.pairwise_cons.1 hapart
    have hrest : (mapping fs).Proper := .mapping hkeys (List.forall_mem_cons.1 hvalues).2 hapart
    -- a later key is new exactly if it was new before
    have hlater : (fs.map (·.1)).filter (fun k => (lookup k (insert f.1 f.2 es)).isNone) =
        (fs.map (·.1)).filter fun k => (lookup k es).isNone := by
      refine List.filter_congr fun k hk => ?_
      obtain ⟨g, hg, rfl⟩ := List.mem_map.1 hk
      rw [lookup_insert (hkeys g hg) hf hes, hfirst g hg]
      rfl
    rw [List.foldl_cons, ih (proper_keys_insert hf hes) hrest, hlater, keys_insert, List.map_cons,
      List.filter_cons, List.append_assoc]
    by_cases hnew : lookup f.1 es = none <;> simp [hnew]

end YamlValue

/-! ### Reading -/

namespace Yaml

open YamlValue (Proper)

variable {α β : Type} {P : α → Prop} {Q : β → Prop} {v w : YamlValue}

/-- Whether everything that a step can yield has a property. -/
def Yields (x : Resolve α) (P : α → Prop) : Prop := ∀ a b v, x.run a = some (v, b) → P v

theorem yields_pure {v : α} (h : P v) : Yields (pure v) P := by
  intro a b w hw
  obtain ⟨rfl, -⟩ := Prod.mk.inj (Option.some.inj hw)
  exact h

theorem yields_failure : Yields (failure : Resolve α) P := by
  intro a b v h
  cases h

theorem yields_lift {x : Option α} (h : ∀ v, x = some v → P v) : Yields (liftM x) P := by
  intro a b v hv
  cases hx : x with
  | none =>
    rw [hx] at hv
    cases hv
  | some u =>
    rw [hx] at hv
    obtain ⟨rfl, -⟩ := Prod.mk.inj (Option.some.inj hv)
    exact h u hx

theorem Yields.bind {x : Resolve α} {f : α → Resolve β} (hx : Yields x P)
    (hf : ∀ v, P v → Yields (f v) Q) : Yields (x >>= f) Q := by
  intro a b w hw
  rw [StateT.run_bind] at hw
  obtain ⟨⟨v, c⟩, hv, hw⟩ := Option.bind_eq_some_iff.1 hw
  exact hf v (hx a c v hv) c b w hw

theorem yields_true (x : Resolve α) : Yields x fun _ => True := fun _ _ _ _ => trivial

theorem yields_guard (p : Prop) [Decidable p] : Yields (guard p : Resolve Unit) fun _ => p := by
  unfold guard
  split
  · rename_i hp
    exact yields_pure hp
  · exact yields_failure

theorem yields_mapM {γ : Type} {f : γ → Resolve α} (h : ∀ n, Yields (f n) P) (ns : List γ) :
    Yields (ns.mapM f) fun vs => ∀ v ∈ vs, P v := by
  induction ns with
  | nil =>
    rw [List.mapM_nil]
    exact yields_pure (List.forall_mem_nil _)
  | cons n ns ih =>
    rw [List.mapM_cons]
    exact (h n).bind fun v hv => ih.bind fun vs hvs => yields_pure (List.forall_mem_cons.2 ⟨hv, hvs⟩)

theorem proper_of_withTag {tag : Option Text} (hv : v.Proper) (h : withTag tag v = some w) :
    w.Proper := by
  unfold withTag at h
  split at h
  · obtain rfl := Option.some.inj h
    exact hv
  · obtain ⟨name, -, rfl⟩ := Option.map_eq_some_iff.1 h
    cases name with
    | none => exact hv
    | some name => exact .tagged name hv

theorem proper_of_integerValue {t : Text} (h : integerValue t = some (some v)) : v.Proper := by
  unfold integerValue at h
  split at h
  · cases h
  · split at h
    · obtain rfl := Option.some.inj (Option.some.inj h)
      exact .integer _
    · split at h <;> cases h

theorem proper_of_plainValue? {t : Text} (h : plainValue? t = some v) : v.Proper := by
  unfold plainValue? at h
  dsimp only at h
  split at h
  · obtain rfl := Option.some.inj h
    exact .null
  · split at h
    · obtain rfl := Option.some.inj h
      exact .bool _
    · obtain ⟨read, hread, h⟩ := Option.bind_eq_some_iff.1 h
      split at h
      · obtain rfl := Option.some.inj h
        exact proper_of_integerValue hread
      · split at h <;> obtain rfl := Option.some.inj h
        · exact .real _
        · exact .string _

theorem proper_of_knownTagValue? {tag : String} {t : Text} (h : knownTagValue? tag t = some v) :
    v.Proper := by
  unfold knownTagValue? at h
  dsimp only at h
  split at h
  · obtain ⟨b, -, rfl⟩ := Option.map_eq_some_iff.1 h
    exact .bool b
  · exact proper_of_integerValue (Option.join_eq_some_iff.1 h)
  · obtain ⟨x, -, rfl⟩ := Option.map_eq_some_iff.1 h
    exact .real x
  · split at h
    · obtain rfl := Option.some.inj h
      exact .null
    · cases h
  · obtain rfl := Option.some.inj h
    exact .string _

theorem proper_of_scalarValue? {tag : Option Text} {t : Text} {plain : Bool}
    (h : scalarValue? tag t plain = some v) : v.Proper := by
  unfold scalarValue? at h
  split at h
  · obtain ⟨own, -, h⟩ := Option.bind_eq_some_iff.1 h
    split at h
    · dsimp only at h
      split at h
      · obtain ⟨w, hw, h⟩ := Option.bind_eq_some_iff.1 h
        exact proper_of_withTag (proper_of_plainValue? hw) h
      · obtain ⟨w, hw, h⟩ := Option.bind_eq_some_iff.1 h
        obtain rfl := Option.some.inj hw
        exact proper_of_withTag (.string _) h
    · exact proper_of_knownTagValue? h
  · split at h
    · exact proper_of_plainValue? h
    · obtain rfl := Option.some.inj h
      exact .string _

/-- The entries that are read have different keys. -/
theorem yields_entryValues {read : Node → Resolve YamlValue} (h : ∀ n, Yields (read n) Proper)
    {done : List (YamlValue × YamlValue)} (hdone : (YamlValue.mapping done).Proper)
    (entries : List (Node × Node)) :
    Yields (entryValues read done entries) fun es => (YamlValue.mapping es).Proper := by
  induction entries generalizing done with
  | nil => exact yields_pure hdone
  | cons e entries ih =>
    rw [entryValues]
    refine (h e.1).bind fun k hk => (yields_guard _).bind fun _ hnew => (h e.2).bind fun v hv => ih ?_
    -- the guard lets a key through that is the same as none before it
    rw [Option.isNone_iff_eq_none, YamlValue.lookup_eq_none_iff] at hnew
    obtain ⟨hkeys, hvalues, hapart⟩ := YamlValue.proper_mapping_iff.1 hdone
    refine .mapping ?_ ?_ (List.pairwise_append.2 ⟨hapart, List.pairwise_singleton _ _, ?_⟩)
    · simpa [or_imp, forall_and, hk] using hkeys
    · simpa [or_imp, forall_and, hv] using hvalues
    · intro e he f hf
      rw [List.mem_singleton.1 hf]
      exact hnew e he

theorem yields_nodeValue (depth : Nat) (n : Node) : Yields (nodeValue depth n) Proper := by
  -- by induction on the depth left: only a collection uses a level, for its children
  induction depth generalizing n with
  | zero =>
    cases n with
    | scalar slot tag text plain =>
      rw [nodeValue]
      exact yields_lift fun v hv => proper_of_scalarValue? hv
    | _ =>
      rw [nodeValue]
      exact yields_failure
  | succ depth ih =>
    have hread : ∀ n, Yields (do nodeValue depth (← target n)) Proper := fun n =>
      (yields_true (target n)).bind fun m _ => ih m
    cases n with
    | scalar slot tag text plain =>
      rw [nodeValue]
      exact yields_lift fun v hv => proper_of_scalarValue? hv
    | sequence slot tag items =>
      rw [nodeValue]
      exact (yields_mapM hread items).bind fun vs hvs =>
        yields_lift fun v hv => proper_of_withTag (.sequence hvs) hv
    | mapping slot tag entries =>
      rw [nodeValue]
      exact (yields_entryValues hread (.mapping (List.forall_mem_nil _) (List.forall_mem_nil _) .nil)
        entries).bind fun es hes => yields_lift fun v hv => proper_of_withTag hes hv
    | _ =>
      rw [nodeValue]
      exact yields_failure

end Yaml

/-- **In values that are read the keys of every mapping differ.** -/
theorem YamlValue.proper_of_parse? {source : Text} {v : YamlValue} (h : parse? source = some v) :
    v.Proper := by
  unfold parse? at h
  obtain ⟨tokens, -, h⟩ := Option.bind_eq_some_iff.1 h
  obtain ⟨document, -, h⟩ := Option.bind_eq_some_iff.1 h
  cases document with
  | none =>
    obtain rfl := Option.some.inj h
    exact .null
  | some n =>
    obtain ⟨⟨w, rest⟩, hw, h⟩ := Option.bind_eq_some_iff.1 h
    obtain rfl := Option.some.inj h
    exact Yaml.yields_nodeValue _ n _ _ w hw

end LiquidLint
