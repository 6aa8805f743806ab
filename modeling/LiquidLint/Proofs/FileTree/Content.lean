import LiquidLint.Proofs.FileTree.Write

/-!
# What files hold after a write

A write that succeeds puts one file at one key and leaves every other key as it was
(`exists_put_of_write`, `entry?_put`). The file may be new, and then a path can stop naming anything
because a file stands in its way. It never happens that a path names something else than before
(`resolve_of_put`), and a path that names another key goes on naming it (`resolve_put`). So what is
written is read back (`read_of_write`), and goes on being read back as long as only other keys are
written to (`read_put`).
-/

namespace LiquidLint.FileTree

variable {t t' : FileTree} {p q : Path} {key k : List String} {c : Content} {text : Text}

/-! ### Keys -/

/-- **One key changes** when an entry is put where no directory is. -/
theorem entry?_put (hdir : t.entry? key ≠ some .directory) (e : Entry) (k : List String) :
    entry? (t.put key e) k = if k = key then some e else t.entry? k := by
  unfold entry?
  rw [home_put]
  by_cases habove : k.isPrefixOf t.home = true
  · -- the working directory and those above it are there whatever the entries are
    have hne : k ≠ key := by
      rintro rfl
      exact hdir (if_pos habove)
    rw [if_pos habove, if_pos habove, if_neg hne]
  rw [if_neg habove, if_neg habove]
  unfold put
  split
  · rename_i hsome
    show (t.entries.map _).lookup k = _
    rw [lookup_replace]
    by_cases hk : k = key
    · rw [if_pos hk, if_pos hk, hk]
      obtain ⟨old, hold⟩ := Option.isSome_iff_exists.1 hsome
      rw [hold]
      rfl
    · rw [if_neg hk, if_neg hk]
  · rename_i hnone
    show (t.entries ++ [(key, e)]).lookup k = _
    rw [List.lookup_append]
    by_cases hk : k = key
    · have hlookup : t.entries.lookup k = none := by
        rw [hk]
        exact Option.not_isSome_iff_eq_none.1 hnone
      rw [if_pos hk, hlookup, hk]
      simp
    · have hbeq : (k == key) = false := beq_eq_false_iff_ne.2 hk
      rw [if_neg hk, List.lookup_cons, hbeq]
      simp

theorem entry?_put_self (hdir : t.entry? key ≠ some .directory) (e : Entry) :
    entry? (t.put key e) key = some e := by
  rw [entry?_put hdir, if_pos rfl]

theorem entry?_put_of_ne (hdir : t.entry? key ≠ some .directory) (e : Entry) (hk : k ≠ key) :
    entry? (t.put key e) k = t.entry? k := by
  rw [entry?_put hdir, if_neg hk]

/-! ### Paths -/

/-- A path names a key when it leads there and does not ask for a directory in place of a file. -/
theorem resolve_eq_ok_iff : t.resolve p = .ok k ↔
    p.text.isEmpty = false ∧ t.follow t.home p.components = .ok k ∧
      ((∃ c, t.entry? k = some (.file c)) → namesDirectory p = false) := by
  unfold resolve
  split
  · rename_i hempty
    simp [hempty]
  · rename_i hempty
    cases hfollow : t.follow t.home p.components with
    | error e => simp
    | ok k' =>
      simp only [Except.ok.injEq]
      split
      · rename_i c hfile
        by_cases hdir : namesDirectory p = true
        · refine iff_of_false (by simp [hdir]) ?_
          rintro ⟨-, rfl, hnames⟩
          have hno := hnames ⟨c, hfile⟩
          rw [hdir] at hno
          cases hno
        · simp [hdir, hempty]
      · rename_i hnofile
        constructor
        · intro h
          obtain rfl := Except.ok.inj h
          refine ⟨by simpa using hempty, rfl, ?_⟩
          rintro ⟨c, hc⟩
          exact absurd hc (hnofile c)
        · rintro ⟨-, rfl, -⟩
          rfl

/-- A path leads to the same key in trees that have the same directories. -/
theorem follow_of_directories
    (h : ∀ key, t'.entry? key = some .directory ↔ t.entry? key = some .directory)
    (here : List String) (cs : List Path.Component) :
    t'.follow here cs = .ok k ↔ t.follow here cs = .ok k := by
  induction cs generalizing here with
  | nil => rfl
  | cons component cs ih =>
    -- a path goes on from directories only
    have hstop : ∀ u : FileTree, u.entry? here ≠ some .directory →
        u.follow here (component :: cs) ≠ .ok k := by
      intro u hu
      unfold follow
      split
      · exact nofun
      · exact nofun
      · rename_i hdirectory
        exact absurd hdirectory hu
    by_cases hhere : t.entry? here = some .directory
    · unfold follow
      rw [hhere, (h here).2 hhere]
      cases component with
      | root => exact ih []
      | here => exact ih here
      | up => exact ih here.dropLast
      | name n => exact ih (here ++ [n])
    · exact iff_of_false (hstop t' fun hdir => hhere ((h here).1 hdir)) (hstop t hhere)

/-- A path leads to the same key before and after a file is put where no directory is. -/
theorem follow_put (hdir : t.entry? key ≠ some .directory) (here : List String)
    (cs : List Path.Component) :
    (t.put key (.file c)).follow here cs = .ok k ↔ t.follow here cs = .ok k := by
  refine follow_of_directories (fun k => ?_) here cs
  by_cases hk : k = key
  · rw [hk, entry?_put_self hdir]
    simp [hdir]
  · rw [entry?_put_of_ne hdir _ hk]

/-- A path that names something after a file was put into a tree named it before. -/
theorem resolve_of_put (hdir : t.entry? key ≠ some .directory)
    (h : (t.put key (.file c)).resolve p = .ok k) : t.resolve p = .ok k := by
  obtain ⟨hempty, hfollow, hfile⟩ := resolve_eq_ok_iff.1 h
  rw [home_put] at hfollow
  refine resolve_eq_ok_iff.2 ⟨hempty, (follow_put hdir _ _).1 hfollow, ?_⟩
  rintro ⟨d, hd⟩
  apply hfile
  by_cases hk : k = key
  · rw [hk]
    exact ⟨c, entry?_put_self hdir _⟩
  · rw [entry?_put_of_ne hdir _ hk]
    exact ⟨d, hd⟩

/-- A path that names another key goes on naming it. -/
theorem resolve_put (hdir : t.entry? key ≠ some .directory) (hk : k ≠ key)
    (h : t.resolve p = .ok k) : (t.put key (.file c)).resolve p = .ok k := by
  obtain ⟨hempty, hfollow, hfile⟩ := resolve_eq_ok_iff.1 h
  refine resolve_eq_ok_iff.2 ⟨hempty, ?_, ?_⟩
  · rw [home_put]
    exact (follow_put hdir _ _).2 hfollow
  · rw [entry?_put_of_ne hdir _ hk]
    exact hfile

/-! ### Reading and writing -/

theorem read_eq_ok_iff : t.read p = .ok text ↔
    ∃ k, t.resolve p = .ok k ∧ t.entry? k = some (.file (.text text)) := by
  unfold read find
  cases hresolve : t.resolve p with
  | error e => simp
  | ok k =>
    simp only [Except.ok.injEq, exists_eq_left']
    cases hentry : t.entry? k with
    | none => simp
    | some e =>
      cases e with
      | directory => simp
      | file c => cases c <;> simp

/-- **What a write does**: it puts a file at the key that the path names, which is no directory. -/
theorem exists_put_of_write (h : t.write p text = .ok t') :
    ∃ key, t.resolve p = .ok key ∧ t.entry? key ≠ some .directory ∧
      namesDirectory p = false ∧ t' = t.put key (.file (.text text)) := by
  unfold write at h
  cases hresolve : t.resolve p with
  | error e =>
    rw [hresolve] at h
    cases h
  | ok key =>
    rw [hresolve] at h
    dsimp only at h
    split at h
    · cases h
    · -- the file is there already
      rename_i c hfile
      have hdir : t.entry? key ≠ some .directory := by
        rw [hfile]
        simp
      obtain ⟨-, -, hnames⟩ := resolve_eq_ok_iff.1 hresolve
      exact ⟨key, rfl, hdir, hnames ⟨c, hfile⟩, (Except.ok.inj h).symm⟩
    · -- the file is new
      rename_i hnone
      have hdir : t.entry? key ≠ some .directory := by
        rw [hnone]
        simp
      split at h
      · split at h
        · cases h
        · rename_i hnames
          exact ⟨key, rfl, hdir, by simpa using hnames, (Except.ok.inj h).symm⟩
      · cases h
      · cases h

/-- What is read is not changed by putting a file somewhere else. -/
theorem read_put (hdir : t.entry? key ≠ some .directory)
    (hp : t.resolve p ≠ .ok key) (h : t.read p = .ok text) :
    (t.put key (.file c)).read p = .ok text := by
  obtain ⟨k, hk, hentry⟩ := read_eq_ok_iff.1 h
  have hne : k ≠ key := by
    rintro rfl
    exact hp hk
  refine read_eq_ok_iff.2 ⟨k, resolve_put hdir hne hk, ?_⟩
  rw [entry?_put_of_ne hdir _ hne]
  exact hentry

/-- **What is written is read back.** -/
theorem read_of_write (h : t.write p text = .ok t') : t'.read p = .ok text := by
  obtain ⟨key, hresolve, hdir, hnames, rfl⟩ := exists_put_of_write h
  obtain ⟨hempty, hfollow, -⟩ := resolve_eq_ok_iff.1 hresolve
  refine read_eq_ok_iff.2 ⟨key, ?_, entry?_put_self hdir _⟩
  refine resolve_eq_ok_iff.2 ⟨hempty, ?_, fun _ => hnames⟩
  rw [home_put]
  exact (follow_put hdir _ _).2 hfollow

end LiquidLint.FileTree
