import LiquidLint.Directive
import Mathlib.Data.List.Induction

/-!
# What disabled ranges say

A directive opens a range for some keys and closes the ranges of others (`Directive.Opens`,
`Directive.Closes`). What one directive does to the ranges collected so far is said once
(`covers_follow`), and two readings of a whole list of directives follow by induction:

* `isDisabled_iff_exists`: a check is disabled at an offset when some directive further left, or right
  there, opens a range for it that no directive in between closes;
* `isDisabled_iff_stateAt`: where no directive stands, a check is disabled exactly when the directives
  further left, followed one after the other, leave it off.

The ranges under construction keep three things (`Open.UpTo`): no key has two open ranges, and no
range starts or stops further right than the last directive.
-/

namespace LiquidLint

/-- What is off at some place of a template: all checks, or some by name. -/
abbrev Off := DisableKey → Bool

/-- What is off after a directive. -/
def Directive.follow (off : Off) : Directive → Off
  | .disable names => fun key => (Directive.keys names).contains key || off key
  | .enable [] => fun _ => false
  | .enable names => fun key => off key && !(names.map some).contains key

/-- A directive opens a range for a key: for all checks when it names none, else for those it
names. -/
def Directive.Opens (key : DisableKey) : Directive → Prop
  | .disable names => key ∈ Directive.keys names
  | .enable _ => False

/-- A directive closes the range of a key: of every key when it names no check, else of those it
names. -/
def Directive.Closes (key : DisableKey) : Directive → Prop
  | .disable _ => False
  | .enable names => names = [] ∨ key ∈ names.map some

theorem Directive.follow_iff {off : Off} (d : Directive) (key : DisableKey) :
    d.follow off key = true ↔ off key = true ∧ ¬ d.Closes key ∨ d.Opens key := by
  cases d with
  | disable names =>
    simp only [follow, Opens, Closes, Bool.or_eq_true, List.contains_iff_mem, not_false_eq_true,
      and_true]
    exact or_comm
  | enable names =>
    cases names with
    | nil => simp [follow, Opens, Closes]
    | cons name names =>
      simp only [follow, Opens, Closes, Bool.and_eq_true, Bool.not_eq_true', ← Bool.not_eq_true,
        List.contains_iff_mem, or_false, reduceCtorEq, false_or]

/-- What is off at the offset `x` after the directives further left. -/
def Directive.stateAt (x : Nat) (off : Off) (ds : List (Nat × Directive)) : Off :=
  (ds.filter (·.1 < x)).foldl (fun off d => d.2.follow off) off

namespace DisabledRanges

namespace Open

/-- A range for `key`, closed or still open, holds the offset `x`. -/
def Covers (o : Open) (key : DisableKey) (x : Nat) : Prop :=
  (∃ span, (key, span) ∈ o.closed ∧ span.start ≤ x ∧ x ≤ span.stop) ∨
    ∃ start, (key, start) ∈ o.starts ∧ start ≤ x

/-- The ranges come from directives up to the offset `e`. -/
structure UpTo (o : Open) (e : Nat) : Prop where
  unique : ∀ key a b, (key, a) ∈ o.starts → (key, b) ∈ o.starts → a = b
  start_le : ∀ p ∈ o.starts, p.2 ≤ e
  stop_le : ∀ p ∈ o.closed, p.2.stop ≤ e

variable {o : Open} {e x : Nat} {key : DisableKey}

theorem UpTo.mono {e' : Nat} (h : o.UpTo e) (he : e ≤ e') : o.UpTo e' where
  unique := h.unique
  start_le p hp := Nat.le_trans (h.start_le p hp) he
  stop_le p hp := Nat.le_trans (h.stop_le p hp) he

/-- Closed ranges do not go on after the last directive. -/
theorem UpTo.le_of_mem_closed (h : o.UpTo e) {span : Span} (hmem : (key, span) ∈ o.closed)
    (hx : x ≤ span.stop) : x ≤ e := by
  have := h.stop_le _ hmem
  simp only at this
  omega

theorem mem_starts_of_lookup {start : Nat} (h : o.starts.lookup key = some start) :
    (key, start) ∈ o.starts := by
  obtain ⟨l₁, l₂, hl, -⟩ := List.lookup_eq_some_iff.1 h
  rw [hl]
  exact List.mem_append_right _ (List.mem_cons_self ..)

theorem not_mem_starts_of_lookup (h : o.starts.lookup key = none) (start : Nat) :
    (key, start) ∉ o.starts := by
  intro hmem
  have := List.lookup_eq_none_iff.1 h _ hmem
  simp at this

/-! ### One key -/

theorem upTo_disable (h : o.UpTo e) (key : DisableKey) : (o.disable e key).UpTo e := by
  unfold disable
  split
  · exact h
  · -- a new range starts here, and there is no other one for its key
    rename_i hnone
    have hfresh : ∀ start, (key, start) ∉ o.starts := by
      apply not_mem_starts_of_lookup
      exact Option.not_isSome_iff_eq_none.1 hnone
    refine ⟨fun k a b ha hb => ?_, fun p hp => ?_, h.stop_le⟩
    · simp only [List.mem_append, List.mem_singleton, Prod.mk.injEq] at ha hb
      rcases ha with ha | ⟨rfl, rfl⟩
      · rcases hb with hb | ⟨rfl, rfl⟩
        · exact h.unique k a b ha hb
        · exact absurd ha (hfresh a)
      · rcases hb with hb | ⟨-, rfl⟩
        · exact absurd hb (hfresh b)
        · rfl
    · rcases List.mem_append.1 hp with hp | hp
      · exact h.start_le p hp
      · obtain rfl := List.mem_singleton.1 hp
        exact Nat.le_refl e

theorem covers_disable (h : o.UpTo e) (key k : DisableKey) :
    (o.disable e key).Covers k x ↔ o.Covers k x ∨ k = key ∧ e ≤ x := by
  unfold disable
  split
  · -- the range that is open already started further left
    rename_i hsome
    obtain ⟨start, hstart⟩ := Option.isSome_iff_exists.1 hsome
    have hmem := mem_starts_of_lookup hstart
    refine ⟨Or.inl, ?_⟩
    rintro (hc | ⟨rfl, hx⟩)
    · exact hc
    · exact Or.inr ⟨start, hmem, Nat.le_trans (h.start_le _ hmem) hx⟩
  · -- what is covered from here on is what the new range covers
    unfold Covers
    simp only [List.mem_append, List.mem_singleton, Prod.mk.injEq]
    constructor
    · rintro (hc | ⟨start, hs | ⟨rfl, rfl⟩, hx⟩)
      · exact Or.inl (Or.inl hc)
      · exact Or.inl (Or.inr ⟨start, hs, hx⟩)
      · exact Or.inr ⟨rfl, hx⟩
    · rintro ((hc | ⟨start, hs, hx⟩) | ⟨rfl, hx⟩)
      · exact Or.inl hc
      · exact Or.inr ⟨start, Or.inl hs, hx⟩
      · exact Or.inr ⟨e, Or.inr ⟨rfl, rfl⟩, hx⟩

theorem upTo_enable (h : o.UpTo e) (key : DisableKey) : (o.enable e key).UpTo e := by
  unfold enable
  split
  · refine ⟨fun k a b ha hb => ?_, fun p hp => ?_, fun p hp => ?_⟩
    · exact h.unique k a b (List.mem_filter.1 ha).1 (List.mem_filter.1 hb).1
    · exact h.start_le p (List.mem_filter.1 hp).1
    · rcases List.mem_append.1 hp with hp | hp
      · exact h.stop_le p hp
      · obtain rfl := List.mem_singleton.1 hp
        exact Nat.le_refl e
  · exact h

theorem covers_enable (h : o.UpTo e) (key k : DisableKey) :
    (o.enable e key).Covers k x ↔ o.Covers k x ∧ ¬ (k = key ∧ e < x) := by
  unfold enable
  split
  · rename_i start hstart
    have hmem := mem_starts_of_lookup hstart
    unfold Covers
    simp only [List.mem_append, List.mem_singleton, List.mem_filter, Prod.mk.injEq, bne_iff_ne]
    constructor
    · rintro (⟨span, hs | ⟨rfl, rfl⟩, h1, h2⟩ | ⟨start', ⟨hs, hne⟩, hx⟩)
      · have := h.le_of_mem_closed hs h2
        exact ⟨Or.inl ⟨span, hs, h1, h2⟩, fun hk => by omega⟩
      · exact ⟨Or.inr ⟨start, hmem, h1⟩, fun hk => by simp only at h2; omega⟩
      · exact ⟨Or.inr ⟨start', hs, hx⟩, fun hk => hne hk.1⟩
    · rintro ⟨⟨span, hs, h1, h2⟩ | ⟨start', hs, hx⟩, hnot⟩
      · exact Or.inl ⟨span, Or.inl hs, h1, h2⟩
      · by_cases hk : k = key
        · -- the open range of `key` is the one that is closed
          subst hk
          obtain rfl := h.unique k start start' hmem hs
          have hle : x ≤ e := Nat.le_of_not_lt fun hlt => hnot ⟨rfl, hlt⟩
          exact Or.inl ⟨⟨start, e⟩, Or.inr ⟨rfl, rfl⟩, hx, hle⟩
        · exact Or.inr ⟨start', ⟨hs, hk⟩, hx⟩
  · -- no range of the key is open, so there is none that covers what comes later
    rename_i hnone
    refine ⟨fun hc => ⟨hc, ?_⟩, And.left⟩
    rintro ⟨rfl, hlt⟩
    rcases hc with ⟨span, hs, -, h2⟩ | ⟨start, hs, -⟩
    · have := h.le_of_mem_closed hs h2
      omega
    · exact not_mem_starts_of_lookup hnone start hs

/-! ### One directive -/

theorem covers_disableKeys (h : o.UpTo e) (keys : List DisableKey) :
    (keys.foldl (disable · e) o).UpTo e ∧ ∀ k, (keys.foldl (disable · e) o).Covers k x ↔
      o.Covers k x ∨ k ∈ keys ∧ e ≤ x := by
  induction keys generalizing o with
  | nil => exact ⟨h, by simp⟩
  | cons key keys ih =>
    obtain ⟨hup, hcovers⟩ := ih (upTo_disable h key)
    refine ⟨hup, fun k => ?_⟩
    rw [List.foldl_cons, hcovers, covers_disable h, List.mem_cons, or_and_right, or_assoc]

theorem covers_enableKeys (h : o.UpTo e) (keys : List DisableKey) :
    (keys.foldl (enable · e) o).UpTo e ∧ ∀ k, (keys.foldl (enable · e) o).Covers k x ↔
      o.Covers k x ∧ ¬ (k ∈ keys ∧ e < x) := by
  induction keys generalizing o with
  | nil => exact ⟨h, by simp⟩
  | cons key keys ih =>
    obtain ⟨hup, hcovers⟩ := ih (upTo_enable h key)
    refine ⟨hup, fun k => ?_⟩
    rw [List.foldl_cons, hcovers, covers_enable h, List.mem_cons, or_and_right, not_or, and_assoc]

theorem covers_enableAll (h : o.UpTo e) : (o.enableAll e).UpTo e ∧
    ∀ k, (o.enableAll e).Covers k x ↔ o.Covers k x ∧ x ≤ e := by
  unfold enableAll
  refine ⟨⟨fun k a b ha => absurd ha (by simp), fun p hp => absurd hp (by simp), fun p hp => ?_⟩,
    fun k => ?_⟩
  · rcases List.mem_append.1 hp with hp | hp
    · exact h.stop_le p hp
    · obtain ⟨q, -, rfl⟩ := List.mem_map.1 hp
      exact Nat.le_refl e
  · unfold Covers
    simp only [List.mem_append, List.mem_map, Prod.mk.injEq, List.not_mem_nil, false_and,
      exists_false, or_false]
    constructor
    · rintro ⟨span, hs | ⟨⟨k', start⟩, hs, rfl, rfl⟩, h1, h2⟩
      · exact ⟨Or.inl ⟨span, hs, h1, h2⟩, h.le_of_mem_closed hs h2⟩
      · exact ⟨Or.inr ⟨start, hs, h1⟩, h2⟩
    · rintro ⟨⟨span, hs, h1, h2⟩ | ⟨start, hs, h1⟩, hx⟩
      · exact ⟨span, Or.inl hs, h1, h2⟩
      · exact ⟨⟨start, e⟩, Or.inr ⟨(k, start), hs, rfl, rfl⟩, h1, hx⟩

theorem upTo_follow (h : o.UpTo e) (d : Directive) : (o.follow e d).UpTo e := by
  unfold follow
  split
  · exact (covers_disableKeys (x := e) h _).1
  · exact (covers_enableAll (x := e) h).1
  · exact (covers_enableKeys (x := e) h _).1

/-- **One directive**: a range stays where it was unless the directive closes it further left, and a
new one starts at the directive. -/
theorem covers_follow (h : o.UpTo e) (d : Directive) (k : DisableKey) :
    (o.follow e d).Covers k x ↔
      o.Covers k x ∧ ¬ (d.Closes k ∧ e < x) ∨ d.Opens k ∧ e ≤ x := by
  cases d with
  | disable names =>
    rw [follow, (covers_disableKeys h _).2]
    simp only [Directive.Opens, Directive.Closes, false_and, not_false_eq_true, and_true]
  | enable names =>
    cases names with
    | nil =>
      rw [follow, (covers_enableAll h).2]
      simp only [Directive.Opens, Directive.Closes, true_or, true_and, false_and, or_false, Nat.not_lt]
    | cons name names =>
      have hfollow : o.follow e (.enable (name :: names))
          = ((name :: names).map some).foldl (enable · e) o := rfl
      rw [hfollow, (covers_enableKeys h _).2]
      simp only [Directive.Opens, Directive.Closes, reduceCtorEq, false_or, false_and, or_false]

/-- Further right than a directive, the ranges say what is off after it. -/
theorem covers_follow_of_lt (h : o.UpTo e) (d : Directive) (hx : e < x) {off : Off}
    (hoff : ∀ k, off k = true ↔ o.Covers k x) (k : DisableKey) :
    d.follow off k = true ↔ (o.follow e d).Covers k x := by
  have hle : e ≤ x := Nat.le_of_lt hx
  rw [covers_follow h, Directive.follow_iff, hoff]
  simp only [hx, hle, and_true]

/-- Further left than a directive, nothing changes. -/
theorem covers_follow_of_gt (h : o.UpTo e) (d : Directive) (hx : x < e) (k : DisableKey) :
    (o.follow e d).Covers k x ↔ o.Covers k x := by
  have hlt : ¬ e < x := by omega
  have hle : ¬ e ≤ x := by omega
  rw [covers_follow h]
  simp only [hlt, hle, and_false, not_false_eq_true, and_true, or_false]

/-! ### All directives -/

/-- **Following directives**: where none stands, the ranges say what is off after those further
left. -/
theorem covers_foldl {ds : List (Nat × Directive)} (hds : ds.Pairwise fun a b => a.1 ≤ b.1)
    (h : o.UpTo e) (he : ∀ d ∈ ds, e ≤ d.1) (hx : ∀ d ∈ ds, d.1 ≠ x) {off : Off}
    (hoff : ∀ k, off k = true ↔ o.Covers k x) (k : DisableKey) :
    Directive.stateAt x off ds k = true ↔
      (ds.foldl (fun (o : Open) (offset, d) => o.follow offset d) o).Covers k x := by
  -- the induction is on the directives that are left, with what they have opened so far
  induction ds generalizing o e off with
  | nil => exact hoff k
  | cons d ds ih =>
    obtain ⟨offset, d⟩ := d
    obtain ⟨hle, hds⟩ := List.pairwise_cons.1 hds
    obtain ⟨hne, hx⟩ := List.forall_mem_cons.1 hx
    have hup : o.UpTo offset := h.mono (he _ (List.mem_cons_self ..))
    rw [List.foldl_cons]
    -- a directive further left counts for the state at `x`
    by_cases hlt : offset < x
    · have hstate : Directive.stateAt x off ((offset, d) :: ds)
          = Directive.stateAt x (d.follow off) ds := by
        simp [Directive.stateAt, hlt]
      rw [hstate]
      exact ih hds (upTo_follow hup d) hle hx (covers_follow_of_lt hup d hlt hoff)
    · -- one further right opens and closes ranges that do not reach back to `x`
      have hstate : Directive.stateAt x off ((offset, d) :: ds) = Directive.stateAt x off ds := by
        simp [Directive.stateAt, hlt]
      have hgt : x < offset := by
        simp only at hne
        omega
      rw [hstate]
      refine ih hds (upTo_follow hup d) hle hx fun k => ?_
      rw [covers_follow_of_gt hup d hgt, hoff]

theorem upTo_foldl {ds : List (Nat × Directive)} (hds : ds.Pairwise fun a b => a.1 ≤ b.1)
    {size : Nat} (h : o.UpTo e) (he : ∀ d ∈ ds, e ≤ d.1) (hsize : ∀ d ∈ ds, d.1 ≤ size)
    (hle : e ≤ size) :
    (ds.foldl (fun (o : Open) (offset, d) => o.follow offset d) o).UpTo size := by
  induction ds generalizing o e with
  | nil => exact h.mono hle
  | cons d ds ih =>
    obtain ⟨hfirst, hds⟩ := List.pairwise_cons.1 hds
    obtain ⟨hd, hsize⟩ := List.forall_mem_cons.1 hsize
    have hup : o.UpTo d.1 := h.mono (he _ (List.mem_cons_self ..))
    exact ih hds (upTo_follow hup d.2) hfirst hsize hd

theorem upTo_nil : UpTo ⟨[], []⟩ e := by
  refine ⟨fun k a b ha => ?_, fun p hp => ?_, fun p hp => ?_⟩
  · cases ha
  · cases hp
  · cases hp

/-- **Directives read directly**: a range holds the offset `x` when a directive up to `x` opens it and
none between the two closes it. -/
theorem covers_foldl_iff_exists {ds : List (Nat × Directive)}
    (hds : ds.Pairwise fun a b => a.1 < b.1) (k : DisableKey) :
    (ds.foldl (fun (o : Open) (offset, d) => o.follow offset d) ⟨[], []⟩).Covers k x ↔
      ∃ p ∈ ds, p.1 ≤ x ∧ p.2.Opens k ∧ ∀ q ∈ ds, p.1 < q.1 → q.1 < x → ¬ q.2.Closes k := by
  -- from the left: the last directive acts on what those before it have made
  induction ds using List.reverseRecOn with
  | nil => simp [Covers]
  | append_singleton ds last ih =>
    obtain ⟨e, d⟩ := last
    obtain ⟨hds, -, hlast⟩ := List.pairwise_append.1 hds
    have hlt : ∀ p ∈ ds, p.1 < e := fun p hp => hlast p hp _ (List.mem_singleton.2 rfl)
    have hup : (ds.foldl (fun (o : Open) (offset, d) => o.follow offset d) ⟨[], []⟩).UpTo e :=
      upTo_foldl (hds.imp Nat.le_of_lt) upTo_nil (fun p _ => Nat.zero_le p.1)
        (fun p hp => Nat.le_of_lt (hlt p hp)) (Nat.zero_le e)
    rw [List.foldl_append, List.foldl_cons, List.foldl_nil, covers_follow hup, ih hds]
    simp only [List.mem_append, List.mem_singleton, or_imp, forall_and, forall_eq]
    constructor
    · rintro (⟨⟨p, hp, hx, hopens, hnone⟩, hlast⟩ | ⟨hopens, hx⟩)
      · exact ⟨p, Or.inl hp, hx, hopens, hnone, fun _ hlt hcloses => hlast ⟨hcloses, hlt⟩⟩
      · refine ⟨(e, d), Or.inr rfl, hx, hopens, fun q hq hgt => ?_, fun hgt => ?_⟩
        · have := hlt q hq
          simp only at hgt
          omega
        · exact absurd hgt (Nat.lt_irrefl e)
    · rintro ⟨p, hp | rfl, hx, hopens, hnone, hlast⟩
      · exact Or.inl ⟨⟨p, hp, hx, hopens, hnone⟩, fun hc => hlast (hlt p hp) hc.2 hc.1⟩
      · exact Or.inr ⟨hopens, hx⟩

end Open

/-- Disabled ranges in terms of the ranges under construction: those still open run to the end. -/
theorem isDisabled_iff_covers {root : Liquid.Node} {source : Text} {x : Nat} (check : String)
    (hds : (directives root source).Pairwise fun a b => a.1 ≤ b.1)
    (hsize : ∀ d ∈ directives root source, d.1 ≤ source.size) :
    (ofTemplate root source).isDisabled check x = true ↔
      x ≤ source.size ∧ ∃ key, (key = none ∨ key = some check) ∧
        ((directives root source).foldl (fun (o : Open) (offset, d) => o.follow offset d)
          ⟨[], []⟩).Covers key x := by
  have hup := Open.upTo_foldl hds (Open.upTo_nil (e := 0)) (fun d _ => Nat.zero_le d.1) hsize
    (Nat.zero_le _)
  -- at the end of the source all ranges that are still open are closed there
  have hall : ∀ key, (∃ span, (key, span) ∈ (ofTemplate root source).ranges ∧
      span.start ≤ x ∧ x ≤ span.stop) ↔
      ((directives root source).foldl (fun (o : Open) (offset, d) => o.follow offset d)
        ⟨[], []⟩).Covers key x ∧ x ≤ source.size := by
    intro key
    rw [← (Open.covers_enableAll hup).2 key]
    exact (or_iff_left (by simp [Open.enableAll])).symm
  rw [isDisabled, List.any_eq_true]
  simp only [Bool.and_eq_true, Bool.or_eq_true, beq_iff_eq, decide_eq_true_eq]
  constructor
  · rintro ⟨⟨key, span⟩, hmem, ⟨hkey, h1⟩, h2⟩
    obtain ⟨hcovers, hx⟩ := (hall key).1 ⟨span, hmem, h1, h2⟩
    exact ⟨hx, key, hkey, hcovers⟩
  · rintro ⟨hx, key, hkey, hcovers⟩
    obtain ⟨span, hmem, h1, h2⟩ := (hall key).2 ⟨hcovers, hx⟩
    exact ⟨(key, span), hmem, ⟨hkey, h1⟩, h2⟩

/-- **Disabled ranges, read directly**: a check is disabled at an offset of the source when some
directive up to there opens a range, for the check or for all, and none in between closes it. -/
theorem isDisabled_iff_exists {root : Liquid.Node} {source : Text} {x : Nat} (check : String)
    (hds : (directives root source).Pairwise fun a b => a.1 < b.1)
    (hsize : ∀ d ∈ directives root source, d.1 ≤ source.size) :
    (ofTemplate root source).isDisabled check x = true ↔
      x ≤ source.size ∧ ∃ key, (key = none ∨ key = some check) ∧
        ∃ p ∈ directives root source, p.1 ≤ x ∧ p.2.Opens key ∧
          ∀ q ∈ directives root source, p.1 < q.1 → q.1 < x → ¬ q.2.Closes key := by
  rw [isDisabled_iff_covers check (hds.imp Nat.le_of_lt) hsize]
  simp only [Open.covers_foldl_iff_exists hds]

/-- **Disabled ranges, followed**: at an offset where no directive stands, a check is disabled when
the directives further left leave it off, by its name or together with all others. -/
theorem isDisabled_iff_stateAt {root : Liquid.Node} {source : Text} {x : Nat} (check : String)
    (hds : (directives root source).Pairwise fun a b => a.1 ≤ b.1)
    (hsize : ∀ d ∈ directives root source, d.1 ≤ source.size) (hle : x ≤ source.size)
    (hx : ∀ d ∈ directives root source, d.1 ≠ x) :
    (ofTemplate root source).isDisabled check x =
      (Directive.stateAt x (fun _ => false) (directives root source) none ||
        Directive.stateAt x (fun _ => false) (directives root source) (some check)) := by
  have hoff : ∀ k : DisableKey, (fun _ => false : Off) k = true ↔ Open.Covers ⟨[], []⟩ k x := by
    simp [Open.Covers]
  have hstate := Open.covers_foldl hds (Open.upTo_nil (e := 0)) (fun d _ => Nat.zero_le d.1) hx hoff
  rw [Bool.eq_iff_iff, Bool.or_eq_true, hstate, hstate, isDisabled_iff_covers check hds hsize]
  simp only [hle, true_and, or_and_right, exists_or, exists_eq_left]

end DisabledRanges

end LiquidLint
