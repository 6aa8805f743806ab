import LiquidLint.Correction
import LiquidLint.Proofs.Text.Cut

/-!
# Applying corrections

What is needed to follow a round of corrections: the schedule holds the corrections that were given
(`mem_schedule`), each of them once and later ones first (`pairwise_schedule`) when range and text tell
which one it is (`NoTwins`), an edit that is clear of the settled part puts its text in place
(`Patch.edit_append`), and an edit that reaches into the settled part changes nothing but the count of
skipped edits (`Patch.edit_of_limit_lt`).
-/

namespace LiquidLint.Correction

/-! ### The schedule -/

/-- A correction that takes bytes away or puts some in, and does so in the one way there is to say
it: nothing replaced is an insertion, and no text put in is a deletion. -/
def Tidy : Correction → Prop
  | .replace span text => span.start < span.stop ∧ text ≠ ""
  | .insert _ text => text ≠ ""
  | .delete _ => True

/-- Among tidy corrections the range and the text tell which one it is. -/
theorem Tidy.eq {a b : Correction} (ha : a.Tidy) (hb : b.Tidy) (hr : a.range = b.range)
    (ht : a.text = b.text) : a = b := by
  cases a <;> cases b <;> simp only [Tidy, range, text, Span.mk.injEq] at ha hb hr ht
  case insert.insert => rw [hr.1, ht]
  case replace.replace => rw [hr, ht]
  case delete.delete => rw [hr]
  case replace.insert => rw [hr] at ha; simp at ha
  case insert.replace => rw [← hr] at hb; simp at hb
  case replace.delete => exact absurd ht ha.2
  case insert.delete => exact absurd ht ha
  case delete.replace => exact absurd ht.symm hb.2
  case delete.insert => exact absurd ht.symm hb

theorem compare_eq_lex : compare =
    compareLex (fun a b => Ord.compare b.range.start a.range.start)
      (compareLex (fun a b => Ord.compare b.range.stop a.range.stop)
        (fun a b => Ord.compare a.text b.text)) := rfl

instance : Std.TransCmp compare := by
  have h1 : Std.TransCmp fun a b : Correction => Ord.compare b.range.start a.range.start :=
    inferInstanceAs (Std.TransCmp fun a b => compareOn (fun c : Correction => c.range.start) b a)
  have h2 : Std.TransCmp fun a b : Correction => Ord.compare b.range.stop a.range.stop :=
    inferInstanceAs (Std.TransCmp fun a b => compareOn (fun c : Correction => c.range.stop) b a)
  have h3 : Std.TransCmp fun a b : Correction => Ord.compare a.text b.text :=
    inferInstanceAs (Std.TransCmp (compareOn (fun c : Correction => c.text)))
  rw [compare_eq_lex]
  infer_instance

theorem le_trans {a b c : Correction} (h1 : a.le b = true) (h2 : b.le c = true) :
    a.le c = true := @Std.TransCmp.isLE_trans _ compare _ _ _ _ h1 h2

theorem le_total (a b : Correction) : (a.le b || b.le a) = true := by
  have h : compare b a = (compare a b).swap := Std.OrientedCmp.eq_swap
  rw [le, le, h]
  cases compare a b <;> rfl

theorem pairwise_mergeSort (cs : List Correction) :
    (cs.mergeSort le).Pairwise fun a b => a.le b = true :=
  @List.pairwise_mergeSort _ le (fun _ _ _ => le_trans) le_total cs

theorem le_iff {a b : Correction} : a.le b = true ↔
    b.range.start < a.range.start ∨ b.range.start = a.range.start ∧
      (b.range.stop < a.range.stop ∨ b.range.stop = a.range.stop ∧
        (Ord.compare a.text b.text).isLE = true) := by
  rw [le, compare, Ordering.isLE_then_iff_or, Ordering.isLE_then_iff_or]
  simp only [Nat.compare_eq_lt, Nat.compare_eq_eq]

/-- Corrections that may come in either order have the same range and the same text. -/
theorem range_text_of_le {a b : Correction} (h1 : a.le b = true) (h2 : b.le a = true) :
    a.range = b.range ∧ a.text = b.text := by
  rw [le_iff] at h1 h2
  -- an order of starts, then of ends, then of texts, each of which can only be equal both ways
  obtain ⟨hstart, hstop, ht1⟩ : b.range.start = a.range.start ∧ b.range.stop = a.range.stop ∧
      (Ord.compare a.text b.text).isLE = true := by
    rcases h1 with h1 | ⟨h1, h1' | h1'⟩ <;> rcases h2 with h2 | ⟨h2, h2' | h2'⟩ <;>
      first | omega | exact ⟨h1, h1'⟩
  have ht2 : (Ord.compare b.text a.text).isLE = true := by
    rcases h2 with h2 | ⟨h2, h2' | h2'⟩
    · omega
    · omega
    · exact h2'.2
  constructor
  · cases hra : a.range
    cases hrb : b.range
    simp only [hra, hrb] at hstart hstop
    rw [hstart, hstop]
  · have heq : Ord.compare a.text b.text = .eq := by
      rw [Std.OrientedOrd.eq_swap] at ht2
      cases h : Ord.compare a.text b.text <;> simp_all
    exact Std.LawfulEqOrd.eq_of_compare heq

/-- Different corrections that take the same bytes away and put the same text in their place. -/
def Twins (a b : Correction) : Prop := a ≠ b ∧ a.range = b.range ∧ a.text = b.text

instance (a b : Correction) : Decidable (a.Twins b) := inferInstanceAs (Decidable (_ ∧ _ ∧ _))

/-- No two corrections of a list are twins: range and text tell which one it is. -/
def NoTwins (cs : List Correction) : Prop := ∀ a ∈ cs, ∀ b ∈ cs, ¬ a.Twins b

/-- Tidy corrections have no twins. -/
theorem noTwins_of_tidy {cs : List Correction} (htidy : ∀ c ∈ cs, c.Tidy) : NoTwins cs := by
  rintro a ha b hb ⟨hne, hrange, htext⟩
  exact hne ((htidy a ha).eq (htidy b hb) hrange htext)

theorem NoTwins.eq_of_le {cs : List Correction} (h : NoTwins cs) {a b : Correction} (ha : a ∈ cs)
    (hb : b ∈ cs) (h1 : a.le b = true) (h2 : b.le a = true) : a = b := by
  by_contra hne
  exact h a ha b hb ⟨hne, range_text_of_le h1 h2⟩

/-- Something stands between what two corrections take away. -/
def Apart (a b : Correction) : Prop :=
  a.range.stop < b.range.start ∨ b.range.stop < a.range.start

theorem mem_dedup {c : Correction} {cs : List Correction} : c ∈ dedup cs ↔ c ∈ cs := by
  fun_induction dedup cs with
  | case1 => rfl
  | case2 => rfl
  | case3 a rest ih => simp [ih]
  | case4 a b rest _ ih => simp [ih]

/-- **The schedule** holds what was given. -/
theorem mem_schedule {c : Correction} {cs : List Correction} : c ∈ schedule cs ↔ c ∈ cs := by
  rw [schedule, mem_dedup, List.mem_mergeSort]

theorem dedup_sublist (cs : List Correction) : (dedup cs).Sublist cs := by
  fun_induction dedup cs with
  | case1 => exact List.Sublist.refl _
  | case2 => exact List.Sublist.refl _
  | case3 a rest ih => exact ih.cons a
  | case4 a b rest _ ih => exact ih.cons_cons a

/-- A schedule goes from right to left. -/
theorem pairwise_start_schedule (cs : List Correction) :
    (schedule cs).Pairwise fun c d => d.range.start ≤ c.range.start := by
  refine ((pairwise_mergeSort cs).sublist (dedup_sublist _)).imp fun hle => ?_
  rcases le_iff.1 hle with h | ⟨h, _⟩ <;> omega

/-- The order of a schedule: later edits first, and no edit twice. -/
def Before (a b : Correction) : Prop := a.le b = true ∧ a ≠ b

theorem pairwise_dedup {cs : List Correction} (htwins : NoTwins cs)
    (h : cs.Pairwise fun a b => a.le b = true) : (dedup cs).Pairwise Before := by
  fun_induction dedup cs with
  | case1 => exact List.Pairwise.nil
  | case2 => exact List.pairwise_singleton _ _
  | case3 a rest ih =>
    refine ih (fun c hc d hd => ?_) h.of_cons
    exact htwins c (List.mem_cons_of_mem _ hc) d (List.mem_cons_of_mem _ hd)
  | case4 a b rest hab ih =>
    refine List.pairwise_cons.2 ⟨fun c hc => ?_, ih (fun c hc d hd => ?_) h.of_cons⟩
    · rw [mem_dedup] at hc
      refine ⟨List.rel_of_pairwise_cons h hc, ?_⟩
      -- an equal edit further on would have to equal all edits in between
      rintro rfl
      have hle : a.le b = true := List.rel_of_pairwise_cons h (List.mem_cons_self ..)
      rcases List.mem_cons.1 hc with rfl | hc
      · exact hab rfl
      · have hge : b.le a = true := List.rel_of_pairwise_cons h.of_cons hc
        exact hab (htwins.eq_of_le (by simp) (by simp) hle hge)
    · exact htwins c (List.mem_cons_of_mem _ hc) d (List.mem_cons_of_mem _ hd)

theorem NoTwins.pairwise_schedule {cs : List Correction} (htwins : NoTwins cs) :
    (schedule cs).Pairwise Before := by
  refine pairwise_dedup (fun a ha b hb => ?_) ?_
  · exact htwins a (List.mem_mergeSort.1 ha) b (List.mem_mergeSort.1 hb)
  · exact pairwise_mergeSort cs

/-- **The schedule is in order** and holds no edit twice. -/
theorem pairwise_schedule {cs : List Correction} (htidy : ∀ c ∈ cs, c.Tidy) :
    (schedule cs).Pairwise Before := (noTwins_of_tidy htidy).pairwise_schedule

/-- **The set of edits** decides about the schedule when there are no twins: neither order nor
repetition matters. -/
theorem NoTwins.schedule_of_mem_iff {cs ds : List Correction} (htwins : NoTwins cs)
    (hmem : ∀ c, c ∈ cs ↔ c ∈ ds) : schedule cs = schedule ds := by
  have htwins' : NoTwins ds := fun a ha b hb => htwins a ((hmem a).2 ha) b ((hmem b).2 hb)
  have hnodup : ∀ {L : List Correction}, L.Pairwise Before → L.Nodup := fun hL => hL.imp (·.2)
  have hcs := htwins.pairwise_schedule
  have hds := htwins'.pairwise_schedule
  have hperm : (schedule cs).Perm (schedule ds) := by
    refine (List.perm_ext_iff_of_nodup (hnodup hcs) (hnodup hds)).2 fun c => ?_
    rw [mem_schedule, mem_schedule, hmem]
  refine hperm.eq_of_pairwise (fun a b ha hb hab hba => ?_) hcs hds
  exact htwins.eq_of_le (mem_schedule.1 ha) ((hmem b).2 (mem_schedule.1 hb)) hab.1 hba.1

theorem Before.of_start_lt {a b : Correction} (h : b.range.start < a.range.start) : Before a b := by
  refine ⟨le_iff.2 (Or.inl h), ?_⟩
  rintro rfl
  exact Nat.lt_irrefl _ h

theorem Before.start_le {a b : Correction} (h : Before a b) : b.range.start ≤ a.range.start := by
  rcases le_iff.1 h.1 with h | ⟨h, _⟩ <;> omega

theorem Before.stop_le {a b : Correction} (h : Before a b) (hs : b.range.start = a.range.start) :
    b.range.stop ≤ a.range.stop := by
  rcases le_iff.1 h.1 with h | ⟨_, h | ⟨h, _⟩⟩ <;> omega

/-- A schedule falls into the edits from an offset on and those before it. -/
theorem exists_split {L : List Correction} (h : L.Pairwise Before) (offset : Nat) :
    ∃ L₁ L₂, L = L₁ ++ L₂ ∧ (∀ c ∈ L₁, offset ≤ c.range.start) ∧
      ∀ c ∈ L₂, c.range.start < offset := by
  induction L with
  | nil => exact ⟨[], [], rfl, by simp, by simp⟩
  | cons a L ih =>
    by_cases ha : offset ≤ a.range.start
    · obtain ⟨L₁, L₂, rfl, h1, h2⟩ := ih h.of_cons
      exact ⟨a :: L₁, L₂, rfl, List.forall_mem_cons.2 ⟨ha, h1⟩, h2⟩
    · refine ⟨[], a :: L, rfl, by simp, List.forall_mem_cons.2 ⟨by omega, fun c hc => ?_⟩⟩
      have := (List.rel_of_pairwise_cons h hc).start_le
      omega

/-! ### Edits -/

namespace Patch

/-- **An edit that is clear of the settled part** puts its text in place of its range. -/
theorem edit_append {source : Text} {p : Patch} {c : Correction} {a g z : Text}
    (htext : p.text = a ++ (g ++ z)) (hstart : c.range.start = a.size)
    (hstop : c.range.stop = a.size + g.size) (h1 : source.isBoundary c.range.start = true)
    (h2 : source.isBoundary c.range.stop = true) (hlimit : c.range.stop ≤ p.limit) :
    edit source p c =
      { text := a ++ (c.text.toList ++ z), limit := c.range.start, applied := p.applied + 1,
        skipped := p.skipped } := by
  have hacc : p.accepts source c = true := by
    simp only [accepts, h1, h2, Bool.and_true, Bool.and_eq_true, decide_eq_true_eq]
    omega
  have hs1 : p.text.splitAt? c.range.start = some (a, g ++ z) :=
    Text.splitAt?_eq_some_iff.2 ⟨htext, hstart.symm⟩
  have hs2 : p.text.splitAt? c.range.stop = some (a ++ g, z) :=
    Text.splitAt?_eq_some_iff.2 ⟨by rw [htext, List.append_assoc], by rw [hstop, Text.size_append]⟩
  rw [edit, if_pos hacc, hs1, hs2]
  simp

/-- **An edit that reaches into the settled part** is left out. -/
theorem edit_of_limit_lt {source : Text} {p : Patch} {c : Correction} (h : p.limit < c.range.stop) :
    edit source p c = p.skip := by
  have hacc : p.accepts source c = false := by
    have : decide (c.range.stop ≤ p.limit) = false := decide_eq_false (by omega)
    simp [accepts, this]
  rw [edit, hacc]
  rfl

end Patch

end LiquidLint.Correction
