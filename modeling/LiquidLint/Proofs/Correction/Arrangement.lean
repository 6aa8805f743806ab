import Mathlib
import LiquidLint.Proofs.Correction.Together

/-!
# The arrangement of edits

Edits are given as a list. Before they are applied they are sorted by range and text, and of equal
neighbours one is kept. So a list of edits is read as a set, except where the sort cannot tell two of
its members apart: twins, such as `.insert 1 "-"` and `.replace ⟨1, 1⟩ "-"`, keep the order in which
they were given, and one between two equal edits hides that these are equal.

`Twins.length_schedule_lt` says that twins given once more are tried once more. `plain` forgets how an
edit is written and keeps what the sort looks at; twins become equal by it, and as long as they take
bytes away only the count of skipped edits notices, since the second of them finds its bytes gone
(`agrees_dedup_plain`). Main statement: the outcome depends on the set of edits alone exactly when there
are no twins in it (`applyAll_rearranged_iff`).
-/

namespace LiquidLint.Correction

open Patch (edit)

variable {source : Text} {P Q : Patch} {a b c : Correction} {L cs : List Correction}

/-! ### Twins in a schedule -/

theorem le_refl (a : Correction) : a.le a = true := by
  have h := le_total a a
  rwa [Bool.or_self] at h

/-- The sort cannot tell twins apart. -/
theorem Twins.le_eq (h : a.Twins b) (c : Correction) : a.le c = b.le c := by
  unfold le compare
  rw [h.2.1, h.2.2]

/-- **Twins stay in the order in which they are given**, right before what they may come before. -/
theorem Twins.exists_mergeSort (h : a.Twins b) (cs : List Correction) :
    ∃ l₁ l₂, cs.mergeSort le = l₁ ++ l₂ ∧ (a :: b :: cs).mergeSort le = l₁ ++ a :: b :: l₂ ∧
      ∀ c ∈ l₁, b.le c = false := by
  have htrans : ∀ a b c : Correction, a.le b = true → b.le c = true → a.le c = true :=
    fun _ _ _ => le_trans
  obtain ⟨l₁, l₂, hb, hcs, hl₁⟩ := List.mergeSort_cons htrans le_total b cs
  obtain ⟨m₁, m₂, ha, hbcs, hm₁⟩ := List.mergeSort_cons htrans le_total a (b :: cs)
  simp only [Bool.not_eq_true'] at hl₁ hm₁
  refine ⟨l₁, l₂, hcs, ?_, hl₁⟩
  rw [ha]
  -- the two places where `a` and `b` are put in are the same
  rcases List.append_eq_append_iff.1 (hb.symm.trans hbcs) with ⟨x, rfl, hx⟩ | ⟨x, rfl, rfl⟩
  · cases x with
    | nil =>
      rw [List.nil_append] at hx
      rw [List.append_nil, ← hx]
    | cons d x =>
      obtain ⟨rfl, -⟩ := List.cons.inj hx
      have hlt := hm₁ b (by simp)
      rw [h.le_eq, le_refl] at hlt
      cases hlt
  · cases x with
    | nil => rw [List.append_nil, List.nil_append]
    | cons d x =>
      have hsorted := pairwise_mergeSort (a :: b :: cs)
      rw [ha, List.pairwise_append] at hsorted
      have hle : a.le d = true := List.rel_of_pairwise_cons hsorted.2.1 (by simp)
      rw [h.le_eq, hl₁ d (by simp)] at hle
      cases hle

/-- Neighbours are compared within parts that have nothing in common. -/
theorem dedup_append {l₁ l₂ : List Correction} (h : ∀ c ∈ l₁, c ∉ l₂) :
    dedup (l₁ ++ l₂) = dedup l₁ ++ dedup l₂ := by
  -- the cases are those of the recursion, and the border is met when the first list has one edit
  -- left
  fun_induction dedup l₁ with
  | case1 => rfl
  | case2 a =>
    cases l₂ with
    | nil => rfl
    | cons d l₂ =>
      have hne : a ≠ d := by
        rintro rfl
        exact h a (by simp) (by simp)
      show dedup (a :: d :: l₂) = _
      rw [dedup, if_neg hne]
      rfl
  | case3 a rest ih =>
    show dedup (a :: a :: (rest ++ l₂)) = _
    rw [dedup, if_pos rfl]
    exact ih fun c hc => h c (List.mem_cons_of_mem _ hc)
  | case4 a b rest hab ih =>
    show dedup (a :: b :: (rest ++ l₂)) = _
    rw [dedup, if_neg hab, List.cons_append]
    congr 1
    exact ih fun c hc => h c (List.mem_cons_of_mem _ hc)

theorem length_dedup_le_cons (a : Correction) (L : List Correction) :
    (dedup L).length ≤ (dedup (a :: L)).length := by
  cases L with
  | nil => exact Nat.zero_le _
  | cons b L =>
    rw [dedup.eq_3]
    split
    · exact Nat.le_refl _
    · exact Nat.le_succ _

/-- The first of the edits stays. -/
theorem exists_dedup_cons (a : Correction) (L : List Correction) :
    ∃ later, dedup (a :: L) = a :: later := by
  induction L generalizing a with
  | nil => exact ⟨[], rfl⟩
  | cons b L ih =>
    rw [dedup]
    split
    · rename_i hab
      rw [hab]
      exact ih b
    · exact ⟨_, rfl⟩

/-- **Twins that are given once more** make a schedule longer. -/
theorem Twins.length_schedule_lt (h : a.Twins b) (cs : List Correction) :
    (schedule cs).length < (schedule (a :: b :: cs)).length := by
  obtain ⟨l₁, l₂, hcs, habcs, hl₁⟩ := h.exists_mergeSort cs
  have hsorted := pairwise_mergeSort (a :: b :: cs)
  rw [habcs, List.pairwise_append] at hsorted
  -- what comes before the twins is not among what follows
  have hapart : ∀ c ∈ l₁, c ∉ a :: b :: l₂ := by
    intro c hc hmem
    have hle : a.le c = true := by
      rcases List.mem_cons.1 hmem with rfl | hmem
      · exact le_refl c
      · exact List.rel_of_pairwise_cons hsorted.2.1 hmem
    rw [h.le_eq, hl₁ c hc] at hle
    cases hle
  have hapart' : ∀ c ∈ l₁, c ∉ l₂ := fun c hc hmem => hapart c hc (by simp [hmem])
  unfold schedule
  rw [hcs, habcs, dedup_append hapart, dedup_append hapart', dedup, if_neg h.1]
  have hlater := length_dedup_le_cons b l₂
  simp only [List.length_append, List.length_cons]
  omega

/-! ### Edits by range and text -/

/-- An edit in the one way of writing that has all: nothing is lost but the name for it. -/
def plain (c : Correction) : Correction := .replace c.range c.text

theorem edit_plain (source : Text) (P : Patch) (c : Correction) :
    edit source P c.plain = edit source P c := rfl

theorem plain_eq_iff : a.plain = b.plain ↔ a.range = b.range ∧ a.text = b.text := by
  unfold plain
  rw [replace.injEq]

theorem noTwins_map_plain (cs : List Correction) : NoTwins (cs.map plain) := by
  intro a ha b hb htwins
  obtain ⟨c, -, rfl⟩ := List.mem_map.1 ha
  obtain ⟨d, -, rfl⟩ := List.mem_map.1 hb
  exact htwins.1 (plain_eq_iff.2 htwins.2)

theorem schedule_map_plain (cs : List Correction) :
    schedule (cs.map plain) = dedup ((cs.mergeSort le).map plain) := by
  unfold schedule
  rw [List.map_mergeSort]
  intro a _ b _
  rfl

namespace Patch

/-- Two patches differ at most in the count of skipped edits. -/
structure Agrees (P Q : Patch) : Prop where
  text : P.text = Q.text
  limit : P.limit = Q.limit
  applied : P.applied = Q.applied

theorem Agrees.symm (h : P.Agrees Q) : Q.Agrees P :=
  ⟨h.text.symm, h.limit.symm, h.applied.symm⟩

theorem Agrees.trans {R : Patch} (h : P.Agrees Q) (h' : Q.Agrees R) : P.Agrees R :=
  ⟨h.text.trans h'.text, h.limit.trans h'.limit, h.applied.trans h'.applied⟩

/-- **One edit** does not ask for the count of skipped edits. -/
theorem Agrees.edit (h : P.Agrees Q) (c : Correction) :
    (edit source P c).Agrees (edit source Q c) := by
  have haccepts : P.accepts source c = Q.accepts source c := by
    unfold accepts
    rw [h.limit]
  unfold Patch.edit
  rw [haccepts, h.text]
  split
  · split
    · exact ⟨rfl, rfl, congrArg (· + 1) h.applied⟩
    · exact ⟨h.text, h.limit, h.applied⟩
  · exact ⟨h.text, h.limit, h.applied⟩

/-- **A run of edits** does not ask for it either. -/
theorem Agrees.foldl (h : P.Agrees Q) (L : List Correction) :
    (L.foldl (Patch.edit source) P).Agrees (L.foldl (Patch.edit source) Q) := by
  induction L generalizing P Q with
  | nil => exact h
  | cons c L ih => exact ih (h.edit c)

theorem agrees_skip (P : Patch) : P.skip.Agrees P := ⟨rfl, rfl, rfl⟩

/-- An edit is left out, or the settled part goes down to where it starts. -/
theorem edit_cases (source : Text) (P : Patch) (c : Correction) :
    Patch.edit source P c = P.skip ∨
      c.range.start ≤ c.range.stop ∧ (Patch.edit source P c).limit = c.range.start := by
  by_cases haccepts : P.accepts source c = true
  · obtain ⟨⟨-, hle, -⟩, -⟩ := accepts_iff.1 haccepts
    unfold Patch.edit
    rw [if_pos haccepts]
    split
    · exact .inr ⟨hle, rfl⟩
    · exact .inl rfl
  · exact .inl (edit_of_not_accepts haccepts)

/-- **Bytes are taken away once**: an edit that was applied reaches into the settled part, unless it
takes nothing away. -/
theorem agrees_edit_edit (source : Text) (P : Patch) (hc : c.range.start ≠ c.range.stop) :
    (Patch.edit source (Patch.edit source P c) c).Agrees (Patch.edit source P c) := by
  rcases edit_cases source P c with hskip | ⟨hle, hlimit⟩
  · -- what is left out once is left out again
    have hagain : (Patch.edit source P.skip c).Agrees (Patch.edit source P c) :=
      (agrees_skip P).edit c
    rwa [← hskip] at hagain
  · rw [edit_of_limit_lt (by omega : (Patch.edit source P c).limit < c.range.stop)]
    exact agrees_skip _

end Patch

/-- **Twins that take bytes away** are like equal edits, but for the count of those skipped. -/
theorem agrees_dedup_plain (hL : ∀ a ∈ L, ∀ b ∈ L, a.Twins b → a.range.start ≠ a.range.stop)
    (P : Patch) : ((dedup (L.map plain)).foldl (edit source) P).Agrees
      ((dedup L).foldl (edit source) P) := by
  fun_induction dedup L generalizing P with
  | case1 => exact ⟨rfl, rfl, rfl⟩
  | case2 a => exact ⟨rfl, rfl, rfl⟩
  | case3 a rest ih =>
    have hmap : dedup (List.map plain (a :: a :: rest)) = dedup (List.map plain (a :: rest)) :=
      if_pos rfl
    rw [hmap]
    exact ih (fun c hc d hd => hL c (List.mem_cons_of_mem _ hc) d (List.mem_cons_of_mem _ hd)) P
  -- neighbours that differ may still be the same without their kinds
  | case4 a b rest hab ih =>
    have ih := ih fun c hc d hd => hL c (List.mem_cons_of_mem _ hc) d (List.mem_cons_of_mem _ hd)
    rw [List.foldl_cons]
    by_cases hplain : a.plain = b.plain
    · -- the plain edit is tried once, and `b` changes nothing after its twin `a`
      have htwins : a.Twins b := ⟨hab, plain_eq_iff.1 hplain⟩
      have hmap : dedup (List.map plain (a :: b :: rest)) = dedup (List.map plain (b :: rest)) :=
        if_pos hplain
      rw [hmap]
      refine (ih P).trans ?_
      obtain ⟨later, hlater⟩ := exists_dedup_cons b rest
      have htake : b.range.start ≠ b.range.stop := by
        rw [← htwins.2.1]
        exact hL a (by simp) b (by simp) htwins
      have hedit : edit source P a = edit source P b := by
        rw [← edit_plain, hplain, edit_plain]
      rw [hlater, List.foldl_cons, List.foldl_cons, hedit]
      exact (Patch.agrees_edit_edit source P htake).symm.foldl later
    · have hmap : dedup (List.map plain (a :: b :: rest)) =
          a.plain :: dedup (List.map plain (b :: rest)) := if_neg hplain
      rw [hmap, List.foldl_cons]
      exact ih (edit source P a)

/-- Edits written plainly have the same outcome, but for the count of those skipped. -/
theorem agrees_map_plain (source : Text)
    (hcs : ∀ a ∈ cs, ∀ b ∈ cs, a.Twins b → a.range.start ≠ a.range.stop) :
    (applyAll source (cs.map plain)).Agrees (applyAll source cs) := by
  unfold applyAll
  rw [schedule_map_plain]
  refine agrees_dedup_plain (fun a ha b hb => ?_) _
  exact hcs a (List.mem_mergeSort.1 ha) b (List.mem_mergeSort.1 hb)

/-- **The arrangement of edits matters for twins only.** Lists with the same members, in whatever order
and however often each of them is given, have the same outcome exactly when no two members take the
same bytes away and put the same text there without being equal. As long as such twins take bytes away,
the text and the count of applied edits are the same all the same. -/
theorem applyAll_rearranged_iff (source : Text) (cs : List Correction) :
    ((∀ ds, (∀ c, c ∈ ds ↔ c ∈ cs) →
        (applyAll source ds).text = (applyAll source cs).text ∧
        (applyAll source ds).applied = (applyAll source cs).applied ∧
        (applyAll source ds).skipped = (applyAll source cs).skipped) ↔ NoTwins cs) ∧
    ((∀ a ∈ cs, ∀ b ∈ cs, a.Twins b → a.range.start ≠ a.range.stop) →
      ∀ ds, (∀ c, c ∈ ds ↔ c ∈ cs) →
        (applyAll source ds).text = (applyAll source cs).text ∧
        (applyAll source ds).applied = (applyAll source cs).applied) := by
  refine ⟨⟨fun hsame a ha b hb htwins => ?_, fun htwins ds hmem => ?_⟩, fun htake ds hmem => ?_⟩
  · -- the twins given once more are two more edits to try, at least one of which is counted
    have hmem : ∀ c, c ∈ a :: b :: cs ↔ c ∈ cs := by
      intro c
      simp only [List.mem_cons]
      constructor
      · rintro (rfl | rfl | hc)
        · exact ha
        · exact hb
        · exact hc
      · exact fun hc => .inr (.inr hc)
    obtain ⟨-, happlied, hskipped⟩ := hsame _ hmem
    have hlonger := htwins.length_schedule_lt cs
    have hcount : ∀ es, (applyAll source es).applied + (applyAll source es).skipped =
        (schedule es).length := fun es => (Patch.counts_foldl source _ _).trans (Nat.zero_add _)
    have hcs := hcount cs
    have habcs := hcount (a :: b :: cs)
    omega
  · -- without twins the schedule depends on the members only
    rw [applyAll_of_mem_iff source htwins hmem]
    exact ⟨rfl, rfl, rfl⟩
  · -- twins that take something are tried one after the other and the second one is skipped, as it
    -- would be if they were the same edit
    have htake' : ∀ a ∈ ds, ∀ b ∈ ds, a.Twins b → a.range.start ≠ a.range.stop :=
      fun a ha b hb => htake a ((hmem a).1 ha) b ((hmem b).1 hb)
    have hplain : applyAll source (ds.map plain) = applyAll source (cs.map plain) := by
      refine applyAll_of_mem_iff source (noTwins_map_plain cs) fun c => ?_
      simp only [List.mem_map, hmem]
    have hds := (agrees_map_plain source htake').symm
    rw [hplain] at hds
    have hagrees := hds.trans (agrees_map_plain source htake)
    exact ⟨hagrees.text, hagrees.applied⟩

/-- Twins that take a byte away, given in two ways: the one that comes first is applied, and only the
count of those that find the byte gone differs. -/
theorem applyAll_rearranged_deletions :
    let cs : List Correction := [.delete ⟨1, 2⟩, .insert 1 "+", .replace ⟨1, 2⟩ ""]
    let ds : List Correction := [.replace ⟨1, 2⟩ "", .delete ⟨1, 2⟩, .replace ⟨1, 2⟩ "", .insert 1 "+"]
    (applyAll "abc".toList ds).text = (applyAll "abc".toList cs).text ∧
    (applyAll "abc".toList ds).applied = (applyAll "abc".toList cs).applied ∧
    (applyAll "abc".toList cs).text = "a+c".toList ∧ (applyAll "abc".toList cs).skipped = 1 ∧
    (applyAll "abc".toList ds).skipped = 2 := by
  intro cs ds
  have hmem : ∀ c, c ∈ ds ↔ c ∈ cs := by
    intro c
    simp only [cs, ds, List.mem_cons, List.not_mem_nil, or_false]
    tauto
  have htake : ∀ a ∈ cs, ∀ b ∈ cs, a.Twins b → a.range.start ≠ a.range.stop := by decide
  obtain ⟨htext, happlied⟩ := (applyAll_rearranged_iff "abc".toList cs).2 htake ds hmem
  exact ⟨htext, happlied, by cbv, by cbv, by cbv⟩

/-- An insertion, written in two ways, and given twice in the one of them: it is applied twice in that
way when the other stands in between. -/
theorem applyAll_differs_insertions :
    let cs : List Correction := [.insert 1 "-", .insert 1 "-", .replace ⟨1, 1⟩ "-"]
    let ds : List Correction := [.insert 1 "-", .replace ⟨1, 1⟩ "-", .insert 1 "-"]
    (∀ c, c ∈ ds ↔ c ∈ cs) ∧
    (applyAll "ab".toList cs).text = "a--b".toList ∧ (applyAll "ab".toList cs).applied = 2 ∧
    (applyAll "ab".toList ds).text = "a---b".toList ∧ (applyAll "ab".toList ds).applied = 3 := by
  refine ⟨fun c => ?_, by cbv, by cbv, by cbv, by cbv⟩
  simp only [List.mem_cons, List.not_mem_nil, or_false]
  tauto

end LiquidLint.Correction
