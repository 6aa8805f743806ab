import LiquidLint.Proofs.Text.Within
import LiquidLint.Regex.Match

/-!
# Matches lie within the text, one after the other

A search goes from place to place, and every place is an offset of the text together with the
characters that follow it (`Place.In`). Going forward keeps that, whatever the regular expression
says about where a match ends. So all spans of matches lie within the text (`within_of_mem_spans`).

The search goes on from the end of each match. Where that match was empty, the same match would be
found again, and the search goes on one character later instead. So all matches start further on
than the ones before them, and none of them overlap (`searches_spans`).

What is used of a search elsewhere is only that, under the name `Searches`.
-/

namespace LiquidLint

/-- The span starts before another one, and it ends before the other one starts. -/
def Span.Precedes (a b : Span) : Prop := a.start < b.start ∧ a.stop ≤ b.start

instance (a b : Span) : Decidable (a.Precedes b) :=
  inferInstanceAs (Decidable (a.start < b.start ∧ a.stop ≤ b.start))

/-- What a way to find spans in texts has to keep. -/
structure Searches (find : Text → List Span) : Prop where
  /-- What is found lies within the text. -/
  within : ∀ t, ∀ s ∈ find t, s.Within t
  /-- What is found comes from left to right, without overlap. -/
  ordered : ∀ t, (find t).Pairwise Span.Precedes

namespace Regex

/-- The place is one of the text: what is left starts at its offset. -/
def Place.In (p : Place) (t : Text) : Prop := ∃ pre, t = pre ++ p.rest ∧ p.offset = pre.size

/-- One place comes after another, with the characters `m` between them. -/
def Place.Reaches (p q : Place) (m : Text) : Prop :=
  p.rest = m ++ q.rest ∧ q.offset = p.offset + m.size

variable {p q start stop : Place} {t m : Text} {r : Regex} {s : Span}

theorem Place.In.step {offset : Nat} {before : Option Char} {c : Char} {cs : Text}
    (h : Place.In ⟨offset, before, c :: cs⟩ t) :
    Place.In ⟨offset + c.utf8Size, some c, cs⟩ t := by
  obtain ⟨pre, ht, hoffset⟩ := h
  refine ⟨pre ++ [c], ?_, ?_⟩
  · rw [ht, List.append_assoc]
    rfl
  · show offset + c.utf8Size = _
    rw [show offset = pre.size from hoffset, Text.size_append]
    rfl

theorem Place.Reaches.trans {n : Text} (hpq : p.Reaches q m) (hq : q.Reaches start n) :
    p.Reaches start (m ++ n) := by
  refine ⟨?_, ?_⟩
  · rw [hpq.1, hq.1, List.append_assoc]
  · rw [hq.2, hpq.2, Text.size_append, Nat.add_assoc]

theorem Place.Reaches.le (h : p.Reaches q m) : p.offset ≤ q.offset := by
  rw [h.2]
  exact Nat.le_add_right ..

theorem Place.In.of_reaches (h : p.In t) (hpq : p.Reaches q m) : q.In t := by
  obtain ⟨pre, ht, hoffset⟩ := h
  obtain ⟨hrest, hq⟩ := hpq
  refine ⟨pre ++ m, ?_, ?_⟩
  · rw [ht, hrest, List.append_assoc]
  · rw [hq, hoffset, Text.size_append]

/-- Going forward passes characters of the text. -/
theorem Place.exists_reaches_forward (p : Place) (n : Nat) : ∃ m, p.Reaches (p.forward n) m := by
  induction n generalizing p with
  | zero => exact ⟨[], rfl, rfl⟩
  | succ n ih =>
    obtain ⟨offset, before, rest⟩ := p
    cases rest with
    | nil => exact ⟨[], rfl, rfl⟩
    | cons c cs =>
      obtain ⟨m, hrest, hoffset⟩ := ih ⟨offset + c.utf8Size, some c, cs⟩
      refine ⟨c :: m, ?_, ?_⟩
      · exact congrArg (c :: ·) hrest
      · refine hoffset.trans ?_
        rw [Text.size_cons]
        exact Nat.add_assoc ..

theorem Place.In.forward (h : p.In t) (n : Nat) : (p.forward n).In t := by
  obtain ⟨m, hm⟩ := p.exists_reaches_forward n
  exact h.of_reaches hm

/-- What lies between two places is a span within the text. -/
theorem Place.In.within (h : p.In t) (hpq : p.Reaches q m) :
    Span.Within ⟨p.offset, q.offset⟩ t := by
  obtain ⟨pre, ht, hoffset⟩ := h
  obtain ⟨hrest, hq⟩ := hpq
  rw [hq]
  refine Span.within_of_stands ⟨pre, q.rest, ?_, hoffset⟩
  rw [ht, hrest]

/-- One character further on is another offset. -/
theorem Place.lt_forward_one (h : p.rest ≠ []) : p.offset < (p.forward 1).offset := by
  obtain ⟨offset, before, rest⟩ := p
  obtain ⟨c, cs, rfl⟩ := List.exists_cons_of_ne_nil h
  exact Nat.lt_add_of_pos_right c.utf8Size_pos

/-- Going forward to the same offset is staying. -/
theorem Place.forward_eq_self {n : Nat} (h : (p.forward n).offset = p.offset) : p.forward n = p := by
  obtain ⟨offset, before, rest⟩ := p
  cases n with
  | zero => rfl
  | succ n =>
    cases rest with
    | nil => rfl
    | cons c cs =>
      -- one step is already too far
      have hstep : offset + c.utf8Size ≤ (Place.forward ⟨offset, before, c :: cs⟩ (n + 1)).offset :=
        (Place.exists_reaches_forward ⟨offset + c.utf8Size, some c, cs⟩ n).elim fun _ h => h.le
      rw [h] at hstep
      exact absurd hstep (Nat.not_le_of_lt (Nat.lt_add_of_pos_right c.utf8Size_pos))

/-! ### Searching -/

/-- A match that is found starts further on and ends as many characters later as the expression
says. -/
theorem of_findFrom {offset : Nat} {before : Option Char} {rest : Text}
    (h : r.findFrom offset before rest = some (start, stop)) :
    (∃ m, Place.Reaches ⟨offset, before, rest⟩ start m) ∧
      ∃ n, r.matchLength? start.before start.rest = some n ∧ stop = start.forward n := by
  fun_induction findFrom r offset before rest with
  | case1 offset before rest here n hn =>
    obtain ⟨rfl, rfl⟩ := Prod.mk.inj (Option.some.inj h)
    exact ⟨⟨[], rfl, rfl⟩, n, hn, rfl⟩
  | case2 => cases h
  | case3 offset before c cs hn ih =>
    obtain ⟨⟨m, hm⟩, hstop⟩ := ih h
    have hstep : Place.Reaches ⟨offset, before, c :: cs⟩ ⟨offset + c.utf8Size, some c, cs⟩ [c] := ⟨rfl, rfl⟩
    exact ⟨⟨[c] ++ m, hstep.trans hm⟩, hstop⟩

/-- Where a match starts, the search finds it. -/
theorem find_eq_some {n : Nat} (h : r.matchLength? p.before p.rest = some n) :
    r.find p = some (p, p.forward n) := by
  rw [find, findFrom.eq_def, h]

theorem of_findAfter {last : Option Nat} (h : r.findAfter p last = some (start, stop)) :
    (∃ m, p.Reaches start m) ∧
      ∃ n, r.matchLength? start.before start.rest = some n ∧ stop = start.forward n := by
  unfold findAfter at h
  split at h
  · cases h
  · next first second hfind =>
    split at h
    · split at h
      · cases h
      · -- the search starts one character later
        obtain ⟨⟨m, hm⟩, hstop⟩ := of_findFrom h
        obtain ⟨c, hc⟩ := p.exists_reaches_forward 1
        exact ⟨⟨c ++ m, hc.trans hm⟩, hstop⟩
    · obtain ⟨rfl, rfl⟩ := Prod.mk.inj (Option.some.inj h)
      exact of_findFrom hfind

/-- An empty match is not found again. -/
theorem lt_of_findAfter (hempty : r.find p = some (p, p))
    (h : r.findAfter p (some p.offset) = some (start, stop)) : p.offset < start.offset := by
  rw [findAfter, hempty] at h
  simp only [and_self, if_true] at h
  split at h
  · cases h
  · next c cs hrest =>
    obtain ⟨⟨m, hm⟩, -⟩ := of_findFrom h
    have hlt : p.offset < (p.forward 1).offset := p.lt_forward_one (by rw [hrest]; simp)
    exact Nat.lt_of_lt_of_le hlt hm.le

/-! ### All matches -/

theorem within_of_mem_spansFrom {fuel : Nat} {last : Option Nat} (hp : p.In t)
    (h : s ∈ r.spansFrom fuel p last) : s.Within t := by
  induction fuel generalizing p last with
  | zero => cases h
  | succ fuel ih =>
    unfold spansFrom at h
    split at h
    · cases h
    · next start stop hfind =>
      obtain ⟨⟨m, hm⟩, n, -, rfl⟩ := of_findAfter hfind
      obtain ⟨l, hl⟩ := start.exists_reaches_forward n
      have hstart := hp.of_reaches hm
      rcases List.mem_cons.1 h with rfl | h
      · exact hstart.within hl
      · -- the search goes on from the end of the match
        exact ih (hstart.of_reaches hl) h

/-- **Matches lie within the text** and cut no character. -/
theorem within_of_mem_spans (h : s ∈ r.spans t) : s.Within t :=
  within_of_mem_spansFrom ⟨[], rfl, rfl⟩ h

theorem le_of_mem_spansFrom {fuel : Nat} {last : Option Nat} (h : s ∈ r.spansFrom fuel p last) :
    p.offset ≤ s.start := by
  induction fuel generalizing p last with
  | zero => cases h
  | succ fuel ih =>
    unfold spansFrom at h
    split at h
    · cases h
    · next start stop hfind =>
      obtain ⟨⟨m, hm⟩, n, -, rfl⟩ := of_findAfter hfind
      rcases List.mem_cons.1 h with rfl | h
      · exact hm.le
      · obtain ⟨l, hl⟩ := start.exists_reaches_forward n
        exact Nat.le_trans (Nat.le_trans hm.le hl.le) (ih h)

/-- After an empty match all matches start further on. -/
theorem lt_of_mem_spansFrom {fuel : Nat} (hempty : r.find p = some (p, p))
    (h : s ∈ r.spansFrom fuel p (some p.offset)) : p.offset < s.start := by
  cases fuel with
  | zero => cases h
  | succ fuel =>
    unfold spansFrom at h
    split at h
    · cases h
    · next start stop hfind =>
      have hlt := lt_of_findAfter hempty hfind
      obtain ⟨-, n, -, rfl⟩ := of_findAfter hfind
      rcases List.mem_cons.1 h with rfl | h
      · exact hlt
      · obtain ⟨l, hl⟩ := start.exists_reaches_forward n
        exact Nat.lt_of_lt_of_le hlt (Nat.le_trans hl.le (le_of_mem_spansFrom h))

theorem pairwise_spansFrom {fuel : Nat} {last : Option Nat} :
    (r.spansFrom fuel p last).Pairwise Span.Precedes := by
  induction fuel generalizing p last with
  | zero => exact .nil
  | succ fuel ih =>
    unfold spansFrom
    split
    · exact .nil
    · next start stop hfind =>
      obtain ⟨-, n, hn, rfl⟩ := of_findAfter hfind
      obtain ⟨l, hl⟩ := start.exists_reaches_forward n
      refine List.pairwise_cons.2 ⟨fun s hs => ⟨?_, le_of_mem_spansFrom hs⟩, ih⟩
      rcases Nat.lt_or_eq_of_le hl.le with hlt | heq
      · exact Nat.lt_of_lt_of_le hlt (le_of_mem_spansFrom hs)
      · -- the match is empty, and the search goes on where it was found
        have hstay := Place.forward_eq_self heq.symm
        rw [hstay] at hs
        exact lt_of_mem_spansFrom (by rw [find_eq_some hn, hstay]) hs

/-- **Matches come from left to right**, also empty ones, and without overlap. -/
theorem searches_spans (r : Regex) : Searches r.spans where
  within _ _ h := within_of_mem_spans h
  ordered _ := pairwise_spansFrom

end Regex

end LiquidLint
