import LiquidLint.Proofs.Text.Cut

/-!
# Spans within a text

A span lies within a text when it is in order, ends before the text does and cuts no character. These
are the spans of the parts of the text: `Span.within_iff` goes from one view to the other, and what
stands in a part stands in the text, moved by the offset of the part (`Span.Within.shift`). Lines are
such parts as well, so every line has its span within the text (`Span.within_lineSpan`).
-/

namespace LiquidLint

namespace Span

/-- The span is in order, lies inside the text and cuts no character. -/
structure Within (s : Span) (t : Text) : Prop where
  le : s.start ≤ s.stop
  stop_le : s.stop ≤ t.size
  start : t.isBoundary s.start = true
  stop : t.isBoundary s.stop = true

variable {s : Span} {t m : Text} {offset : Nat}

/-! ### Spans of parts -/

/-- The span of a part lies within the text. -/
theorem within_of_stands (h : Text.Stands t offset m) : Within ⟨offset, offset + m.size⟩ t := by
  obtain ⟨p, q, rfl, rfl⟩ := h
  refine ⟨Nat.le_add_right _ _, ?_, Text.isBoundary_append p (m ++ q), ?_⟩
  · simp only [Text.size_append]
    omega
  · have hstop := Text.isBoundary_append (p ++ m) q
    rwa [Text.size_append, List.append_assoc] at hstop

/-- **Spans within a text** are those of its parts. -/
theorem within_iff : s.Within t ↔ ∃ m, Text.Stands t s.start m ∧ s.stop = s.start + m.size := by
  constructor
  · intro h
    obtain ⟨p, r, hpr, hp⟩ := Text.isBoundary_iff.1 h.start
    obtain ⟨l, q, hlq, hl⟩ := Text.isBoundary_iff.1 h.stop
    have hsize : p.size ≤ l.size := by
      rw [hp, hl]
      exact h.le
    obtain ⟨m, rfl, rfl⟩ := Text.exists_append_of_size_le (hpr.symm.trans hlq) hsize
    refine ⟨m, ⟨p, q, hpr, hp.symm⟩, ?_⟩
    rw [← hl, ← hp, Text.size_append]
  · rintro ⟨m, hm, hstop⟩
    have h := within_of_stands hm
    rwa [← hstop] at h

/-- What a span covers stands where the span says. -/
theorem Within.stands (h : s.Within t) :
    Text.Stands t s.start (t.slice s) ∧ s.stop = s.start + Text.size (t.slice s) := by
  obtain ⟨m, hm, hstop⟩ := within_iff.1 h
  have hslice : t.slice s = m := by
    have hspan : s = ⟨s.start, s.start + m.size⟩ := by rw [← hstop]
    rw [hspan]
    exact hm.slice
  rw [hslice]
  exact ⟨hm, hstop⟩

/-- A span that can be read lies within the text. -/
theorem within_of_slice? (h : t.slice? s = some m) :
    Text.Stands t s.start m ∧ s.Within t := by
  unfold Text.slice? at h
  split at h
  · rename_i hle
    split at h
    · rename_i p r hsplit
      obtain ⟨⟨m', q⟩, hrest, rfl⟩ := Option.map_eq_some_iff.1 h
      obtain ⟨rfl, hp⟩ := Text.splitAt?_eq_some_iff.1 hsplit
      obtain ⟨rfl, hm⟩ := Text.splitAt?_eq_some_iff.1 hrest
      have hstands : Text.Stands (p ++ (m' ++ q)) s.start m' := ⟨p, q, rfl, hp.symm⟩
      refine ⟨hstands, within_iff.2 ⟨m', hstands, ?_⟩⟩
      omega
    · cases h
  · cases h

/-- A part of a part is a part. -/
theorem stands_of_stands {n : Text} {x : Nat} (hm : Text.Stands t offset m)
    (hn : Text.Stands m x n) : Text.Stands t (offset + x) n := by
  obtain ⟨p, q, rfl, rfl⟩ := hn
  exact hm.right.left

/-- **A span within a part** lies within the text once it is moved there. -/
theorem Within.shift (h : s.Within m) (hm : Text.Stands t offset m) : (s.shift offset).Within t := by
  obtain ⟨n, hn, hstop⟩ := within_iff.1 h
  refine within_iff.2 ⟨n, ?_, ?_⟩
  · show Text.Stands t (s.start + offset) n
    rw [Nat.add_comm]
    exact stands_of_stands hm hn
  · show s.stop + offset = s.start + offset + n.size
    omega

/-- What a span covers in a part, it covers in the text once it is moved there. -/
theorem Within.slice_shift (h : s.Within m) (hm : Text.Stands t offset m) :
    t.slice (s.shift offset) = m.slice s := by
  obtain ⟨n, hn, hstop⟩ := within_iff.1 h
  have hspan : s = ⟨s.start, s.start + n.size⟩ := by rw [← hstop]
  have hmoved : s.shift offset = ⟨offset + s.start, offset + s.start + n.size⟩ := by
    rw [Span.shift, Span.mk.injEq]
    omega
  rw [hmoved, (stands_of_stands hm hn).slice, hspan, hn.slice]

theorem within_zero (t : Text) : zero.Within t :=
  within_of_stands (m := []) ⟨[], t, rfl, rfl⟩

theorem within_full (t : Text) : Within ⟨0, t.size⟩ t := by
  have h := within_of_stands (Text.stands_self t)
  rwa [Nat.zero_add] at h

/-! ### Lines -/

/-- A text is one line, or a line, a newline and a text. -/
theorem lines_cases (t : Text) :
    Text.lines t = [t] ∨ ∃ l r, t = l ++ '\n' :: r ∧ Text.lines t = l :: Text.lines r := by
  induction t with
  | nil => exact .inl rfl
  | cons c t ih =>
    by_cases hc : c = '\n'
    · refine .inr ⟨[], t, by rw [hc]; rfl, ?_⟩
      rw [hc]
      rfl
    · -- the character goes to the first line of the rest
      have hfirst : ∀ l rest, Text.lines t = l :: rest → Text.lines (c :: t) = (c :: l) :: rest := by
        intro l rest hl
        unfold Text.lines at hl ⊢
        rw [Text.splitOn, if_neg (by simpa using hc), hl]
      rcases ih with hone | ⟨l, r, rfl, hlines⟩
      · exact .inl (hfirst t [] hone)
      · exact .inr ⟨c :: l, r, rfl, hfirst l (Text.lines r) hlines⟩

theorem within_of_lineSpanFrom {n : Nat} (hrest : Text.Stands t offset m)
    (h : Text.lineSpanFrom m.lines offset n = some s) : s.Within t := by
  induction n generalizing m offset with
  | zero =>
    rcases lines_cases m with hone | ⟨l, r, -, hlines⟩
    · rw [hone] at h
      cases h
    · rw [hlines] at h
      cases h
  | succ n ih =>
    rcases lines_cases m with hone | ⟨l, r, rfl, hlines⟩
    · rw [hone] at h
      cases n with
      | zero =>
        obtain rfl := Option.some.inj h
        exact within_of_stands hrest
      | succ n => cases h
    · rw [hlines] at h
      cases n with
      | zero =>
        obtain rfl := Option.some.inj h
        exact within_of_stands hrest.left
      | succ n =>
        -- the next line starts after the newline, which is one byte
        have hline : Text.Stands t offset ((l ++ ['\n']) ++ r) := by
          rw [List.append_assoc]
          exact hrest
        have hnext := hline.right
        rw [Text.size_append] at hnext
        exact ih hnext h

/-- **The span of a line** lies within the text, also when there is no such line. -/
theorem within_lineSpan (t : Text) (n : Nat) : (t.lineSpan n).Within t := by
  unfold Text.lineSpan
  cases h : Text.lineSpanFrom t.lines 0 n with
  | none =>
    have hend : Text.Stands t t.size [] := ⟨t, [], by simp, rfl⟩
    exact within_of_stands hend
  | some s => exact within_of_lineSpanFrom (Text.stands_self t) h

end Span

end LiquidLint
