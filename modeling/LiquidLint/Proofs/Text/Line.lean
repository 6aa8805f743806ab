import LiquidLint.Proofs.Path.Join
import LiquidLint.Proofs.Text.Within

/-!
# Lines and their positions

`Text.position` counts newlines from the start of a text, and `Text.lineSpan` cuts the text at newlines.
Both find the same lines: line `n` stands behind a part of the text that has `n - 1` newlines and ends
with one (`exists_line`), so it starts in line `n` and column 1 (`position_lineSpan`).
-/

namespace LiquidLint.Text

variable {m s t : Text} {offset n : Nat} {p : Position}

/-! ### Positions -/

theorem positionFrom_zero (p : Position) (t : Text) : positionFrom p t 0 = p := by
  cases t with
  | nil => rfl
  | cons c t =>
    have := c.utf8Size_pos
    rw [positionFrom, if_neg (by omega)]

/-- Positions behind a part of a text go on from where the part ends. -/
theorem positionFrom_append (p : Position) (s t : Text) (x : Nat) :
    positionFrom p (s ++ t) (s.size + x) = positionFrom (s.foldl Position.next p) t x := by
  induction s generalizing p with
  | nil => rw [List.nil_append, size_nil, Nat.zero_add, List.foldl_nil]
  | cons c s ih =>
    have hrest : size (c :: s) + x - c.utf8Size = size s + x := by
      rw [size_cons]
      omega
    rw [List.cons_append, positionFrom, if_pos (by rw [size_cons]; omega), hrest, ih, List.foldl_cons]

theorem newlines_cons_newline (t : Text) : newlines ('\n' :: t) = newlines t + 1 :=
  List.count_cons_self

theorem line_foldl_next (p : Position) (s : Text) :
    (s.foldl Position.next p).line = p.line + s.newlines := by
  induction s generalizing p with
  | nil => rfl
  | cons c s ih =>
    rw [List.foldl_cons, ih, Position.next]
    by_cases hc : c = '\n'
    · rw [if_pos hc, hc, newlines_cons_newline]
      exact Nat.add_right_comm ..
    · rw [if_neg hc, newlines, newlines, List.count_cons_of_ne hc]

/-- Behind a newline the first column follows. -/
theorem foldl_next_newline (p : Position) (s : Text) :
    (s ++ ['\n']).foldl Position.next p = ⟨p.line + s.newlines + 1, 1⟩ := by
  rw [List.foldl_append, List.foldl_cons, List.foldl_nil, Position.next, if_pos rfl, line_foldl_next]

/-! ### Lines -/

theorem newlines_of_mem_lines (h : s ∈ lines t) : newlines s = 0 := by
  refine List.count_eq_zero.2 fun hmem => ?_
  have := not_mem_of_mem_splitOn h '\n' hmem
  simp at this

/-- A text behind which a line starts: it is empty or ends with a newline. -/
def EndsLine (t : Text) : Prop := t = [] ∨ ∃ s, t = s ++ ['\n']

/-- In a text `line` stands between `before` and `behind`, and it is line `n`: a line starts behind
`n - 1` newlines, goes on without one and ends before the next newline or with the text. -/
structure IsLine (t : Text) (n : Nat) (before line behind : Text) : Prop where
  text : t = before ++ (line ++ behind)
  number : before.newlines + 1 = n
  start : EndsLine before
  plain : line.newlines = 0
  stop : behind = [] ∨ ∃ rest, behind = '\n' :: rest

theorem exists_lineSpanFrom (h1 : 1 ≤ n) (hn : n ≤ 1 + m.newlines) (offset : Nat) :
    ∃ before line behind, IsLine m n before line behind ∧ lineSpanFrom m.lines offset n =
      some ⟨offset + before.size, offset + before.size + line.size⟩ := by
  -- one line is cut off at a time
  induction n generalizing m offset with
  | zero => omega
  | succ n ih =>
    rcases Span.lines_cases m with hone | ⟨l, r, rfl, hlines⟩
    · have hnone : m.newlines = 0 :=
        newlines_of_mem_lines (by rw [hone]; exact List.mem_singleton_self m)
      obtain rfl : n = 0 := by omega
      rw [hone]
      exact ⟨[], m, [], ⟨by simp, rfl, .inl rfl, hnone, .inl rfl⟩, rfl⟩
    · have hfirst : newlines l = 0 := newlines_of_mem_lines (by rw [hlines]; exact List.mem_cons_self)
      have hsum : newlines (l ++ '\n' :: r) = newlines r + 1 := by
        rw [newlines_append, hfirst, newlines_cons_newline, Nat.zero_add]
      rw [hlines]
      cases n with
      | zero => exact ⟨[], l, '\n' :: r, ⟨rfl, rfl, .inl rfl, hfirst, .inr ⟨r, rfl⟩⟩, rfl⟩
      | succ n =>
        obtain ⟨before, line, behind, hline, hspan⟩ :=
          ih (m := r) (by omega) (by omega) (offset + l.size + 1)
        refine ⟨l ++ '\n' :: before, line, behind, ⟨?_, ?_, .inr ?_, hline.plain, hline.stop⟩, ?_⟩
        · simp [hline.text]
        · have hnumber := hline.number
          rw [newlines_append, hfirst, newlines_cons_newline]
          omega
        · rcases hline.start with rfl | ⟨q, rfl⟩
          · exact ⟨l, rfl⟩
          · exact ⟨l ++ '\n' :: q, by simp⟩
        · have hsize : (l ++ '\n' :: before).size = l.size + 1 + before.size := by
            rw [size_append, size_cons, Nat.add_assoc]
            rfl
          rw [lineSpanFrom, hspan, hsize]
          simp only [Nat.add_assoc]

/-- **Line `n`** stands behind `n - 1` newlines, where its span says. -/
theorem exists_line (h1 : 1 ≤ n) (hn : n ≤ 1 + t.newlines) :
    ∃ before line behind, IsLine t n before line behind ∧
      t.lineSpan n = ⟨before.size, before.size + line.size⟩ := by
  obtain ⟨before, line, behind, hline, hspan⟩ := exists_lineSpanFrom h1 hn 0
  refine ⟨before, line, behind, hline, ?_⟩
  rw [lineSpan, hspan, Nat.zero_add, Option.getD_some]

/-- A boundary has the position that its text counts up to. -/
theorem position_append (s t : Text) : position (s ++ t) s.size = s.foldl Position.next .first := by
  have h := positionFrom_append .first s t 0
  rwa [positionFrom_zero, Nat.add_zero] at h

/-- **A line starts in its first column.** -/
theorem position_lineSpan (h1 : 1 ≤ n) (hn : n ≤ 1 + t.newlines) :
    t.position (t.lineSpan n).start = ⟨n, 1⟩ := by
  obtain ⟨before, line, behind, hline, hspan⟩ := exists_line h1 hn
  rw [hspan, hline.text, position_append, ← hline.number]
  rcases hline.start with rfl | ⟨q, rfl⟩
  · rfl
  · rw [foldl_next_newline, newlines_append]
    show Position.mk (1 + newlines q + 1) 1 = ⟨newlines q + 1 + 1, 1⟩
    rw [Nat.add_comm 1]

end LiquidLint.Text
