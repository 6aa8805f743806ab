import LiquidLint.Check.Event
import LiquidLint.Proofs.Path.Order
import LiquidLint.Proofs.Text.Line

/-!
# Offsets, lines and columns

`Text.position` walks through a text and counts, `Text.lineSpan` cuts the text into lines. Each undoes
the other: the offset that `position` stands for (`Text.clamp`) lies in the line that it names, as many
characters behind its start as the column says (`position_in_line`), and a line starts where its
position is the line and column 1. Lines follow each other with one newline between them
(`newline_between`), and positions grow with offsets (`precedes_of_lt`).

Where a line stands is settled by the newlines before it: two parts with the same number of newlines
behind which a line starts are the same part (`EndsLine.unique`). Main statement: `positions_consistent`.
-/

namespace LiquidLint

namespace Position

/-- One position comes before another: in an earlier line, or further left in the same one. -/
def Precedes (p q : Position) : Prop := p.line < q.line ∨ p.line = q.line ∧ p.column < q.column

theorem Precedes.asymm {p q : Position} (h : p.Precedes q) : ¬ q.Precedes p := by
  unfold Precedes at h ⊢
  omega

end Position

namespace Text

variable {s t : Text} {offset n : Nat} {p : Position}

/-! ### Offsets and boundaries -/

/-- The last boundary of a text up to an offset. -/
def lower (t : Text) : Nat → Nat
  | 0 => 0
  | n + 1 => if t.isBoundary (n + 1) then n + 1 else t.lower n

/-- The boundary that an offset stands for: the end of the text when it lies behind it, and the start of
a character when it lies inside one. -/
def clamp (t : Text) (offset : Nat) : Nat := t.lower (min offset t.size)

theorem isBoundary_lower (t : Text) (n : Nat) : t.isBoundary (t.lower n) = true := by
  induction n with
  | zero => exact isBoundary_append [] t
  | succ n ih =>
    rw [lower]
    split
    · assumption
    · exact ih

theorem lower_le (t : Text) (n : Nat) : t.lower n ≤ n := by
  induction n with
  | zero => exact Nat.le_refl 0
  | succ n ih =>
    rw [lower]
    split <;> omega

theorem le_lower {i : Nat} (hi : t.isBoundary i = true) (hin : i ≤ n) : i ≤ t.lower n := by
  induction n with
  | zero => exact hin
  | succ n ih =>
    rw [lower]
    split
    · exact hin
    · rename_i hn
      have hne : i ≠ n + 1 := by
        rintro rfl
        exact hn hi
      exact ih (by omega)

/-- **Clamping** gives the last boundary up to an offset. -/
theorem clamp_eq_iff {i : Nat} : t.clamp offset = i ↔
    t.isBoundary i = true ∧ i ≤ offset ∧ ∀ j, t.isBoundary j = true → j ≤ offset → j ≤ i := by
  have hle : t.clamp offset ≤ offset := (lower_le t _).trans (Nat.min_le_left ..)
  have hlast : ∀ j, t.isBoundary j = true → j ≤ offset → j ≤ t.clamp offset := by
    intro j hj hjo
    obtain ⟨l, r, rfl, rfl⟩ := isBoundary_iff.1 hj
    refine le_lower hj (Nat.le_min.2 ⟨hjo, ?_⟩)
    rw [size_append]
    exact Nat.le_add_right ..
  constructor
  · rintro rfl
    exact ⟨isBoundary_lower t _, hle, hlast⟩
  · rintro ⟨hi, hio, hmax⟩
    exact Nat.le_antisymm (hmax _ (isBoundary_lower t _) hle) (hlast i hi hio)

theorem clamp_mono {i j : Nat} (hij : i ≤ j) : t.clamp i ≤ t.clamp j := by
  obtain ⟨hi, hle, -⟩ := clamp_eq_iff.1 (Eq.refl (t.clamp i))
  exact (clamp_eq_iff.1 (Eq.refl (t.clamp j))).2.2 _ hi (hle.trans hij)

/-- **The walk through a text** ends before the first character that reaches past the offset. -/
theorem exists_positionFrom (p : Position) (t : Text) (offset : Nat) :
    ∃ l r, t = l ++ r ∧ l.size ≤ offset ∧ (∀ c, r.head? = some c → offset < l.size + c.utf8Size) ∧
      positionFrom p t offset = l.foldl Position.next p := by
  induction t generalizing p offset with
  | nil => exact ⟨[], [], rfl, Nat.zero_le _, by simp, rfl⟩
  | cons c t ih =>
    rw [positionFrom]
    -- the character is passed when it ends at or before the offset
    split
    · rename_i hle
      obtain ⟨l, r, rfl, hl, hr, hposition⟩ := ih (p.next c) (offset - c.utf8Size)
      refine ⟨c :: l, r, rfl, ?_, fun d hd => ?_, hposition⟩
      · rw [size_cons]
        omega
      · have := hr d hd
        rw [size_cons]
        omega
    · rename_i hlt
      refine ⟨[], c :: t, rfl, Nat.zero_le _, fun d hd => ?_, rfl⟩
      obtain rfl : c = d := by simpa using hd
      rw [size_nil]
      omega

/-- **The position of an offset** is what the text before its boundary counts up to. -/
theorem exists_position (t : Text) (offset : Nat) :
    ∃ l r, t = l ++ r ∧ l.size = t.clamp offset ∧
      t.position offset = l.foldl Position.next .first := by
  obtain ⟨l, r, rfl, hl, hr, hposition⟩ := exists_positionFrom .first t offset
  have hclamp : clamp (l ++ r) offset = l.size := by
    refine clamp_eq_iff.2 ⟨isBoundary_append l r, hl, fun j hj hjo => ?_⟩
    -- a later boundary lies behind the next character
    by_contra hlt
    obtain ⟨l', r', heq, rfl⟩ := isBoundary_iff.1 hj
    obtain ⟨m, rfl, rfl⟩ := exists_append_of_size_le heq (by omega)
    cases m with
    | nil =>
      rw [List.append_nil] at hlt
      omega
    | cons c m =>
      have := hr c rfl
      simp only [size_append, size_cons] at hjo
      omega
  exact ⟨l, r, rfl, hclamp.symm, hposition⟩

theorem position_clamp (t : Text) (offset : Nat) : t.position (t.clamp offset) = t.position offset := by
  obtain ⟨l, r, rfl, hl, hposition⟩ := exists_position t offset
  rw [← hl, position_append, hposition]

/-! ### Counting on -/

/-- Without a newline the column goes on. -/
theorem foldl_next_of_plain (hs : newlines s = 0) (p : Position) :
    s.foldl Position.next p = ⟨p.line, p.column + s.length⟩ := by
  induction s generalizing p with
  | nil => rfl
  | cons c s ih =>
    have hc : c ≠ '\n' := by
      rintro rfl
      rw [newlines_cons_newline] at hs
      omega
    have hrest : newlines s = 0 := by rwa [newlines, List.count_cons_of_ne hc] at hs
    rw [List.foldl_cons, ih hrest, Position.next, if_neg hc, List.length_cons]
    show Position.mk p.line (p.column + 1 + s.length) = _
    rw [Nat.add_assoc, Nat.add_comm 1]

/-- **Positions grow**: every character leads to a later one. -/
theorem precedes_foldl_next (hs : s ≠ []) (p : Position) : p.Precedes (s.foldl Position.next p) := by
  by_cases hplain : newlines s = 0
  · rw [foldl_next_of_plain hplain]
    have := List.length_pos_of_ne_nil hs
    exact .inr ⟨rfl, by show p.column < p.column + s.length; omega⟩
  · refine .inl ?_
    rw [line_foldl_next]
    omega

/-- **Later boundaries have later positions.** -/
theorem precedes_of_lt {i j : Nat} (hi : t.isBoundary i = true) (hj : t.isBoundary j = true)
    (hij : i < j) : (t.position i).Precedes (t.position j) := by
  obtain ⟨l, r, rfl, rfl⟩ := isBoundary_iff.1 hi
  obtain ⟨l', r', heq, rfl⟩ := isBoundary_iff.1 hj
  obtain ⟨m, rfl, rfl⟩ := exists_append_of_size_le heq (by omega)
  have hne : m ≠ [] := by
    rintro rfl
    rw [List.append_nil] at hij
    omega
  have hlater : position (l ++ (m ++ r')) (l ++ m).size = (l ++ m).foldl Position.next .first := by
    rw [← List.append_assoc, position_append]
  rw [position_append, hlater, List.foldl_append]
  exact precedes_foldl_next hne _

theorem not_precedes_of_le {i j : Nat} (hij : i ≤ j) : ¬ (t.position j).Precedes (t.position i) := by
  rw [← position_clamp t i, ← position_clamp t j]
  rcases Nat.lt_or_eq_of_le (clamp_mono (t := t) hij) with hlt | heq
  · exact (precedes_of_lt (isBoundary_lower t _) (isBoundary_lower t _) hlt).asymm
  · rw [heq]
    exact fun h => h.asymm h

/-! ### Where lines stand -/

theorem EndsLine.eq_nil_of_append {a m : Text} (h : EndsLine (a ++ m)) (hm : m.newlines = 0) :
    m = [] := by
  rcases List.eq_nil_or_concat m with rfl | ⟨m, c, rfl⟩
  · rfl
  · rcases h with hnil | ⟨q, hq⟩
    · simp at hnil
    · -- the text ends with a newline, which is one of `m`
      rw [List.concat_eq_append, ← List.append_assoc] at hq
      obtain ⟨-, hc⟩ := List.append_inj' hq rfl
      rw [List.concat_eq_append, newlines_append, hc] at hm
      exact absurd hm (Nat.succ_ne_zero _)

/-- **The newlines before a line** tell where it starts. -/
theorem EndsLine.unique {a b r : Text} (ha : EndsLine a) (hb : EndsLine b) (h : a ++ r = b ++ s)
    (hn : a.newlines = b.newlines) : a = b := by
  rcases List.append_eq_append_iff.1 h with ⟨m, rfl, -⟩ | ⟨m, rfl, -⟩
  · rw [newlines_append] at hn
    rw [hb.eq_nil_of_append (by omega), List.append_nil]
  · rw [newlines_append] at hn
    rw [ha.eq_nil_of_append (by omega), List.append_nil]

/-- A text falls into its last line and what stands before that. -/
theorem exists_lastLine (t : Text) : ∃ before line, t = before ++ line ∧ EndsLine before ∧
    line.newlines = 0 := by
  induction t with
  | nil => exact ⟨[], [], rfl, .inl rfl, rfl⟩
  | cons c t ih =>
    obtain ⟨before, line, rfl, hbefore, hline⟩ := ih
    rcases hbefore with rfl | ⟨q, rfl⟩
    · by_cases hc : c = '\n'
      · exact ⟨[c], line, rfl, .inr ⟨[], by rw [hc]; rfl⟩, hline⟩
      · refine ⟨[], c :: line, rfl, .inl rfl, ?_⟩
        rwa [newlines, List.count_cons_of_ne hc]
    · exact ⟨c :: (q ++ ['\n']), line, rfl, .inr ⟨c :: q, rfl⟩, hline⟩

theorem length_lines (t : Text) : t.lines.length = t.newlines + 1 := by
  have hlen : ∀ t : Text, (splitOn (· == '\n') t).length = newlines t + 1 := by
    intro t
    induction t with
    | nil => rfl
    | cons c t ih =>
      rw [splitOn]
      -- a newline starts a line of its own; any other character joins the line behind it, and there
      -- is one
      split
      · rename_i hc
        rw [beq_iff_eq.1 hc, List.length_cons, ih, newlines_cons_newline]
      · rename_i hc
        have hcount : newlines (c :: t) = newlines t :=
          List.count_cons_of_ne fun h => hc (beq_iff_eq.2 h)
        rw [hcount, ← ih]
        split
        · rename_i hnil
          rw [hnil] at ih
          cases ih
        · rename_i hcons
          rw [hcons, List.length_cons, List.length_cons]
  exact hlen t

/-- **An offset lies in the line of its position**, behind as many characters as its column says. -/
theorem position_in_line (t : Text) (offset : Nat) :
    1 ≤ (t.position offset).line ∧ (t.position offset).line ≤ t.lines.length ∧
    (t.lineSpan (t.position offset).line).start ≤ t.clamp offset ∧
    t.clamp offset ≤ (t.lineSpan (t.position offset).line).stop ∧
    ∃ s, t.slice? ⟨(t.lineSpan (t.position offset).line).start, t.clamp offset⟩ = some s ∧
      (t.position offset).column = 1 + s.length := by
  obtain ⟨l, r, rfl, hl, hposition⟩ := exists_position t offset
  obtain ⟨before, part, rfl, hbefore, hpart⟩ := exists_lastLine l
  have hstart : before.foldl Position.next .first = ⟨1 + before.newlines, 1⟩ := by
    rcases hbefore with rfl | ⟨q, rfl⟩
    · rfl
    · rw [foldl_next_newline, newlines_append]
      rfl
  have hline : (position (before ++ part ++ r) offset).line = 1 + before.newlines ∧
      (position (before ++ part ++ r) offset).column = 1 + part.length := by
    rw [hposition, List.foldl_append, foldl_next_of_plain hpart, hstart]
    exact ⟨rfl, rfl⟩
  have hcount : newlines (before ++ part ++ r) = before.newlines + r.newlines := by
    rw [newlines_append, newlines_append, hpart, Nat.add_zero]
  obtain ⟨before', line, behind, h, hspan⟩ :=
    exists_line (t := before ++ part ++ r) (n := 1 + before.newlines) (by omega) (by omega)
  -- both parts hold the newlines before the line
  have heq : before ++ (part ++ r) = before' ++ (line ++ behind) := by
    rw [← List.append_assoc]
    exact h.text
  obtain rfl : before = before' := by
    refine hbefore.unique h.start heq ?_
    have := h.number
    omega
  have hsize : part.size ≤ line.size := by
    rcases List.append_eq_append_iff.1 (List.append_cancel_left heq) with ⟨m, rfl, -⟩ | ⟨m, rfl, hm⟩
    · rw [size_append]
      exact Nat.le_add_right ..
    · cases m with
      | nil => rw [List.append_nil]
      | cons c m =>
        -- behind the line comes a newline, and there is none in `part`
        rcases h.stop with hnil | ⟨rest, hrest⟩
        · rw [hnil] at hm
          cases hm
        · rw [hrest] at hm
          obtain ⟨rfl, -⟩ := List.cons.inj hm
          rw [newlines_append, newlines_cons_newline] at hpart
          omega
  rw [hline.1, hline.2, hspan, ← hl, size_append, length_lines]
  refine ⟨by omega, by omega, Nat.le_add_right .., Nat.add_le_add_left hsize _, part, ?_, rfl⟩
  rw [List.append_assoc]
  exact slice?_append before part r rfl rfl

/-- **One newline stands between two lines.** -/
theorem newline_between (h1 : 1 ≤ n) (hn : n < t.lines.length) :
    (t.lineSpan (n + 1)).start = (t.lineSpan n).stop + 1 ∧
      t.slice? ⟨(t.lineSpan n).stop, (t.lineSpan (n + 1)).start⟩ = some ['\n'] := by
  rw [length_lines] at hn
  obtain ⟨before, line, behind, h, hspan⟩ := exists_line (t := t) h1 (by omega)
  obtain ⟨before', line', behind', h', hspan'⟩ := exists_line (t := t) (n := n + 1) (by omega) (by omega)
  have hnumber := h.number
  have hplain := h.plain
  have hcount : t.newlines = before.newlines + (line.newlines + behind.newlines) := by
    rw [h.text, newlines_append, newlines_append]
  rcases h.stop with rfl | ⟨rest, rfl⟩
  · have hnone : newlines [] = 0 := rfl
    omega
  · -- the next line starts behind this one and its newline
    have heq : before ++ (line ++ ['\n']) ++ rest = before' ++ (line' ++ behind') := by
      rw [← h'.text, h.text]
      simp
    have hone : newlines ['\n'] = 1 := rfl
    obtain rfl : before ++ (line ++ ['\n']) = before' := by
      refine EndsLine.unique (.inr ⟨before ++ line, by simp⟩) h'.start heq ?_
      have hnumber' := h'.number
      rw [newlines_append, newlines_append]
      omega
    have hsize : (before ++ (line ++ ['\n'])).size = before.size + line.size + 1 := by
      rw [size_append, size_append, Nat.add_assoc]
      rfl
    have htext : t = (before ++ line) ++ (['\n'] ++ rest) := by
      rw [h.text]
      simp
    rw [hspan, hspan', hsize]
    refine ⟨rfl, ?_⟩
    nth_rewrite 1 [htext]
    exact slice?_append (before ++ line) ['\n'] rest (by rw [size_append]) (by rw [size_append]; rfl)

/-- The first line starts the text, and the last one ends it. -/
theorem lineSpan_ends (t : Text) :
    (t.lineSpan 1).start = 0 ∧ (t.lineSpan t.lines.length).stop = t.size := by
  constructor
  · obtain ⟨before, line, behind, h, hspan⟩ := exists_line (t := t) (n := 1) (by omega) (by omega)
    have hnone : before.newlines = 0 := by
      have := h.number
      omega
    have hnil : before = [] := EndsLine.eq_nil_of_append (a := []) h.start hnone
    rw [hspan, hnil]
    rfl
  · rw [length_lines]
    obtain ⟨before, line, behind, h, hspan⟩ :=
      exists_line (t := t) (n := t.newlines + 1) (by omega) (by omega)
    have hcount : t.newlines = before.newlines + (line.newlines + behind.newlines) := by
      rw [h.text, newlines_append, newlines_append]
    have hnumber := h.number
    -- the last line ends at the end of the text, or another line would follow it
    rcases h.stop with rfl | ⟨rest, rfl⟩
    · rw [hspan, h.text]
      simp
    · rw [newlines_cons_newline] at hcount
      omega

end Text

/-! ### Files and their offenses -/

/-- The line and column of a location. -/
def Location.position (l : Location) : Position := ⟨l.line, l.column⟩

/-- Offenses about one file come in the order of their offsets. -/
theorem Offense.start_le_of_le {o p : Offense} (hpath : o.location.path = p.location.path)
    (h : o.le p = true) : o.location.start ≤ p.location.start := by
  have hsame : o.location.path.compare p.location.path = .eq := by
    rw [hpath, Path.compare_eq_iff]
  unfold Offense.le Location.compare at h
  rw [hsame, Ordering.then_assoc, Ordering.eq_then, Ordering.then_assoc,
    Ordering.isLE_then_iff_or] at h
  rcases h with hlt | ⟨heq, -⟩
  · exact Nat.le_of_lt (Nat.compare_eq_lt.1 hlt)
  · exact Nat.le_of_eq (Nat.compare_eq_eq.1 heq)

namespace SourceFile

theorem location_findingAtLine {f : SourceFile} {e : Event} (hfile : e.file? = some f) (n : Nat)
    (message : String) (correction : Option Correction) :
    (e.findingAtLine n message correction).location = f.locate (f.source.lineSpan n) := by
  unfold Event.findingAtLine Event.findingAt
  rw [hfile]
  rfl

/-- **Offsets and positions agree.** Every offset, clamped to a boundary of the source, lies in the line
that its position names, and its column is one more than the number of characters between the start of
that line and the boundary. Every line starts at its own position in column 1, and that is where a
finding about the line is located. Lines follow each other with exactly one newline between them, from
the start of the source to its end. Of two boundaries the one further on has the later position, and so
offenses about the file that are sorted as offenses are, by offset, come in the order of lines and
columns. -/
theorem positions_consistent (f : SourceFile) :
    (∀ offset,
      let p := f.source.position offset
      let line := f.source.lineSpan p.line
      1 ≤ p.line ∧ p.line ≤ f.source.lines.length ∧
      line.start ≤ f.source.clamp offset ∧ f.source.clamp offset ≤ line.stop ∧
      ∃ s, f.source.slice? ⟨line.start, f.source.clamp offset⟩ = some s ∧ p.column = 1 + s.length) ∧
    (∀ n, 1 ≤ n → n ≤ f.source.lines.length →
      f.source.position (f.source.lineSpan n).start = ⟨n, 1⟩ ∧
      ∀ (e : Event) (message : String) (correction : Option Correction), e.file? = some f →
        (e.findingAtLine n message correction).location =
          ⟨f.relativePath, n, 1, (f.source.lineSpan n).start, (f.source.lineSpan n).stop⟩) ∧
    (∀ n, 1 ≤ n → n < f.source.lines.length →
      (f.source.lineSpan (n + 1)).start = (f.source.lineSpan n).stop + 1 ∧
      f.source.slice? ⟨(f.source.lineSpan n).stop, (f.source.lineSpan (n + 1)).start⟩ = some ['\n']) ∧
    ((f.source.lineSpan 1).start = 0 ∧
      (f.source.lineSpan f.source.lines.length).stop = f.source.size) ∧
    (∀ i j, f.source.isBoundary i = true → f.source.isBoundary j = true →
      (i < j ↔ (f.source.position i).Precedes (f.source.position j))) ∧
    (∀ os : List Offense, (∀ o ∈ os, ∃ span, o.location = f.locate span) →
      os.Pairwise (fun o p => o.le p = true) →
      os.Pairwise fun o p => ¬ p.location.position.Precedes o.location.position) := by
  refine ⟨f.source.position_in_line, fun n h1 hn => ?_, fun n h1 hn => Text.newline_between h1 hn,
    f.source.lineSpan_ends, fun i j hi hj => ⟨Text.precedes_of_lt hi hj, fun h => ?_⟩,
    fun os hos hsorted => ?_⟩
  · -- a line's start is at its column 1, which is where a finding at the line points
    have hn' : n ≤ 1 + f.source.newlines := by
      rw [Text.length_lines] at hn
      omega
    have hposition := Text.position_lineSpan h1 hn'
    refine ⟨hposition, fun e message correction hfile => ?_⟩
    rw [location_findingAtLine hfile, locate, hposition]
  · -- positions follow the offsets, so the order of two offsets is read off them
    by_contra hij
    exact Text.not_precedes_of_le (Nat.not_lt.1 hij) h
  · -- the report's order compares start offsets within a file
    refine hsorted.imp_of_mem fun {o p} ho hp hle => ?_
    obtain ⟨span, hspan⟩ := hos o ho
    obtain ⟨span', hspan'⟩ := hos p hp
    have hstart := Offense.start_le_of_le (by rw [hspan, hspan']; rfl) hle
    rw [hspan, hspan'] at hstart ⊢
    exact Text.not_precedes_of_le hstart

/-- Line ends of two bytes, a character of two bytes and an empty last line: an offset inside the
character stands for its start, one behind the text for the end of the last line. -/
example :
    let t : Text := "a\r\né\n".toList
    t.lines.length = 3 ∧ (t.lineSpan 1, t.lineSpan 2, t.lineSpan 3) = (⟨0, 2⟩, ⟨3, 5⟩, ⟨6, 6⟩) ∧
    (t.clamp 4, t.position 4) = (3, ⟨2, 1⟩) ∧ (t.clamp 9, t.position 9) = (6, ⟨3, 1⟩) := by
  decide

end SourceFile

end LiquidLint
