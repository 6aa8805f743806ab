import LiquidLint.Proofs.Liquid.Lookup
import LiquidLint.Proofs.Text.Within

/-!
# Strings in markup

A string runs from a quote to the next quote of the same kind, and one that is never closed to the end
of the markup (`IsString`). Where a string can start is said by `Outside`, which knows nothing of how
markup is scanned: plain characters and whole strings stand before it. Main statement: `scan_exact`.
The pieces that the scan finds are in order and leave out exactly the bytes of strings, and the filters
are the names behind bars outside strings, in order and each once.

The scan goes through the characters with the quote of the open string as its state. `outside_iff` and
`exists_open_iff` say what the state after a part of the markup stands for.
-/

namespace LiquidLint.Liquid

open Spacing (quoteAfter quoteAfter_append quoteAfter_word isQuote_quoteAfter)

/-- Markup that is made of plain characters and whole strings. -/
inductive Outside : Text → Prop where
  | nil : Outside []
  | plain {p : Text} {x : Char} : Outside p → isQuote x = false → Outside (p ++ [x])
  /-- A quote, what is not that quote, and the quote again. -/
  | string {p body : Text} {q : Char} : Outside p → isQuote q = true → q ∉ body →
      Outside (p ++ (q :: (body ++ [q])))

/-- The span of a string in the markup `m`. -/
inductive IsString (m : Text) : Span → Prop where
  /-- A string up to the next quote of its kind. -/
  | closed {p body r : Text} {q : Char} : Outside p → isQuote q = true → q ∉ body →
      m = p ++ (q :: (body ++ [q]) ++ r) →
      IsString m ⟨p.size, p.size + Text.size (q :: (body ++ [q]))⟩
  /-- A string whose quote does not come again. -/
  | unclosed {p body : Text} {q : Char} : Outside p → isQuote q = true → q ∉ body →
      m = p ++ (q :: body) → IsString m ⟨p.size, m.size⟩

variable {m p body t a b w r : Text} {q x : Char} {n offset : Nat} {s : Span}

/-! ### The quote that is open -/

theorem quoteAfter_body (h : q ∉ body) : quoteAfter (some q) body = some q := by
  induction body with
  | nil => rfl
  | cons x body ih =>
    have hx : x ≠ q := fun heq => h (heq ▸ List.mem_cons_self)
    rw [quoteAfter, if_neg hx]
    exact ih fun hmem => h (List.mem_cons_of_mem x hmem)

/-- A string is open behind its quote. -/
theorem quoteAfter_open (hp : quoteAfter none p = none) (hq : isQuote q = true) (hbody : q ∉ body) :
    quoteAfter none (p ++ q :: body) = some q := by
  rw [quoteAfter_append, hp, quoteAfter, if_pos hq]
  exact quoteAfter_body hbody

theorem Outside.quoteAfter_eq (h : Outside p) : quoteAfter none p = none := by
  induction h with
  | nil => rfl
  | @plain p x _ hx ih =>
    rw [quoteAfter_append, ih, quoteAfter, hx]
    rfl
  | @string p body q _ hq hbody ih =>
    rw [← List.cons_append, ← List.append_assoc, quoteAfter_append, quoteAfter_open ih hq hbody]
    exact if_pos rfl

/-- What the scan knows after `p`: it is outside strings, or in a string that it has seen the quote
of. -/
theorem outside_or_open (p : Text) :
    quoteAfter none p = none ∧ Outside p ∨
      ∃ a q body, p = a ++ q :: body ∧ quoteAfter none p = some q ∧ Outside a ∧ isQuote q = true ∧
        q ∉ body := by
  -- by induction from the right: the last character keeps the state, opens a string or closes the
  -- open one
  induction p using List.reverseRecOn with
  | nil => exact Or.inl ⟨rfl, .nil⟩
  | append_singleton p x ih =>
    rcases ih with ⟨hnone, houtside⟩ | ⟨a, q, body, rfl, hopen, ha, hq, hbody⟩
    · rw [quoteAfter_append, hnone]
      by_cases hx : isQuote x = true
      · refine Or.inr ⟨p, x, [], rfl, ?_, houtside, hx, List.not_mem_nil⟩
        rw [quoteAfter, if_pos hx]
        rfl
      · refine Or.inl ⟨?_, houtside.plain (Bool.eq_false_iff.2 hx)⟩
        rw [quoteAfter, if_neg hx]
        rfl
    · rw [quoteAfter_append, hopen]
      by_cases hx : x = q
      · subst hx
        refine Or.inl ⟨if_pos rfl, ?_⟩
        rw [List.append_assoc, List.cons_append]
        exact ha.string hq hbody
      · refine Or.inr ⟨a, q, body ++ [x], by simp, if_neg hx, ha, hq, ?_⟩
        simpa using ⟨hbody, Ne.symm hx⟩

theorem outside_iff : Outside p ↔ quoteAfter none p = none := by
  refine ⟨Outside.quoteAfter_eq, fun h => ?_⟩
  rcases outside_or_open p with ⟨-, houtside⟩ | ⟨a, q, body, -, hopen, -⟩
  · exact houtside
  · rw [h] at hopen
    cases hopen

/-! ### Where a byte lies -/

/-- Every byte belongs to a character. -/
theorem exists_char_at (h : n < m.size) :
    ∃ a x b, m = a ++ x :: b ∧ Text.size a ≤ n ∧ n < Text.size a + x.utf8Size := by
  induction m generalizing n with
  | nil => cases h
  | cons y m ih =>
    by_cases hn : n < y.utf8Size
    · exact ⟨[], y, m, rfl, Nat.zero_le n, by simpa using hn⟩
    · rw [Text.size_cons] at h
      obtain ⟨a, x, b, rfl, ha, hx⟩ := ih (n := n - y.utf8Size) (by omega)
      refine ⟨y :: a, x, b, rfl, ?_, ?_⟩ <;> rw [Text.size_cons] <;> omega

/-- A byte of a part is one of a character of the part. -/
theorem exists_split_of_within (hm : a ++ x :: b = p ++ (w ++ r)) (ha : a.size ≤ n)
    (hx : n < a.size + x.utf8Size) (hp : p.size ≤ n) (hw : n < p.size + w.size) :
    ∃ c t, a = p ++ c ∧ w = c ++ x :: t := by
  have hsize : Text.size (a ++ [x]) = a.size + x.utf8Size := Text.size_append a [x]
  -- the part starts before the character
  have hstart : p ++ (w ++ r) = (a ++ [x]) ++ b := by
    rw [← hm, List.append_assoc]
    rfl
  obtain ⟨c, hc, hrest⟩ := Text.exists_append_of_size_le hstart (by omega)
  rcases List.eq_nil_or_concat' c with rfl | ⟨c, y, rfl⟩
  · rw [hc, List.append_nil] at hsize
    omega
  · rw [← List.append_assoc] at hc
    obtain ⟨rfl, hy⟩ := List.append_inj' hc rfl
    obtain rfl := List.singleton_inj.1 hy
    -- and it ends behind it
    rw [List.append_assoc] at hrest
    obtain ⟨d, rfl, hd⟩ := Text.exists_append_of_size_le hrest.symm (by
      rw [Text.size_append] at ha
      omega)
    cases d with
    | nil =>
      rw [Text.size_append] at ha
      rw [List.append_nil] at hw
      omega
    | cons z d =>
      obtain ⟨rfl, -⟩ := List.cons.inj hd
      exact ⟨c, d, rfl, rfl⟩

theorem contains_iff : s.contains n = true ↔ s.start ≤ n ∧ n < s.stop := by
  simp [Span.contains]

/-- A character of a piece is plain, and stands outside strings. -/
theorem mem_piece_iff (hm : m = a ++ x :: b) (ha : a.size ≤ n) (hx : n < a.size + x.utf8Size) :
    (∃ u ∈ unquoted m, u.span.contains n = true) ↔ Outside a ∧ isQuote x = false := by
  rw [outside_iff]
  constructor
  · -- the piece holds the character, so what precedes it within the piece has no quote
    rintro ⟨u, hu, hn⟩
    obtain ⟨-, p, r, hpiece, hoffset, h⟩ := mem_unquoted_iff.1 hu
    obtain ⟨hstart, hstop⟩ := contains_iff.1 hn
    rw [hm] at hpiece
    obtain ⟨c, t, rfl, hchars⟩ := exists_split_of_within hpiece ha hx (hoffset ▸ hstart)
      (hoffset ▸ hstop)
    have hplain := h.plain
    rw [hchars, List.forall_mem_append, List.forall_mem_cons] at hplain
    refine ⟨?_, hplain.2.1⟩
    rw [quoteAfter_append, h.outside]
    exact quoteAfter_word hplain.1 (by simp)
  · rintro ⟨houtside, hplain⟩
    obtain ⟨p, c, d, r, rfl, rfl, h⟩ := exists_isPiece (w := [x]) b houtside (by simpa using hplain)
    refine ⟨⟨p.size, c ++ ([x] ++ d)⟩, mem_unquoted_iff.2 ⟨by simp, p, r, by simp [hm], rfl, h⟩,
      contains_iff.2 ?_⟩
    rw [Text.size_append] at ha hx
    have hsize : Text.size (c ++ ([x] ++ d)) = Text.size c + (x.utf8Size + Text.size d) := by
      rw [Text.size_append]
      rfl
    show p.size ≤ n ∧ n < p.size + Text.size (c ++ ([x] ++ d))
    omega

/-- A character of a string is its quote, or stands where the string is open. -/
theorem not_plain_of_string {c e : Text} (hp : Outside p) (hq : isQuote q = true) (hbody : q ∉ body)
    (he : e.length ≤ 1) (h : q :: (body ++ e) = c ++ x :: t) :
    ¬ (Outside (p ++ c) ∧ isQuote x = false) := by
  rintro ⟨houtside, hx⟩
  cases c with
  | nil =>
    rw [(List.cons.inj h).1, hx] at hq
    cases hq
  | cons y c =>
    rw [List.cons_append] at h
    obtain ⟨rfl, hrest⟩ := List.cons.inj h
    -- only the quote at the end is left out
    have hlength := congrArg List.length hrest
    simp only [List.length_append, List.length_cons] at hlength
    have hfront : c <+: body :=
      List.prefix_of_prefix_length_le ⟨x :: t, hrest.symm⟩ ⟨e, rfl⟩ (by omega)
    have hopen := quoteAfter_open hp.quoteAfter_eq hq fun hmem => hbody (hfront.subset hmem)
    rw [houtside.quoteAfter_eq] at hopen
    cases hopen

/-- A string that is open goes on with the next character. -/
theorem exists_isString (hp : Outside p) (hq : isQuote q = true) (hbody : q ∉ body)
    (hm : m = p ++ q :: (body ++ t)) : ∃ s, IsString m s ∧ s.start = p.size ∧
      Text.size (p ++ q :: body) ≤ s.stop ∧
      ∀ y ∈ t.head?, Text.size (p ++ q :: body) + y.utf8Size ≤ s.stop := by
  -- the string ends at the next `q` of the text, or at the end
  by_cases hmem : q ∈ t
  · obtain ⟨d, r, rfl, hd⟩ := List.eq_append_cons_of_mem hmem
    have hnot : q ∉ body ++ d := by
      rw [List.mem_append]
      exact fun h => h.elim hbody hd
    refine ⟨_, .closed (r := r) hp hq hnot (by simp [hm]), rfl, ?_, fun y hy => ?_⟩
    · simp only [Text.size_append, Text.size_cons]
      omega
    · have hy : y.utf8Size ≤ Text.size (d ++ [q]) := by
        cases d with
        | nil =>
          obtain rfl := Option.some.inj hy
          exact Nat.le_refl _
        | cons z d =>
          obtain rfl := Option.some.inj hy
          exact Nat.le_add_right _ _
      simp only [Text.size_append, Text.size_cons] at hy ⊢
      omega
  · refine ⟨_, .unclosed hp hq ?_ hm, rfl, ?_, fun y hy => ?_⟩
    · rw [List.mem_append]
      exact fun h => h.elim hbody hmem
    · rw [hm]
      simp only [Text.size_append, Text.size_cons]
      omega
    · obtain ⟨t, rfl⟩ := List.head?_eq_some_iff.1 hy
      rw [hm]
      simp only [Text.size_append, Text.size_cons]
      omega

/-- **The bytes of strings** are those of quotes and of what stands where a string is open. -/
theorem mem_string_iff (hm : m = a ++ x :: b) (ha : a.size ≤ n) (hx : n < a.size + x.utf8Size) :
    (∃ s, IsString m s ∧ s.contains n = true) ↔ ¬ (Outside a ∧ isQuote x = false) := by
  constructor
  · rintro ⟨s, hs, hn⟩
    obtain ⟨hstart, hstop⟩ := contains_iff.1 hn
    cases hs with
    | @closed p body r q hp hq hbody hstring =>
      rw [hm] at hstring
      obtain ⟨c, t, rfl, hc⟩ := exists_split_of_within hstring ha hx hstart hstop
      exact not_plain_of_string (e := [q]) hp hq hbody le_rfl hc
    | @unclosed p body q hp hq hbody hstring =>
      rw [hstring, Text.size_append] at hstop
      rw [hm, ← List.append_nil (q :: body)] at hstring
      obtain ⟨c, t, rfl, hc⟩ := exists_split_of_within hstring ha hx hstart hstop
      exact not_plain_of_string (e := []) hp hq hbody (Nat.zero_le 1) (by rw [List.append_nil, hc])
  · intro hnot
    rcases outside_or_open a with ⟨-, houtside⟩ | ⟨p, q, body, rfl, -, hp, hq, hbody⟩
    · -- the character is the quote of a string
      have hquote : isQuote x = true := by
        by_contra hx
        exact hnot ⟨houtside, Bool.eq_false_iff.2 hx⟩
      obtain ⟨s, hs, hstart, hstop, -⟩ :=
        exists_isString houtside hquote (List.not_mem_nil : x ∉ ([] : Text)) hm
      refine ⟨s, hs, contains_iff.2 ⟨hstart ▸ ha, ?_⟩⟩
      rw [Text.size_append] at hstop
      exact lt_of_lt_of_le hx hstop
    · obtain ⟨s, hs, hstart, -, hstop⟩ := exists_isString (m := m) (t := x :: b) hp hq hbody (by simp [hm])
      refine ⟨s, hs, contains_iff.2 ⟨?_, lt_of_lt_of_le hx (hstop x rfl)⟩⟩
      rw [Text.size_append] at ha
      omega

/-! ### Order -/

variable {o : Option Char} {u : Unquoted} {f : Found}

theorem mem_unquotedPiece (hrun : r.size ≤ offset) (hu : u ∈ unquotedPiece offset r) :
    u.offset = offset - r.size ∧ u.span.stop = offset := by
  unfold unquotedPiece at hu
  split at hu
  · cases hu
  · rw [List.mem_singleton.1 hu]
    refine ⟨rfl, ?_⟩
    show offset - r.size + Text.size r.reverse = offset
    rw [Text.size_reverse]
    omega

/-- Pieces do not start before the characters that are collected. -/
theorem le_of_mem_unquotedFrom (hrun : r.size ≤ offset) (hu : u ∈ unquotedFrom offset r o t) :
    offset - r.size ≤ u.offset := by
  -- a piece found later starts after what was read, and the run being collected starts `r.size`
  -- before that
  induction t generalizing offset r o with
  | nil =>
    cases o with
    | none => exact (mem_unquotedPiece hrun hu).1.ge
    | some q => cases hu
  | cons x t ih =>
    have hlater (o : Option Char) (hu : u ∈ unquotedFrom (offset + x.utf8Size) [] o t) :
        offset - r.size ≤ u.offset := by
      have h := ih (r := []) (Nat.zero_le _) hu
      rw [Text.size_nil] at h
      omega
    cases o with
    | some q => exact hlater _ hu
    | none =>
      unfold unquotedFrom at hu
      split at hu
      · rcases List.mem_append.1 hu with hu | hu
        · exact (mem_unquotedPiece hrun hu).1.ge
        · exact hlater _ hu
      · have h := ih (r := x :: r) (by rw [Text.size_cons]; omega) hu
        rw [Text.size_cons] at h
        omega

/-- Between two pieces stands a string. -/
theorem pairwise_unquotedFrom (hrun : r.size ≤ offset) :
    (unquotedFrom offset r o t).Pairwise fun u v => u.span.stop < v.offset := by
  have hpiece (offset : Nat) (r : Text) :
      (unquotedPiece offset r).Pairwise fun u v => u.span.stop < v.offset := by
    unfold unquotedPiece
    split
    · exact .nil
    · exact List.pairwise_singleton _ _
  induction t generalizing offset r o with
  | nil =>
    cases o with
    | none => exact hpiece offset r
    | some q => exact .nil
  | cons x t ih =>
    cases o with
    | some q => exact ih (Nat.zero_le _)
    | none =>
      unfold unquotedFrom
      split
      · refine List.pairwise_append.2 ⟨hpiece offset r, ih (Nat.zero_le _), fun u hu v hv => ?_⟩
        -- the quote takes up room
        have hstop := (mem_unquotedPiece hrun hu).2
        have hstart := le_of_mem_unquotedFrom (r := []) (Nat.zero_le _) hv
        have hx := x.utf8Size_pos
        rw [Text.size_nil] at hstart
        omega
      · exact ih (by rw [Text.size_cons]; omega)

/-- A filter name stands behind the blanks that come first. -/
theorem lt_of_mem_filtersFrom (hf : f ∈ filtersFrom offset t) :
    offset + Text.size (t.takeWhile isBlank) < f.offset := by
  induction t generalizing offset with
  | nil => cases hf
  | cons x t ih =>
    have hx := x.utf8Size_pos
    -- a filter found in the tail comes after this character, blank or not
    have hlater (hf : f ∈ filtersFrom (offset + x.utf8Size) t) :
        offset + Text.size ((x :: t).takeWhile isBlank) < f.offset := by
      have h := ih hf
      by_cases hblank : isBlank x = true
      · rw [List.takeWhile_cons_of_pos hblank, Text.size_cons]
        omega
      · rw [List.takeWhile_cons_of_neg hblank, Text.size_nil]
        omega
    unfold filtersFrom at hf
    dsimp only at hf
    split at hf
    · next hbar =>
      split at hf
      · exact hlater hf
      · rcases List.mem_cons.1 hf with rfl | hf
        · rw [hbar, List.takeWhile_cons_of_neg (by decide), Text.size_nil]
          show offset + 0 < offset + 1 + _
          omega
        · exact hlater hf
    · exact hlater hf

theorem pairwise_filtersFrom (offset : Nat) (t : Text) :
    (filtersFrom offset t).Pairwise fun f g => f.offset < g.offset := by
  induction t generalizing offset with
  | nil => exact .nil
  | cons x t ih =>
    unfold filtersFrom
    dsimp only
    split
    · next hbar =>
      split
      · exact ih _
      · refine List.pairwise_cons.2 ⟨fun g hg => ?_, ih _⟩
        -- further bars stand behind the blanks before the name
        have h := lt_of_mem_filtersFrom hg
        rw [hbar] at h
        exact h
    · exact ih _

/-- The filters of a piece stand inside it. -/
theorem within_of_mem_filtersFrom (hf : f ∈ filtersFrom u.offset u.chars) :
    u.offset < f.offset ∧ f.offset + Text.size f.name.toList ≤ u.span.stop := by
  obtain ⟨p, r, hchars, width, ⟨g, s, rfl, -, rfl⟩, hoffset⟩ := mem_filtersFrom.1 hf
  have hbar : '|'.utf8Size = 1 := rfl
  have hsize := congrArg Text.size hchars
  simp only [Text.size_append, Text.size_cons] at hsize
  show u.offset < f.offset ∧ _ ≤ u.offset + u.chars.size
  omega

/-- Filters are found in the order in which they stand. -/
theorem pairwise_filters (m : Text) : (filters m).Pairwise fun f g => f.offset < g.offset := by
  refine List.pairwise_flatMap.2 ⟨fun u _ => pairwise_filtersFrom _ _, ?_⟩
  refine (pairwise_unquotedFrom (r := []) (Nat.zero_le 0)).imp fun {u v} huv f hf g hg => ?_
  have hstop := (within_of_mem_filtersFrom hf).2
  have hstart := (within_of_mem_filtersFrom hg).1
  omega

/-- A piece is a part of the markup. -/
theorem stands_of_mem_unquoted (hu : u ∈ unquoted m) : Text.Stands m u.offset u.chars := by
  obtain ⟨-, p, r, hm, hoffset, -⟩ := mem_unquoted_iff.1 hu
  exact ⟨p, r, hm, hoffset⟩

/-- **The pieces outside strings** leave out exactly the bytes of strings. -/
theorem mem_piece_iff_not_string : (∃ u ∈ unquoted m, u.span.contains n = true) ↔
    n < m.size ∧ ¬ ∃ s, IsString m s ∧ s.contains n = true := by
  by_cases hn : n < m.size
  · obtain ⟨a, x, b, hm, ha, hx⟩ := exists_char_at hn
    rw [mem_piece_iff hm ha hx, mem_string_iff hm ha hx, not_not]
    exact (and_iff_right hn).symm
  · refine iff_of_false ?_ fun h => hn h.1
    rintro ⟨u, hu, hcontains⟩
    have hstop : u.span.stop ≤ m.size := (Span.within_of_stands (stands_of_mem_unquoted hu)).stop_le
    exact hn (lt_of_lt_of_le (contains_iff.1 hcontains).2 hstop)

/-- **Markup is scanned exactly.** The pieces outside strings are parts of the markup that are not
empty, one behind the other with a string between them, and they leave out exactly the bytes of
strings. The filters are the longest names that follow a bar outside strings and blanks, with the
offsets at which they stand, in order and each once, and they have no byte of a string. -/
theorem scan_exact (m : Text) :
    (∀ u ∈ unquoted m, u.span.start < u.span.stop ∧ u.span.Within m ∧
      Text.Stands m u.offset u.chars) ∧
    ((unquoted m).map (·.span)).Pairwise (fun a b => a.stop < b.start) ∧
    (∀ n, (∃ u ∈ unquoted m, u.span.contains n = true) ↔
      n < m.size ∧ ¬ ∃ s, IsString m s ∧ s.contains n = true) ∧
    (∀ f : Found, f ∈ filters m ↔ ∃ pre gap post,
      m = pre ++ '|' :: (gap ++ (f.name.toList ++ post)) ∧ Outside pre ∧
      IsFilter gap f.name.toList post ∧ f.offset = pre.size + 1 + Text.size gap) ∧
    (filters m).Pairwise (fun f g => f.offset < g.offset) ∧
    ∀ f ∈ filters m, ∀ s, IsString m s → ∀ n,
      Span.contains ⟨f.offset, f.offset + Text.size f.name.toList⟩ n = true → s.contains n = false := by
  refine ⟨fun u hu => ?_, ?_, fun n => mem_piece_iff_not_string, fun f => ?_, pairwise_filters m,
    fun f hf s hs n hn => ?_⟩
  · have hstands := stands_of_mem_unquoted hu
    have hpos := Text.size_pos (mem_unquoted_iff.1 hu).1
    exact ⟨Nat.lt_add_of_pos_right hpos, Span.within_of_stands hstands, hstands⟩
  · rw [List.pairwise_map]
    exact pairwise_unquotedFrom (r := []) (Nat.zero_le 0)
  · rw [mem_filters]
    constructor
    · rintro ⟨pre, _, rfl, houtside, width, ⟨g, s, rfl, hfilter, rfl⟩, hoffset⟩
      exact ⟨pre, g, s, rfl, outside_iff.2 houtside, hfilter, by omega⟩
    · rintro ⟨pre, g, s, rfl, houtside, hfilter, hoffset⟩
      exact ⟨pre, _, rfl, outside_iff.1 houtside, _, ⟨g, s, rfl, hfilter, rfl⟩, by omega⟩
  · -- the name stands in a piece, and pieces have no byte of a string
    obtain ⟨u, hu, hfilter⟩ := List.mem_flatMap.1 hf
    obtain ⟨hstart, hstop⟩ := within_of_mem_filtersFrom hfilter
    obtain ⟨hn, hn'⟩ := contains_iff.1 hn
    have hcontains : u.span.contains n = true :=
      contains_iff.2 ⟨le_trans hstart.le hn, lt_of_lt_of_le hn' hstop⟩
    rw [Bool.eq_false_iff]
    exact fun hstring => (mem_piece_iff_not_string.1 ⟨u, hu, hcontains⟩).2 ⟨s, hs, hstring⟩

/-- Strings with the other quote in them, without characters and without an end. -/
example :
    let m : Text := "é |t: 'a|\"b'''| u_1|'c | d".toList
    (unquoted m).map (·.span) = [⟨0, 7⟩, ⟨15, 21⟩] ∧ filters m = [⟨4, "t"⟩, ⟨17, "u_1"⟩] := by
  decide

end LiquidLint.Liquid
