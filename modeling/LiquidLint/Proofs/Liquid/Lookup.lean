import LiquidLint.Liquid.Lookup
import LiquidLint.Proofs.Spacing.Rename
import Mathlib.Data.List.DropRight

/-!
# Which variables markup reads

`Reads pre w post` says that in the markup `pre ++ (w ++ post)` the word `w` is read as a variable: it
stands outside strings as a whole name, and it is no property, no filter and no key of an argument.
Main statement: `mem_lookups_iff`. The variables that are looked up are those that are read, but for
keywords and for words right after a dot, as the upper end of a range is.

Markup is scanned piece by piece between strings (`mem_unquoted_iff`). A word is found where its first
letter is met while no name is going on (`Idle`), which is what makes it a whole name.
-/

namespace LiquidLint.Liquid

open Spacing (quoteAfter quoteAfter_append quoteAfter_word isQuote_quoteAfter)

/-! ### Pieces outside strings -/

/-- In the markup `p ++ (c ++ r)` the part `c` lies outside strings, and reaches on either side up to
a string or the end of the markup. -/
structure IsPiece (p c r : Text) : Prop where
  outside : quoteAfter none p = none
  left : ∀ x ∈ p.getLast?, isQuote x = true
  plain : ∀ x ∈ c, isQuote x = false
  right : ∀ x ∈ r.head?, isQuote x = true

/-- What has been read of markup: a piece that goes on with the characters `run`, last first, or a
string that is open. -/
def Collected (pre run : Text) : Option Char → Prop
  | none => ∃ p, pre = p ++ run.reverse ∧ quoteAfter none p = none ∧
      (∀ x ∈ p.getLast?, isQuote x = true) ∧ ∀ x ∈ run, isQuote x = false
  | some q => quoteAfter none pre = some q

variable {offset : Nat} {run p c r pre t g w s : Text} {q : Option Char} {u : Unquoted}

theorem Collected.isPiece (h : Collected pre run none) (hoffset : offset = pre.size)
    (hr : ∀ x ∈ r.head?, isQuote x = true) (hu : u ∈ unquotedPiece offset run) :
    u.chars ≠ [] ∧ ∃ p, pre = p ++ u.chars ∧ u.offset = p.size ∧ IsPiece p u.chars r := by
  obtain ⟨p, rfl, houtside, hleft, hplain⟩ := h
  unfold unquotedPiece at hu
  split at hu
  · cases hu
  · next hrun =>
    rw [List.mem_singleton.1 hu]
    refine ⟨by simpa using hrun, p, rfl, ?_, houtside, hleft, by simpa using hplain, hr⟩
    show offset - run.size = p.size
    rw [hoffset, Text.size_append, Text.size_reverse, Nat.add_sub_cancel]

/-- What is found outside strings is a piece. -/
theorem isPiece_of_mem_unquotedFrom (h : Collected pre run q) (hoffset : offset = pre.size)
    (hu : u ∈ unquotedFrom offset run q t) :
    u.chars ≠ [] ∧ ∃ p r, pre ++ t = p ++ (u.chars ++ r) ∧ u.offset = p.size ∧
      IsPiece p u.chars r := by
  -- by induction on the text still to read: what was read is a closed prefix with the run at its
  -- end, or lies in an open string
  induction t generalizing offset run q pre with
  | nil =>
    cases q with
    | none =>
      obtain ⟨hne, p, rfl, hp, hpiece⟩ := h.isPiece (r := []) hoffset (fun _ hx => nomatch hx) hu
      exact ⟨hne, p, [], by simp, hp, hpiece⟩
    | some q => cases hu
  | cons x t ih =>
    have hstep : pre ++ x :: t = (pre ++ [x]) ++ t := by simp
    have hnext : offset + x.utf8Size = Text.size (pre ++ [x]) := by
      rw [hoffset, Text.size_append]
      rfl
    cases q with
    | some q =>
      -- inside a string the run stays empty, and the next character may close it
      rw [hstep]
      refine ih ?_ hnext hu
      have hquote : isQuote q = true := isQuote_quoteAfter (o := none) (by simp) pre q h
      have hafter : quoteAfter none (pre ++ [x]) = if x = q then none else some q := by
        rw [quoteAfter_append, show quoteAfter none pre = some q from h]
        rfl
      by_cases hx : x = q
      · rw [if_pos hx] at hafter ⊢
        exact ⟨pre ++ [x], by simp, hafter, by simpa [hx] using hquote, by simp⟩
      · rw [if_neg hx] at hafter ⊢
        exact hafter
    | none =>
      obtain ⟨p, hpre, houtside, hleft, hplain⟩ := h
      have hrun : quoteAfter none pre = none := by
        rw [hpre, quoteAfter_append, houtside]
        exact quoteAfter_word (by simpa using hplain) (by simp)
      unfold unquotedFrom at hu
      split at hu
      · next hx =>
        -- an opening quote ends the run: the piece is the run itself, or comes later
        rcases List.mem_append.1 hu with hu | hu
        · obtain ⟨hne, p, rfl, hp, hpiece⟩ := Collected.isPiece (r := x :: t)
            ⟨p, hpre, houtside, hleft, hplain⟩ hoffset (by simpa using hx) hu
          exact ⟨hne, p, x :: t, by simp, hp, hpiece⟩
        · rw [hstep]
          refine ih ?_ hnext hu
          show quoteAfter none (pre ++ [x]) = some x
          rw [quoteAfter_append, hrun, quoteAfter, if_pos hx]
          rfl
      · next hx =>
        rw [hstep]
        refine ih ?_ hnext hu
        exact ⟨p, by simp [hpre], houtside, hleft,
          List.forall_mem_cons.2 ⟨Bool.eq_false_iff.2 hx, hplain⟩⟩

/-- The characters of a piece are collected to its end. -/
theorem mem_unquotedFrom_append (offset : Nat) (run : Text) (hc : ∀ x ∈ c, isQuote x = false)
    (hne : run.reverse ++ c ≠ []) (hr : ∀ x ∈ r.head?, isQuote x = true) :
    ⟨offset - run.size, run.reverse ++ c⟩ ∈ unquotedFrom offset run none (c ++ r) := by
  induction c generalizing offset run with
  | nil =>
    -- the quote or the end flushes the run, which holds the whole of `c` by now
    have hrun : run ≠ [] := by simpa using hne
    have hpiece : ⟨offset - run.size, run.reverse ++ []⟩ ∈ unquotedPiece offset run := by
      simp [unquotedPiece, hrun]
    cases r with
    | nil => exact hpiece
    | cons x r =>
      rw [List.nil_append, unquotedFrom, if_pos (hr x rfl)]
      exact List.mem_append_left _ hpiece
  | cons x c ih =>
    obtain ⟨hx, hc⟩ := List.forall_mem_cons.1 hc
    rw [List.cons_append, unquotedFrom, if_neg (by simp [hx])]
    have h := ih (offset + x.utf8Size) (x :: run) hc (by simp)
    have hoffset : offset + x.utf8Size - Text.size (x :: run) = offset - run.size := by
      rw [Text.size_cons]
      omega
    rw [hoffset, List.reverse_cons, List.append_assoc] at h
    exact h

/-- A piece behind some markup is found. -/
theorem mem_unquotedFrom_of_plain (offset : Nat) (run : Text) (hq : quoteAfter q p = none)
    (hp : p = [] → run = []) (hleft : ∀ x ∈ p.getLast?, isQuote x = true)
    (hc : ∀ x ∈ c, isQuote x = false) (hne : c ≠ []) (hr : ∀ x ∈ r.head?, isQuote x = true) :
    ⟨offset + p.size, c⟩ ∈ unquotedFrom offset run q (p ++ (c ++ r)) := by
  induction p generalizing offset run q with
  | nil =>
    obtain rfl : q = none := hq
    rw [hp rfl]
    exact mem_unquotedFrom_append offset [] hc hne hr
  | cons x p ih =>
    -- what follows the first character ends with a quote too, unless it is the only one
    have hleft' : ∀ y ∈ p.getLast?, isQuote y = true := by
      cases p with
      | nil => simp
      | cons y p => simpa using hleft
    rw [Text.size_cons, ← Nat.add_assoc]
    cases q with
    | some q => exact ih _ _ hq (fun _ => rfl) hleft'
    | none =>
      rw [List.cons_append, unquotedFrom]
      split
      · next hx =>
        rw [quoteAfter, if_pos hx] at hq
        exact List.mem_append_right _ (ih _ _ hq (fun _ => rfl) hleft')
      · next hx =>
        rw [quoteAfter, if_neg hx] at hq
        refine ih _ _ hq (fun hnil => ?_) hleft'
        exact absurd (hleft x (by rw [hnil]; rfl)) hx

/-- **The pieces outside strings** are all found. -/
theorem mem_unquoted_iff {m : Text} : u ∈ unquoted m ↔
    u.chars ≠ [] ∧ ∃ p r, m = p ++ (u.chars ++ r) ∧ u.offset = p.size ∧ IsPiece p u.chars r := by
  constructor
  · intro hu
    have hstart : Collected [] [] none := ⟨[], rfl, rfl, by simp, by simp⟩
    exact isPiece_of_mem_unquotedFrom hstart rfl hu
  · rintro ⟨hne, p, r, rfl, hoffset, hpiece⟩
    have h := mem_unquotedFrom_of_plain 0 [] hpiece.outside (fun _ => rfl)
      hpiece.left hpiece.plain hne hpiece.right
    rw [Nat.zero_add, ← hoffset] at h
    exact h

/-! ### Names -/

/-- A name of a variable. -/
def IsName (w : Text) : Prop :=
  ∃ x s, w = x :: s ∧ isNameStart x = true ∧ ∀ y ∈ s, isNameChar y = true

theorem isFilterChar_of_isNameStart {x : Char} (h : isNameStart x = true) :
    isFilterChar x = true := by
  unfold isNameStart at h
  unfold isFilterChar Char.isAlphanum
  rcases Bool.or_eq_true_iff.1 h with h | h <;> simp [h]

theorem isNameChar_of_isNameStart {x : Char} (h : isNameStart x = true) : isNameChar x = true := by
  show (isFilterChar x || x == '-') = true
  rw [isFilterChar_of_isNameStart h, Bool.true_or]

/-- A character of a kind that no quote is of is no quote. -/
theorem not_isQuote_of_kind {kind : Char → Bool} (hkind : kind '\'' = false ∧ kind '"' = false)
    {x : Char} (h : kind x = true) : isQuote x = false := by
  rw [Bool.eq_false_iff]
  intro hquote
  simp only [isQuote, Bool.or_eq_true, beq_iff_eq] at hquote
  rcases hquote with rfl | rfl
  · rw [hkind.1] at h
    cases h
  · rw [hkind.2] at h
    cases h

namespace IsName

variable {w s : Text} {x : Char}

theorem isNameChar (h : IsName w) : ∀ y ∈ w, isNameChar y = true := by
  obtain ⟨x, s, rfl, hx, hs⟩ := h
  exact List.forall_mem_cons.2 ⟨isNameChar_of_isNameStart hx, hs⟩

theorem append (h : IsName w) (hs : ∀ y ∈ s, Liquid.isNameChar y = true) : IsName (w ++ s) := by
  obtain ⟨x, w, rfl, hx, hw⟩ := h
  exact ⟨x, w ++ s, rfl, hx, List.forall_mem_append.2 ⟨hw, hs⟩⟩

/-- The start of a name is a name. -/
theorem of_append (h : IsName (w ++ s)) (hw : w ≠ []) : IsName w := by
  obtain ⟨x, w, rfl⟩ := List.exists_cons_of_ne_nil hw
  obtain ⟨y, r, hr, hy, hmem⟩ := h
  obtain ⟨rfl, rfl⟩ := List.cons.inj hr
  exact ⟨x, w, rfl, hy, fun z hz => hmem z (List.mem_append_left _ hz)⟩

theorem not_isQuote (h : IsName w) : ∀ y ∈ w, isQuote y = false := fun y hy =>
  not_isQuote_of_kind ⟨rfl, rfl⟩ (h.isNameChar y hy)

end IsName

/-- No name is going on at the end of a text. -/
def Idle (pre : Text) : Prop := ∀ w, w <:+ pre → ¬ IsName w

theorem not_isName_nil : ¬ IsName [] := by
  rintro ⟨x, s, h, -⟩
  cases h

theorem idle_nil : Idle [] := by
  intro w hw
  rw [List.suffix_nil.1 hw]
  exact not_isName_nil

/-- A character that starts no name does not start one. -/
theorem Idle.concat {x : Char} (h : Idle pre) (hx : isNameStart x = false) : Idle (pre ++ [x]) := by
  intro w hw hname
  rcases List.suffix_concat_iff.1 hw with rfl | ⟨s, rfl, hs⟩
  · exact not_isName_nil hname
  · by_cases hnil : s = []
    · subst hnil
      obtain ⟨y, r, hr, hy, -⟩ := hname
      rw [← (List.cons.inj hr).1, hx] at hy
      cases hy
    · exact h s hs (hname.of_append hnil)

/-- A character that cannot be part of a name ends it. -/
theorem idle_concat {x : Char} (hx : isNameChar x = false) : Idle (pre ++ [x]) := by
  intro w hw hname
  rcases List.suffix_concat_iff.1 hw with rfl | ⟨s, rfl, -⟩
  · exact not_isName_nil hname
  · have hmem := hname.isNameChar x (by simp)
    rw [hx] at hmem
    cases hmem

/-- A name goes on with every character that can be part of it. -/
theorem not_idle_concat {x : Char} (h : ¬ Idle pre) (hx : isNameChar x = true) :
    ¬ Idle (pre ++ [x]) := by
  intro hidle
  refine h fun w hw hname => hidle (w ++ [x]) ?_ (hname.append (by simpa using hx))
  exact List.suffix_concat_iff.2 (.inr ⟨w, rfl, hw⟩)

theorem not_idle_start {x : Char} (hx : isNameStart x = true) : ¬ Idle (pre ++ [x]) := fun h =>
  h [x] (List.suffix_append pre [x]) ⟨x, [], rfl, hx, by simp⟩

/-! ### Words of a piece -/

/-- The splits of a text are the one before its first character and those of the rest. -/
theorem exists_split_cons {P : Text → Text → Prop} {x : Char} :
    (∃ p r, x :: t = p ++ r ∧ P p r) ↔ P [] (x :: t) ∨ ∃ p r, t = p ++ r ∧ P (x :: p) r := by
  constructor
  · rintro ⟨p, r, h, hP⟩
    cases p with
    | nil =>
      obtain rfl : x :: t = r := h
      exact .inl hP
    | cons y p =>
      obtain ⟨rfl, rfl⟩ := List.cons.inj h
      exact .inr ⟨p, r, rfl, hP⟩
  · rintro (hP | ⟨p, r, rfl, hP⟩)
    · exact ⟨[], x :: t, rfl, hP⟩
    · exact ⟨x :: p, r, rfl, hP⟩

/-- A word that starts after `pre`, at the start of `r`. -/
def wordAt (offset : Nat) (pre r : Text) : Word :=
  ⟨offset, pre.getLast? == some '.', (r.takeWhile isNameChar).reverse⟩

/-- A name starts after `pre`, and yields a variable. -/
structure Yields (filterOffsets : List Nat) (offset : Nat) (name : String) (pre r : Text) : Prop where
  idle : Idle pre
  start : ∃ x s, r = x :: s ∧ isNameStart x = true
  mem : name ∈ (wordAt offset pre r).lookup filterOffsets (r.dropWhile isNameChar)

/-- The name that starts after `pre` reaches as far as it can. -/
theorem Yields.exists_name {filterOffsets : List Nat} {name : String}
    (h : Yields filterOffsets offset name pre t) : ∃ w s, t = w ++ s ∧ IsName w ∧
      ∀ x ∈ s.head?, isNameChar x = false := by
  obtain ⟨x, s, rfl, hx⟩ := h.start
  refine ⟨x :: s.takeWhile isNameChar, s.dropWhile isNameChar, ?_, ?_, fun y hy => ?_⟩
  · rw [List.cons_append, List.takeWhile_append_dropWhile]
  · exact ⟨x, _, rfl, hx, fun y hy => List.mem_takeWhile_imp hy⟩
  · have hnot := List.head?_dropWhile_not isNameChar s
    rw [hy] at hnot
    exact hnot

/-- **What is found in a piece**, when no name is going on and when one is. -/
theorem mem_lookupsFrom (filterOffsets : List Nat) (name : String) (t : Text) :
    (∀ pre offset, Idle pre →
      (name ∈ lookupsFrom filterOffsets offset pre.getLast? none t ↔
        ∃ p r, t = p ++ r ∧ Yields filterOffsets (offset + Text.size p) name (pre ++ p) r)) ∧
    ∀ pre offset w, ¬ Idle pre →
      (name ∈ lookupsFrom filterOffsets offset pre.getLast? (some w) t ↔
        name ∈ Word.lookup { w with chars := (t.takeWhile isNameChar).reverse ++ w.chars }
          filterOffsets (t.dropWhile isNameChar) ∨
        ∃ p r, t = p ++ r ∧ Yields filterOffsets (offset + Text.size p) name (pre ++ p) r) := by
  -- the two states of the scan are proved together, as each continues in the other: between words
  -- the word may start here, inside one it ends at the first other character
  induction t with
  | nil =>
    have hnone (pre : Text) (offset : Nat) :
        ¬ ∃ p r, [] = p ++ r ∧ Yields filterOffsets (offset + Text.size p) name (pre ++ p) r := by
      rintro ⟨p, r, h, hyields⟩
      obtain ⟨-, rfl⟩ := List.append_eq_nil_iff.1 h.symm
      obtain ⟨x, s, hr, -⟩ := hyields.start
      cases hr
    refine ⟨fun pre offset _ => iff_of_false List.not_mem_nil (hnone pre offset), ?_⟩
    intro pre offset w _
    exact (or_iff_left (hnone pre offset)).symm
  | cons x t ih =>
    have hsplit (pre : Text) (offset : Nat) :
        (∃ p r, x :: t = p ++ r ∧ Yields filterOffsets (offset + Text.size p) name (pre ++ p) r) ↔
          Yields filterOffsets offset name pre (x :: t) ∨ ∃ p r, t = p ++ r ∧
            Yields filterOffsets (offset + x.utf8Size + Text.size p) name (pre ++ [x] ++ p) r := by
      rw [exists_split_cons]
      simp only [Text.size_nil, Nat.add_zero, List.append_nil, Text.size_cons, Nat.add_assoc,
        List.append_assoc, List.singleton_append]
    have hlast (pre : Text) : some x = (pre ++ [x]).getLast? := List.getLast?_concat.symm
    constructor
    · intro pre offset hidle
      rw [hsplit, lookupsFrom]
      by_cases hx : isNameStart x = true
      · -- a name character starts a word here, and the scan goes on inside it
        have hfirst : name ∈ (wordAt offset pre (x :: t)).lookup filterOffsets
            ((x :: t).dropWhile isNameChar) ↔ Yields filterOffsets offset name pre (x :: t) :=
          ⟨fun h => ⟨hidle, ⟨x, t, rfl, hx⟩, h⟩, fun h => h.mem⟩
        have hchar := isNameChar_of_isNameStart hx
        rw [← hfirst, wordAt, List.takeWhile_cons_of_pos hchar, List.dropWhile_cons_of_pos hchar,
          List.reverse_cons, if_pos hx, hlast pre]
        exact ih.2 (pre ++ [x]) _ _ (not_idle_start hx)
      · have hfirst : ¬ Yields filterOffsets offset name pre (x :: t) := fun h => by
          obtain ⟨y, s, hy, hstart⟩ := h.start
          exact hx ((List.cons.inj hy).1 ▸ hstart)
        rw [or_iff_right hfirst, if_neg hx, hlast pre]
        exact ih.1 (pre ++ [x]) _ (hidle.concat (Bool.eq_false_iff.2 hx))
    · intro pre offset w hidle
      -- inside a word no other word can start
      have hfirst : ¬ Yields filterOffsets offset name pre (x :: t) := fun h => hidle h.idle
      rw [hsplit, or_iff_right hfirst, lookupsFrom]
      split
      · next hx =>
        rw [List.takeWhile_cons_of_pos hx, List.dropWhile_cons_of_pos hx, List.reverse_cons,
          List.append_assoc, hlast pre]
        exact ih.2 (pre ++ [x]) _ _ (not_idle_concat hidle hx)
      · next hx =>
        rw [List.takeWhile_cons_of_neg hx, List.dropWhile_cons_of_neg hx, List.mem_append, hlast pre]
        exact or_congr_right (ih.1 (pre ++ [x]) _ (idle_concat (Bool.eq_false_iff.2 hx)))

/-! ### Filters -/

theorem not_isBlank_of_isFilterChar {x : Char} (h : isFilterChar x = true) : isBlank x = false := by
  have hrange : 48 ≤ x.toNat ∧ x.toNat ≤ 122 := by
    unfold isFilterChar Char.isAlphanum Char.isAlpha at h
    simp only [Bool.or_eq_true, beq_iff_eq] at h
    rcases h with ((h | h) | h) | rfl
    · have h' : 65 ≤ x.toNat ∧ x.toNat ≤ 90 := of_decide_eq_true h
      omega
    · have h' : (decide (97 ≤ x.toNat) && decide (x.toNat ≤ 122)) = true := h
      simp only [Bool.and_eq_true, decide_eq_true_eq] at h'
      omega
    · have h' : (decide (48 ≤ x.toNat) && decide (x.toNat ≤ 57)) = true := h
      simp only [Bool.and_eq_true, decide_eq_true_eq] at h'
      omega
    · decide
  simp only [isBlank, Bool.or_eq_false_iff, Bool.and_eq_false_iff, decide_eq_false_iff_not,
    beq_eq_false_iff_ne]
  omega

/-- Behind a bar, the blanks `g` and the filter name `w`, with which `s` does not go on. -/
structure IsFilter (g w s : Text) : Prop where
  blank : ∀ y ∈ g, isBlank y = true
  ne_nil : w ≠ []
  chars : ∀ y ∈ w, isFilterChar y = true
  whole : ∀ y ∈ s.head?, isFilterChar y = false

/-- The text starts with a bar and blanks, `width` bytes of them, and then the filter name `w`. -/
def NameAhead (r w : Text) (width : Nat) : Prop :=
  ∃ g s, r = '|' :: (g ++ (w ++ s)) ∧ IsFilter g w s ∧ width = 1 + Text.size g

theorem IsFilter.takeWhile_eq (h : IsFilter g w s) :
    (g ++ (w ++ s)).takeWhile isBlank = g ∧
      ((g ++ (w ++ s)).dropWhile isBlank).takeWhile isFilterChar = w := by
  obtain ⟨y, w, rfl⟩ := List.exists_cons_of_ne_nil h.ne_nil
  have hy : ¬ isBlank y = true :=
    Bool.eq_false_iff.1 (not_isBlank_of_isFilterChar (h.chars y List.mem_cons_self))
  have hs : s.takeWhile isFilterChar = [] := by
    cases s with
    | nil => rfl
    | cons z s => exact List.takeWhile_cons_of_neg (by simp [h.whole z rfl])
  rw [List.takeWhile_append_of_pos h.blank, List.dropWhile_append_of_pos h.blank, List.cons_append,
    List.takeWhile_cons_of_neg hy, List.dropWhile_cons_of_neg hy, ← List.cons_append,
    List.takeWhile_append_of_pos h.chars, hs, List.append_nil, List.append_nil]
  exact ⟨rfl, rfl⟩

/-- A filter name reaches as far as it can. -/
theorem isFilter_of_takeWhile (hg : ∀ y ∈ g, isBlank y = true) (h : t.takeWhile isFilterChar ≠ []) :
    IsFilter g (t.takeWhile isFilterChar) (t.dropWhile isFilterChar) := by
  refine ⟨hg, h, fun y hy => List.mem_takeWhile_imp hy, fun y hy => ?_⟩
  have hnot := List.head?_dropWhile_not isFilterChar t
  rw [hy] at hnot
  exact hnot

theorem nameAhead_bar_iff {width : Nat} : NameAhead ('|' :: t) w width ↔
    (t.dropWhile isBlank).takeWhile isFilterChar = w ∧ w ≠ [] ∧
      width = 1 + Text.size (t.takeWhile isBlank) := by
  constructor
  · rintro ⟨g, s, h, hfilter, rfl⟩
    obtain rfl := (List.cons.inj h).2
    obtain ⟨hgap, hname⟩ := hfilter.takeWhile_eq
    exact ⟨hname, hfilter.ne_nil, by rw [hgap]⟩
  · rintro ⟨rfl, hne, rfl⟩
    refine ⟨_, _, ?_, isFilter_of_takeWhile (fun y hy => List.mem_takeWhile_imp hy) hne, rfl⟩
    rw [List.takeWhile_append_dropWhile, List.takeWhile_append_dropWhile]

/-- **The filters of a piece** are the names behind its bars. -/
theorem mem_filtersFrom {f : Found} : f ∈ filtersFrom offset t ↔
    ∃ p r, t = p ++ r ∧ ∃ width, NameAhead r f.name.toList width ∧
      f.offset = offset + Text.size p + width := by
  induction t generalizing offset with
  | nil =>
    refine iff_of_false List.not_mem_nil ?_
    rintro ⟨p, r, h, width, ⟨g, s, rfl, -⟩, -⟩
    simp at h
  | cons x t ih =>
    -- a split of `x :: t` either takes nothing, or takes `x`
    have hlater : f ∈ filtersFrom (offset + x.utf8Size) t ↔ ∃ p r, t = p ++ r ∧
        ∃ width, NameAhead r f.name.toList width ∧
          f.offset = offset + Text.size (x :: p) + width := by
      simp only [ih, Text.size_cons, Nat.add_assoc]
    rw [exists_split_cons, ← hlater, filtersFrom]
    dsimp only
    split
    · next hbar =>
      subst hbar
      simp only [nameAhead_bar_iff]
      split
      · next hname =>
        refine (or_iff_right ?_).symm
        rintro ⟨width, ⟨hname', hne, -⟩, -⟩
        rw [List.isEmpty_iff.1 hname] at hname'
        exact hne hname'.symm
      · next hname =>
        rw [List.mem_cons]
        refine or_congr_left ⟨?_, ?_⟩
        · -- the filter found here has the name and the place the scan computed
          rintro rfl
          refine ⟨_, ⟨String.toList_ofList.symm, ?_, rfl⟩, Nat.add_assoc ..⟩
          rw [String.toList_ofList]
          exact fun h => hname (List.isEmpty_iff.2 h)
        · rintro ⟨width, ⟨hname', -, rfl⟩, hoffset⟩
          obtain ⟨place, name⟩ := f
          rw [hname', String.ofList_toList, Nat.add_assoc]
          exact congrArg (Found.mk · name) hoffset
    · next hbar =>
      refine (or_iff_right ?_).symm
      rintro ⟨width, ⟨g, s, h, -⟩, -⟩
      exact hbar (List.cons.inj h).1

/-! ### Ends of pieces -/

/-- A part without quotes at the end of markup reaches back to the last string at most. -/
theorem suffix_append_iff {w : Text} (hp : ∀ x ∈ p.getLast?, isQuote x = true)
    (hw : ∀ x ∈ w, isQuote x = false) : w <:+ p ++ t ↔ w <:+ t := by
  constructor
  · rintro ⟨s, hs⟩
    rcases List.append_eq_append_iff.1 hs with ⟨m, rfl, rfl⟩ | ⟨m, rfl, rfl⟩
    · -- the part that reaches into `p` would end with a quote
      cases hm : m.getLast? with
      | none =>
        rw [List.getLast?_eq_none_iff.1 hm]
        exact List.suffix_refl t
      | some x =>
        have hx : isQuote x = true := hp x (by rw [List.getLast?_append, hm]; rfl)
        rw [hw x (List.mem_append_left _ (List.mem_of_getLast? hm))] at hx
        cases hx
    · exact List.suffix_append m w
  · exact fun h => h.trans (List.suffix_append p t)

/-- Markup outside strings ends with a part without quotes, back to the last string. -/
theorem exists_append_plain (pre : Text) : ∃ p s, pre = p ++ s ∧
    (∀ x ∈ p.getLast?, isQuote x = true) ∧ ∀ x ∈ s, isQuote x = false := by
  refine ⟨pre.rdropWhile (!isQuote ·), pre.rtakeWhile (!isQuote ·),
    List.rdropWhile_append_rtakeWhile.symm, fun x hx => ?_, fun x hx => ?_⟩
  · obtain ⟨hne, rfl⟩ := List.mem_getLast?_eq_getLast hx
    simpa using List.rdropWhile_last_not (!isQuote ·) pre hne
  · simpa using List.mem_rtakeWhile_imp hx

/-- A word outside strings lies in a piece. -/
theorem exists_isPiece {w : Text} (post : Text) (houtside : quoteAfter none pre = none)
    (hw : ∀ x ∈ w, isQuote x = false) : ∃ p s s' r, pre = p ++ s ∧ post = s' ++ r ∧
      IsPiece p (s ++ (w ++ s')) r := by
  obtain ⟨p, s, rfl, hp, hs⟩ := exists_append_plain pre
  refine ⟨p, s, post.takeWhile (!isQuote ·), post.dropWhile (!isQuote ·), rfl,
    List.takeWhile_append_dropWhile.symm, ?_, hp, ?_, ?_⟩
  · rw [quoteAfter_append, quoteAfter_word hs (isQuote_quoteAfter (by simp) p)] at houtside
    exact houtside
  · simp only [List.forall_mem_append]
    exact ⟨hs, hw, fun x hx => by simpa using List.mem_takeWhile_imp hx⟩
  · intro x hx
    have hnot := List.head?_dropWhile_not (!isQuote ·) post
    rw [hx] at hnot
    simpa using hnot

/-- **The filters of markup** are the names behind bars outside strings. -/
theorem mem_filters {m : Text} {f : Found} : f ∈ filters m ↔
    ∃ pre r, m = pre ++ r ∧ quoteAfter none pre = none ∧
      ∃ width, NameAhead r f.name.toList width ∧ f.offset = pre.size + width := by
  rw [filters, List.mem_flatMap]
  constructor
  · rintro ⟨u, hu, hf⟩
    obtain ⟨-, p, r, rfl, hoffset, hpiece⟩ := mem_unquoted_iff.1 hu
    obtain ⟨a, b, hchars, width, ⟨g, s, rfl, hfilter, hwidth⟩, hplace⟩ := mem_filtersFrom.1 hf
    have hplain : ∀ x ∈ a, isQuote x = false := fun x hx =>
      hpiece.plain x (by rw [hchars]; exact List.mem_append_left _ hx)
    have houtside : quoteAfter none (p ++ a) = none := by
      rw [quoteAfter_append, hpiece.outside]
      exact quoteAfter_word hplain (by simp)
    -- the name ends before the string that follows the piece
    have hwhole : ∀ x ∈ (s ++ r).head?, isFilterChar x = false := by
      cases s with
      | nil =>
        intro x hx
        rw [Bool.eq_false_iff]
        intro hchar
        have hquote := hpiece.right x hx
        rw [not_isQuote_of_kind ⟨rfl, rfl⟩ hchar] at hquote
        cases hquote
      | cons y s => exact hfilter.whole
    refine ⟨p ++ a, '|' :: (g ++ (f.name.toList ++ (s ++ r))), by simp [hchars], houtside, width,
      ⟨g, s ++ r, rfl, ⟨hfilter.blank, hfilter.ne_nil, hfilter.chars, hwhole⟩, hwidth⟩, ?_⟩
    rw [hplace, hoffset, Text.size_append]
  · rintro ⟨pre, _, rfl, houtside, width, ⟨g, s, rfl, hfilter, hwidth⟩, hplace⟩
    have hplain : ∀ x ∈ '|' :: (g ++ f.name.toList), isQuote x = false :=
      List.forall_mem_cons.2 ⟨rfl, List.forall_mem_append.2
        ⟨fun x hx => not_isQuote_of_kind ⟨rfl, rfl⟩ (hfilter.blank x hx),
          fun x hx => not_isQuote_of_kind ⟨rfl, rfl⟩ (hfilter.chars x hx)⟩⟩
    obtain ⟨p, a, s', r, rfl, rfl, hpiece⟩ := exists_isPiece s houtside hplain
    have hwhole : ∀ x ∈ s'.head?, isFilterChar x = false := fun x hx =>
      hfilter.whole x (by rw [List.head?_append, hx]; rfl)
    refine ⟨⟨p.size, a ++ ('|' :: (g ++ f.name.toList) ++ s')⟩, mem_unquoted_iff.2 ⟨by simp, p, r,
      by simp, rfl, hpiece⟩, mem_filtersFrom.2 ⟨a, '|' :: (g ++ (f.name.toList ++ s')), by simp,
      width, ⟨g, s', rfl, ⟨hfilter.blank, hfilter.ne_nil, hfilter.chars, hwhole⟩, hwidth⟩, ?_⟩⟩
    rw [hplace, Text.size_append]

/-- **Where filters start**: after a bar and blanks. -/
theorem mem_filters_iff {x : Char} {s : Text} (houtside : quoteAfter none pre = none)
    (hx : isFilterChar x = true) : pre.size ∈ (filters (pre ++ x :: s)).map (·.offset) ↔
      ∃ g, (∀ y ∈ g, isBlank y = true) ∧ '|' :: g <:+ pre := by
  rw [List.mem_map]
  constructor
  · rintro ⟨f, hf, hplace⟩
    obtain ⟨p, _, hm, -, width, ⟨g, r, rfl, hfilter, rfl⟩, hoffset⟩ := mem_filters.1 hf
    -- the found filter starts where `pre` ends, so its bar and gap are the end of `pre`
    have hsplit : (p ++ '|' :: g) ++ (f.name.toList ++ r) = pre ++ x :: s := by
      rw [hm]
      simp
    have hsize : Text.size (p ++ '|' :: g) = pre.size := by
      rw [← hplace, hoffset, Text.size_append, Text.size_cons]
      rfl
    obtain ⟨m, hpre, -⟩ := Text.exists_append_of_size_le hsplit hsize.le
    have hnil : m = [] := by
      have hsize' := congrArg Text.size hpre
      rw [Text.size_append] at hsize'
      exact Text.eq_nil_of_size (by omega)
    refine ⟨g, hfilter.blank, p, ?_⟩
    rw [hpre, hnil, List.append_nil]
  · rintro ⟨g, hg, p, rfl⟩
    -- conversely the bar stands outside every string, as its gap holds no quote
    have hbar : ∀ y ∈ '|' :: g, isQuote y = false :=
      List.forall_mem_cons.2 ⟨rfl, fun y hy => not_isQuote_of_kind ⟨rfl, rfl⟩ (hg y hy)⟩
    have hstart : quoteAfter none p = none := by
      rw [quoteAfter_append, quoteAfter_word hbar (isQuote_quoteAfter (by simp) p)] at houtside
      exact houtside
    have hname : (x :: s).takeWhile isFilterChar ≠ [] := by
      rw [List.takeWhile_cons_of_pos hx]
      exact List.cons_ne_nil _ _
    have hfilter : IsFilter g ((x :: s).takeWhile isFilterChar) ((x :: s).dropWhile isFilterChar) :=
      isFilter_of_takeWhile hg hname
    rw [← String.toList_ofList (l := (x :: s).takeWhile isFilterChar)] at hfilter
    refine ⟨⟨_, String.ofList ((x :: s).takeWhile isFilterChar)⟩, mem_filters.2 ⟨p,
      '|' :: (g ++ x :: s), by simp, hstart, _, ⟨g, (x :: s).dropWhile isFilterChar, ?_, hfilter,
      rfl⟩, rfl⟩, ?_⟩
    · rw [String.toList_ofList, List.takeWhile_append_dropWhile]
    · rw [Text.size_append, Text.size_cons]
      rfl

/-! ### Variables -/

/-- In the markup `pre ++ (w ++ post)` the word `w` is read as a variable: it stands outside strings,
it is a name and not a part of a longer one, and it is no property behind a dot (of which a range has
two), no filter behind a bar, and no key of an argument before a colon. -/
structure Reads (pre w post : Text) : Prop where
  outside : quoteAfter none pre = none
  name : IsName w
  whole : ∀ a b, a <:+ pre → b <+: post → IsName (a ++ (w ++ b)) → a = [] ∧ b = []
  property : ['.'] <:+ pre → ['.', '.'] <:+ pre
  filter : ∀ g, (∀ y ∈ g, isBlank y = true) → ¬ '|' :: g <:+ pre
  key : post.trimStart.head? ≠ some ':'

/-- A name is not part of a longer one when none is going on before it, and what follows cannot be
part of it. -/
theorem whole_iff {w post : Text} (hw : IsName w) :
    (∀ a b, a <:+ pre → b <+: post → IsName (a ++ (w ++ b)) → a = [] ∧ b = []) ↔
      Idle pre ∧ ∀ x ∈ post.head?, isNameChar x = false := by
  constructor
  · intro h
    constructor
    · -- a name at the end of `pre` would make a longer name with `w`
      intro a ha hname
      have hlonger : IsName (a ++ (w ++ [])) := hname.append (by simpa using hw.isNameChar)
      rw [(h a [] ha (List.nil_prefix) hlonger).1] at hname
      exact not_isName_nil hname
    · intro x hx
      rw [Bool.eq_false_iff]
      intro hchar
      obtain ⟨post, rfl⟩ : ∃ s, post = x :: s := by
        cases post with
        | nil => cases hx
        | cons y s => exact ⟨s, by rw [Option.some.inj hx]⟩
      have hlonger : IsName ([] ++ (w ++ [x])) := hw.append (by simpa using hchar)
      cases (h [] [x] (List.nil_suffix) (by simp) hlonger).2
  · rintro ⟨hidle, hpost⟩ a b ha hb hname
    -- what stands before `w` in the longer name is a name at the end of `pre`
    have hnil : a = [] := by
      by_contra hne
      exact hidle a ha (hname.of_append hne)
    subst hnil
    refine ⟨rfl, ?_⟩
    cases b with
    | nil => rfl
    | cons x b =>
      obtain ⟨s, rfl⟩ := hb
      have hchar := hname.isNameChar x (by simp)
      rw [hpost x rfl] at hchar
      cases hchar

theorem mem_lookup_iff {w : Word} {filterOffsets : List Nat} {rest : Text} {name : String} :
    name ∈ w.lookup filterOffsets rest ↔ w.afterDot = false ∧ rest.trimStart.head? ≠ some ':' ∧
      name ∉ keywords ∧ w.offset ∉ filterOffsets ∧ name = String.ofList w.chars.reverse := by
  unfold Word.lookup
  dsimp only
  split
  · next h =>
    refine iff_of_false List.not_mem_nil ?_
    rintro ⟨hdot, hkey, hkeyword, hfilter, rfl⟩
    simp_all
  · next h =>
    simp only [Bool.not_eq_true, Bool.or_eq_false_iff] at h
    obtain ⟨⟨⟨hdot, hkey⟩, hkeyword⟩, hfilter⟩ := h
    rw [List.mem_singleton]
    constructor
    · rintro rfl
      exact ⟨hdot, by simpa using hkey, by simpa using hkeyword, by simpa using hfilter, rfl⟩
    · exact fun h => h.2.2.2.2

/-- What follows a piece does not matter for a colon ahead. -/
theorem head?_trimStart_append (hr : ∀ x ∈ r.head?, isQuote x = true) (t : Text) :
    (t ++ r).trimStart.head? = some ':' ↔ t.trimStart.head? = some ':' := by
  induction t with
  -- the text in front is blank, and the character after it is a quote, not a colon
  | nil =>
    refine iff_of_false ?_ (fun h => nomatch h)
    cases r with
    | nil => exact fun h => nomatch h
    | cons x r =>
      have hx := hr x rfl
      have hblank : ¬ isBlank x = true := fun h => by
        rw [not_isQuote_of_kind ⟨rfl, rfl⟩ h] at hx
        cases hx
      rw [List.nil_append, Text.trimStart, Text.trimStartBy, List.dropWhile_cons_of_neg hblank]
      rintro h
      rw [Option.some.inj h] at hx
      cases hx
  | cons x t ih =>
    by_cases hx : isBlank x = true
    · simpa [Text.trimStart, Text.trimStartBy, hx] using ih
    · simp [Text.trimStart, Text.trimStartBy, hx]

theorem singleton_suffix_iff {x : Char} : [x] <:+ t ↔ t.getLast? = some x := by
  rw [List.getLast?_eq_some_iff]
  exact exists_congr fun _ => eq_comm

/-- **A word of a piece** yields a variable when it is read, is no keyword and stands after no dot. -/
theorem yields_iff {s w s' : Text} {name : String} (hpiece : IsPiece p (s ++ (w ++ s')) r)
    (hw : IsName w) (hs' : ∀ x ∈ s'.head?, isNameChar x = false) :
    Yields ((filters (p ++ s ++ (w ++ (s' ++ r)))).map (·.offset)) (p.size + Text.size s) name s
        (w ++ s') ↔
      name ∉ keywords ∧ name.toList = w ∧ Reads (p ++ s) w (s' ++ r) ∧ ¬ ['.'] <:+ p ++ s := by
  have hplain : ∀ x ∈ s, isQuote x = false := fun x hx => hpiece.plain x (List.mem_append_left _ hx)
  have houtside : quoteAfter none (p ++ s) = none := by
    rw [quoteAfter_append, hpiece.outside]
    exact quoteAfter_word hplain (by simp)
  -- the word ends where the name ends
  have hpost : ∀ x ∈ (s' ++ r).head?, isNameChar x = false := by
    cases s' with
    | nil =>
      intro x hx
      rw [Bool.eq_false_iff]
      intro hchar
      have hquote := hpiece.right x hx
      rw [not_isQuote_of_kind ⟨rfl, rfl⟩ hchar] at hquote
      cases hquote
    | cons y s' => exact hs'
  have htake : (w ++ s').takeWhile isNameChar = w := by
    rw [List.takeWhile_append_of_pos hw.isNameChar]
    cases s' with
    | nil => simp
    | cons y s' => rw [List.takeWhile_cons_of_neg (by simp [hs' y rfl]), List.append_nil]
  have hdrop : (w ++ s').dropWhile isNameChar = s' := by
    rw [List.dropWhile_append_of_pos hw.isNameChar]
    cases s' with
    | nil => rfl
    | cons y s' => rw [List.dropWhile_cons_of_neg (by simp [hs' y rfl])]
  -- what stands before the word in its piece is all that matters
  have hidle : Idle (p ++ s) ↔ Idle s := by
    refine forall_congr' fun v => ⟨fun h hv hname => ?_, fun h hv hname => ?_⟩
    · exact h ((suffix_append_iff hpiece.left hname.not_isQuote).2 hv) hname
    · exact h ((suffix_append_iff hpiece.left hname.not_isQuote).1 hv) hname
  have hdot : ['.'] <:+ p ++ s ↔ s.getLast? = some '.' :=
    (suffix_append_iff hpiece.left (by simp [isQuote])).trans singleton_suffix_iff
  have hfilter : p.size + Text.size s ∈ (filters (p ++ s ++ (w ++ (s' ++ r)))).map (·.offset) ↔
      ∃ g, (∀ y ∈ g, isBlank y = true) ∧ '|' :: g <:+ p ++ s := by
    obtain ⟨x, v, rfl, hx, -⟩ := hw
    rw [← Text.size_append]
    exact mem_filters_iff houtside (isFilterChar_of_isNameStart hx)
  have hkey := head?_trimStart_append hpiece.right s'
  constructor
  · rintro ⟨hstart, -, hmem⟩
    rw [mem_lookup_iff, wordAt, htake, hdrop, List.reverse_reverse] at hmem
    obtain ⟨hafter, hcolon, hkeyword, hfilters, rfl⟩ := hmem
    have hnodot : ¬ ['.'] <:+ p ++ s := by
      rw [hdot]
      simpa using hafter
    refine ⟨hkeyword, String.toList_ofList, ⟨houtside, hw, (whole_iff hw).2 ⟨hidle.2 hstart, hpost⟩,
      fun h => absurd h hnodot, fun g hg hbar => hfilters (hfilter.2 ⟨g, hg, hbar⟩),
      fun h => hcolon (hkey.1 h)⟩, hnodot⟩
  · rintro ⟨hkeyword, hname, hreads, hnodot⟩
    obtain ⟨x, v, hx, hstart, -⟩ := id hw
    refine ⟨hidle.1 ((whole_iff hw).1 hreads.whole).1, ⟨x, v ++ s', by rw [hx]; rfl, hstart⟩, ?_⟩
    rw [mem_lookup_iff, wordAt, htake, hdrop, List.reverse_reverse, ← hname, String.ofList_toList]
    refine ⟨?_, fun h => hreads.key (hkey.2 h), hkeyword, fun h => ?_, rfl⟩
    · rw [hdot] at hnodot
      simpa using hnodot
    · rw [hname] at h
      obtain ⟨g, hg, hbar⟩ := hfilter.1 h
      exact hreads.filter g hg hbar

/-- **The variables that are looked up** are those that are read, but for keywords and for words right
after a dot. -/
theorem mem_lookups_iff {m : Text} {name : String} : name ∈ lookups m ↔
    name ∉ keywords ∧ ∃ pre post, m = pre ++ (name.toList ++ post) ∧ Reads pre name.toList post ∧
      ¬ ['.'] <:+ pre := by
  have hmem : name ∈ lookups m ↔ ∃ u ∈ unquoted m, ∃ s t, u.chars = s ++ t ∧
      Yields ((filters m).map (·.offset)) (u.offset + Text.size s) name s t := by
    rw [lookups]
    simp only [List.mem_flatMap]
    exact exists_congr fun u => and_congr_right fun _ =>
      (mem_lookupsFrom _ name u.chars).1 [] u.offset idle_nil
  rw [hmem]
  constructor
  · rintro ⟨⟨offset, chars⟩, hu, s, t, rfl, hyields⟩
    -- the name found in a piece is read at the same place of the markup
    obtain ⟨-, p, r, hm, rfl, hpiece⟩ := mem_unquoted_iff.1 hu
    obtain ⟨w, s', rfl, hw, hs'⟩ := hyields.exists_name
    have hm : m = p ++ s ++ (w ++ (s' ++ r)) := by simpa using hm
    rw [hm] at hyields ⊢
    obtain ⟨hkeyword, rfl, hreads, hnodot⟩ := (yields_iff hpiece hw hs').1 hyields
    exact ⟨hkeyword, p ++ s, s' ++ r, rfl, hreads, hnodot⟩
  · rintro ⟨hkeyword, pre, post, rfl, hreads, hnodot⟩
    -- the piece around the name is the longest stretch without quotes
    obtain ⟨p, s, s', r, rfl, rfl, hpiece⟩ := exists_isPiece post hreads.outside
      hreads.name.not_isQuote
    have hs' : ∀ x ∈ s'.head?, isNameChar x = false := fun x hx =>
      ((whole_iff hreads.name).1 hreads.whole).2 x (by rw [List.head?_append, hx]; rfl)
    refine ⟨⟨p.size, s ++ (name.toList ++ s')⟩, mem_unquoted_iff.2 ⟨?_, p, r, by simp, rfl, hpiece⟩,
      s, name.toList ++ s', rfl, ?_⟩
    · obtain ⟨x, v, hx, -⟩ := hreads.name
      simp [hx]
    · exact (yields_iff hpiece hreads.name hs').2 ⟨hkeyword, rfl, hreads, hnodot⟩

end LiquidLint.Liquid
