import LiquidLint.Check.Spacing
import LiquidLint.Proofs.Correction.Patch
import LiquidLint.Proofs.Text.Cut
import Mathlib.Data.List.TakeWhile

/-!
# Where spaces are wrong

`Flaw separators p g q` says that in the markup `p ++ (g ++ q)` the part `g` should be one space: it is
empty or several spaces, and it stands after the opening delimiter, before the closing one, or after
a separator outside strings. The checks find exactly the flaws: `mem_checkDelimiters_iff` for the
places next to delimiters and `mem_checkSeparators_iff` for those after separators, so a fault is
known by the characters around it and not by how it was found. Next to delimiters the check first sets
dashes aside; `Dashes` says which these are, and that a flaw stands between them.
-/

namespace LiquidLint.Spacing

open Liquid (isQuote)

/-! ### Flaws -/

/-- White space that should be one space: none, or several spaces. -/
def Uneven (g : Text) : Prop := g = [] ∨ ∃ k, g = List.replicate (k + 2) ' '

/-- The text starts with a character that is not blank. -/
def StartsFilled (t : Text) : Prop := ∃ c r, t = c :: r ∧ isBlank c = false

/-- The text ends with a character that is not blank. -/
def EndsFilled (t : Text) : Prop := ∃ r c, t = r ++ [c] ∧ isBlank c = false

/-- The quote of the string that is open after some markup, when `q` was open before it. -/
def quoteAfter : Option Char → Text → Option Char
  | q, [] => q
  | some q, c :: cs => quoteAfter (if c = q then none else some q) cs
  | none, c :: cs => quoteAfter (if isQuote c then some c else none) cs

/-- Whether a character is a separator. -/
def isSeparator (c : Char) : Bool := c == ',' || c == ':'

/-- In the markup `p ++ (g ++ q)` one space should stand in place of `g`. After separators only if
`separators`. -/
inductive Flaw (separators : Bool) : Text → Text → Text → Prop where
  /-- After the opening delimiter and its dash. -/
  | lead {p g q : Text} : Uneven g → (p = [] ∧ (g ++ q).head? ≠ some '-' ∨ p = ['-']) →
      StartsFilled q → q ≠ ['-'] → Flaw separators p g q
  /-- Before the closing delimiter and its dash. -/
  | trail {p g q : Text} : Uneven g → (q = [] ∧ (p ++ g).getLast? ≠ some '-' ∨ q = ['-']) →
      EndsFilled p → p ≠ ['-'] → Flaw separators p g q
  /-- After a separator outside strings, unless the string or the line goes on. -/
  | separator {p g q : Text} {s c : Char} : separators = true → Uneven g →
      quoteAfter none p = none → isSeparator s = true → isQuote c = false →
      (g = [] → isBlank c = false) → (g ≠ [] → c ≠ ' ' ∧ c ≠ '\n') →
      Flaw separators (p ++ [s]) g (c :: q)

/-- The edit that puts one space in place of white space `g` at `offset`. -/
def amend (offset : Nat) (g : Text) : Correction :=
  if g.isEmpty then .insert offset " " else .replace ⟨offset, offset + g.size⟩ " "

@[simp] theorem range_amend (offset : Nat) (g : Text) :
    (amend offset g).range = ⟨offset, offset + g.size⟩ := by
  cases g <;> rfl

@[simp] theorem text_amend (offset : Nat) (g : Text) : (amend offset g).text = " " := by
  cases g <;> rfl

theorem tidy_amend (offset : Nat) (g : Text) : (amend offset g).Tidy := by
  cases g with
  | nil => exact (by decide : " " ≠ "")
  | cons c g =>
    refine ⟨?_, by decide⟩
    have := Text.size_pos (List.cons_ne_nil c g)
    show offset < offset + Text.size (c :: g)
    omega

/-! ### Gaps -/

theorem size_replicate_space (n : Nat) : Text.size (List.replicate n ' ') = n := by
  induction n with
  | zero => rfl
  | succ n ih =>
    have h1 : (' ' : Char).utf8Size = 1 := rfl
    rw [List.replicate_succ, Text.size_cons, ih, h1, Nat.add_comm]

theorem Uneven.isGap {g : Text} (h : Uneven g) : ∀ c ∈ g, c = ' ' := by
  rcases h with rfl | ⟨k, rfl⟩
  · simp
  · exact fun c hc => List.eq_of_mem_replicate hc

theorem isRepeated_iff {g : Text} : isRepeated g = true ↔ ∃ k, g = List.replicate (k + 2) ' ' := by
  simp only [isRepeated, Bool.and_eq_true, decide_eq_true_eq, List.all_eq_true, beq_iff_eq]
  constructor
  · rintro ⟨hsize, hall⟩
    have hg : g = List.replicate g.length ' ' := List.eq_replicate_iff.2 ⟨rfl, hall⟩
    rw [hg, size_replicate_space] at hsize
    exact ⟨g.length - 2, by rw [show g.length - 2 + 2 = g.length by omega]; exact hg⟩
  · rintro ⟨k, rfl⟩
    refine ⟨by rw [size_replicate_space]; omega, fun c hc => List.eq_of_mem_replicate hc⟩

/-- The edit next to a delimiter. -/
theorem mem_checkGap_iff {offset : Nat} {g : Text} {place : String} {c : Correction} :
    c ∈ (checkGap offset g place).map (·.correction) ↔ Uneven g ∧ c = amend offset g := by
  unfold checkGap
  split
  · rename_i h
    obtain rfl : g = [] := List.isEmpty_iff.1 h
    simp [missing, amend, Uneven]
  · rename_i h
    have hne : g ≠ [] := fun hg => h (List.isEmpty_iff.2 hg)
    have he : g.isEmpty = false := by simpa using h
    split
    · rename_i hr
      simp [tooMany, amend, he, Uneven, isRepeated_iff.1 hr]
    · rename_i hr
      have hno : ¬ ∃ k, g = List.replicate (k + 2) ' ' := fun h => hr (isRepeated_iff.2 h)
      simp [Uneven, hne, hno]

/-- A fault points at the bytes that its edit takes away. -/
theorem span_checkGap {offset : Nat} {g : Text} {place : String} :
    ∀ f ∈ checkGap offset g place, f.span = f.correction.range := by
  unfold checkGap
  split
  · simp [missing, Correction.range]
  · split <;> simp [tooMany, Correction.range]

/-! ### Delimiters -/

/-- What white space is cut off at the start. -/
theorem takeWhile_blank_append {g q : Text} (hg : ∀ c ∈ g, isBlank c = true) (hq : StartsFilled q) :
    (g ++ q).takeWhile isBlank = g := by
  obtain ⟨c, r, rfl, hc⟩ := hq
  rw [List.takeWhile_append_of_pos hg, List.takeWhile_cons_of_neg (by simp [hc]), List.append_nil]

theorem takeWhile_reverse_append {p g : Text} (hg : ∀ c ∈ g, isBlank c = true) (hp : EndsFilled p) :
    ((p ++ g).reverse.takeWhile isBlank).reverse = g := by
  obtain ⟨r, c, rfl, hc⟩ := hp
  have hq : StartsFilled (r ++ [c]).reverse := ⟨c, r.reverse, by simp, hc⟩
  rw [List.reverse_append, takeWhile_blank_append (fun c hc => hg c (List.mem_reverse.1 hc)) hq,
    List.reverse_reverse]

theorem exists_startsFilled {t : Text} (h : t.all isBlank = false) :
    ∃ q, t = t.takeWhile isBlank ++ q ∧ StartsFilled q := by
  refine ⟨t.dropWhile isBlank, List.takeWhile_append_dropWhile.symm, ?_⟩
  cases hd : t.dropWhile isBlank with
  | nil =>
    rw [List.dropWhile_eq_nil_iff] at hd
    rw [List.all_eq_true.2 hd] at h
    cases h
  | cons c r =>
    have := List.head?_dropWhile_not isBlank t
    rw [hd] at this
    exact ⟨c, r, rfl, by simpa using this⟩

theorem exists_endsFilled {t : Text} (h : t.all isBlank = false) :
    ∃ p, t = p ++ (t.reverse.takeWhile isBlank).reverse ∧ EndsFilled p := by
  have hr : t.reverse.all isBlank = false := by rwa [List.all_reverse]
  obtain ⟨q, hq, c, r, hc, hfill⟩ := exists_startsFilled hr
  refine ⟨q.reverse, ?_, r.reverse, c, by rw [hc, List.reverse_cons], hfill⟩
  have := congrArg List.reverse hq
  rwa [List.reverse_reverse, List.reverse_append] at this

theorem all_blank_eq_false {p t q : Text} {c : Char} (ht : t = p ++ c :: q)
    (hc : isBlank c = false) : t.all isBlank = false := by
  rw [ht, List.all_append, List.all_cons, hc, Bool.false_and, Bool.and_false]

/-- `m` is its two dashes with `inner` between them. A dash may be missing, and a single dash is the
first one. -/
structure Dashes (m d inner d' : Text) : Prop where
  eq : m = d ++ (inner ++ d')
  first : d = ['-'] ∨ d = [] ∧ m.head? ≠ some '-'
  last : d' = ['-'] ∨ d' = [] ∧ (m.length ≤ 1 ∨ m.getLast? ≠ some '-')

/-- The faults at the two ends of `inner`, which is at `start`. -/
def gapFaults (start : Nat) (inner : Text) (after before : String) : List Fault :=
  if inner.all isBlank then []
  else
    checkGap start (inner.takeWhile isBlank) after ++
      checkGap (start + inner.size - Text.size (inner.reverse.takeWhile isBlank).reverse)
        (inner.reverse.takeWhile isBlank).reverse before

theorem span_gapFaults {start : Nat} {inner : Text} {after before : String} :
    ∀ f ∈ gapFaults start inner after before, f.span = f.correction.range := by
  unfold gapFaults
  split
  · simp
  · intro f hf
    rcases List.mem_append.1 hf with hf | hf
    · exact span_checkGap f hf
    · exact span_checkGap f hf

/-- The edits between the dashes are at the start and at the end. -/
theorem mem_gapFaults_iff {start : Nat} {inner : Text} {after before : String} {c : Correction} :
    c ∈ (gapFaults start inner after before).map (·.correction) ↔
      (∃ g q, inner = g ++ q ∧ StartsFilled q ∧ Uneven g ∧ c = amend start g) ∨
      ∃ p g, inner = p ++ g ∧ EndsFilled p ∧ Uneven g ∧ c = amend (start + p.size) g := by
  have hblank : ∀ {g}, Uneven g → ∀ x ∈ g, isBlank x = true := by
    intro g hg x hx
    rw [hg.isGap x hx]
    rfl
  unfold gapFaults
  split
  · rename_i hall
    -- all blank: neither form has the filled text it speaks of
    have hno : ∀ {p q x}, inner = p ++ x :: q → isBlank x ≠ false := by
      intro p q x h hx
      rw [all_blank_eq_false h hx] at hall
      cases hall
    refine iff_of_false List.not_mem_nil ?_
    rintro (⟨g, _, h, ⟨x, r, rfl, hx⟩, -⟩ | ⟨_, g, h, ⟨r, x, rfl, hx⟩, -⟩)
    · exact hno h hx
    · rw [List.append_assoc] at h
      exact hno h hx
  · rename_i hall
    have hfill : inner.all isBlank = false := Bool.eq_false_iff.2 hall
    rw [List.map_append, List.mem_append, mem_checkGap_iff, mem_checkGap_iff]
    refine or_congr ⟨?_, ?_⟩ ⟨?_, ?_⟩
    · rintro ⟨hu, hc⟩
      obtain ⟨q, hq, hqf⟩ := exists_startsFilled hfill
      exact ⟨_, q, hq, hqf, hu, hc⟩
    · rintro ⟨g, q, rfl, hqf, hu, hc⟩
      -- the gap of the form is the whole run of blanks, as a filled character ends it
      rw [takeWhile_blank_append (hblank hu) hqf]
      exact ⟨hu, hc⟩
    · rintro ⟨hu, hc⟩
      obtain ⟨p, hp, hpf⟩ := exists_endsFilled hfill
      refine ⟨p, _, hp, hpf, hu, hc.trans ?_⟩
      have hsize := congrArg Text.size hp
      rw [Text.size_append] at hsize
      congr 1
      omega
    · rintro ⟨p, g, rfl, hpf, hu, hc⟩
      rw [takeWhile_reverse_append (hblank hu) hpf, Text.size_append]
      refine ⟨hu, hc.trans ?_⟩
      congr 1
      omega

theorem exists_dashes (m : Text) : ∃ d inner d', Dashes m d inner d' := by
  by_cases hl : m.head? = some '-'
  · obtain ⟨t, rfl⟩ := List.head?_eq_some_iff.1 hl
    by_cases ht : t.getLast? = some '-'
    · obtain ⟨r, rfl⟩ := List.getLast?_eq_some_iff.1 ht
      exact ⟨['-'], r, ['-'], rfl, .inl rfl, .inl rfl⟩
    · refine ⟨['-'], t, [], by simp, .inl rfl, .inr ⟨rfl, ?_⟩⟩
      cases t with
      | nil => exact .inl (Nat.le_refl 1)
      | cons c r => exact .inr (by rwa [List.getLast?_cons_cons])
  · by_cases ht : m.length ≤ 1 ∨ m.getLast? ≠ some '-'
    · exact ⟨[], m, [], by simp, .inr ⟨rfl, hl⟩, .inr ⟨rfl, ht⟩⟩
    · obtain ⟨r, rfl⟩ := List.getLast?_eq_some_iff.1 (not_not.1 (not_or.1 ht).2)
      exact ⟨[], r, ['-'], rfl, .inr ⟨rfl, hl⟩, .inl rfl⟩

namespace Dashes

variable {m d inner d' p g q : Text}

theorem lead_eq (h : Dashes m d inner d') : (m.head? == some '-') = !d.isEmpty := by
  rcases h.first with rfl | ⟨rfl, hh⟩
  · rw [h.eq]
    rfl
  · simpa using hh

theorem trail_eq (h : Dashes m d inner d') :
    (decide (1 < m.length) && m.getLast? == some '-') = !d'.isEmpty := by
  rcases h.last with rfl | ⟨rfl, hh⟩
  · have hlast : m.getLast? = some '-' := by
      rw [h.eq, ← List.append_assoc, List.getLast?_concat]
    -- a dash alone is the first one
    have hlen : 1 < m.length := by
      by_contra hlen
      obtain ⟨r, hr⟩ := List.getLast?_eq_some_iff.1 hlast
      obtain rfl : r = [] := by
        rw [hr, List.length_append, List.length_singleton] at hlen
        exact List.length_eq_zero_iff.1 (by omega)
      rcases h.first with rfl | ⟨-, hh⟩
      · have := hr.symm.trans h.eq
        simp at this
      · exact hh (by rw [hr]; rfl)
    rw [hlast, decide_eq_true hlen]
    rfl
  · rcases hh with hlen | hh
    · rw [decide_eq_false (Nat.not_lt.2 hlen)]
      rfl
    · rw [Bool.and_eq_false_iff.2 (.inr (beq_eq_false_iff_ne.2 hh))]
      rfl

/-- **The check looks between the dashes.** -/
theorem check (h : Dashes m d inner d') (offset : Nat) (isTag : Bool) : ∃ after before,
    checkDelimiters offset m isTag = gapFaults (offset + d.size) inner after before := by
  have hfirst : (if (!d.isEmpty) = true then m.drop 1 else m) = inner ++ d' := by
    rw [h.eq]
    rcases h.first with rfl | ⟨rfl, -⟩ <;> rfl
  have hlast : (if (!d'.isEmpty) = true then (inner ++ d').dropLast else inner ++ d') = inner := by
    rcases h.last with rfl | ⟨rfl, -⟩
    · exact List.dropLast_concat
    · exact List.append_nil inner
  have hstart : (if (!d.isEmpty) = true then offset + 1 else offset) = offset + d.size := by
    rcases h.first with rfl | ⟨rfl, -⟩ <;> rfl
  simp only [checkDelimiters, h.lead_eq, h.trail_eq, hfirst, hlast, hstart]
  exact ⟨_, _, rfl⟩

/-- White space after the first dash is no part of the dashes. -/
theorem flaw_lead (h : Dashes m d (g ++ q) d') (hg : Uneven g) (hq : StartsFilled q) :
    Flaw false d g (q ++ d') := by
  have hm : m = d ++ (g ++ (q ++ d')) := by rw [h.eq, List.append_assoc]
  obtain ⟨x, r, rfl, hx⟩ := hq
  refine .lead hg ?_ ⟨x, r ++ d', rfl, hx⟩ fun hdash => ?_
  · rcases h.first with rfl | ⟨rfl, hh⟩
    · exact .inr rfl
    · exact .inl ⟨rfl, by rwa [hm, List.nil_append] at hh⟩
  · -- a single dash here would be the last dash, or the first one
    rw [hdash] at hm
    rcases h.last with rfl | ⟨rfl, hlen | hlast⟩
    · simp at hdash
    · rcases h.first with rfl | ⟨rfl, hh⟩
      · simp [hm] at hlen
      · obtain rfl : g = [] := by simpa [hm] using hlen
        exact hh (by rw [hm]; rfl)
    · exact hlast (by rw [hm, ← List.append_assoc, List.getLast?_concat])

theorem flaw_trail (h : Dashes m d (p ++ g) d') (hg : Uneven g) (hp : EndsFilled p) :
    Flaw false (d ++ p) g d' := by
  have hm : m = (d ++ p) ++ (g ++ d') := by rw [h.eq]; simp
  obtain ⟨r, x, rfl, hx⟩ := hp
  refine .trail hg ?_ ⟨d ++ r, x, by simp, hx⟩ fun hdash => ?_
  · rcases h.last with rfl | ⟨rfl, hlen | hlast⟩
    · exact .inr rfl
    · -- one character in all is no first dash, so it is no dash
      refine .inl ⟨rfl, fun hdash => ?_⟩
      rcases h.first with rfl | ⟨rfl, hh⟩
      · simp [hm] at hlen
      · have hlen : r.length + (g.length + 1) ≤ 1 := by simpa [hm] using hlen
        obtain rfl : r = [] := List.length_eq_zero_iff.1 (by omega)
        obtain rfl : g = [] := List.length_eq_zero_iff.1 (by omega)
        exact hh (by simpa [hm] using hdash)
    · rw [List.append_nil] at hm
      exact .inl ⟨rfl, by rwa [← hm]⟩
  · rcases h.first with rfl | ⟨rfl, hh⟩
    · simp at hdash
    · exact hh (by rw [hm, hdash]; rfl)

/-- The dash before a flaw at the start is the first one. -/
theorem of_lead (h : Dashes m d inner d') (hm : m = p ++ (g ++ q))
    (hp : p = [] ∧ (g ++ q).head? ≠ some '-' ∨ p = ['-']) (hq : StartsFilled q) (hdash : q ≠ ['-']) :
    d = p ∧ ∃ r, inner = g ++ r ∧ StartsFilled r := by
  obtain rfl : d = p := by
    rcases h.first with rfl | ⟨rfl, hh⟩ <;> rcases hp with ⟨rfl, hp⟩ | rfl
    · rw [List.nil_append] at hm
      rw [← hm, h.eq] at hp
      exact absurd rfl hp
    · rfl
    · rfl
    · exact absurd (by rw [hm]; rfl) hh
  refine ⟨rfl, ?_⟩
  obtain ⟨x, r, rfl, hx⟩ := hq
  have hinner : inner ++ d' = g ++ x :: r := List.append_cancel_left (h.eq.symm.trans hm)
  rcases h.last with rfl | ⟨rfl, -⟩
  · -- the last dash is not the only character after the gap
    rcases List.eq_nil_or_concat r with rfl | ⟨r, y, rfl⟩
    · obtain rfl : '-' = x := List.singleton_inj.1 (List.append_inj' hinner rfl).2
      exact absurd rfl hdash
    · rw [List.concat_eq_append, ← List.cons_append, ← List.append_assoc] at hinner
      exact ⟨x :: r, (List.append_inj' hinner rfl).1, x, r, rfl, hx⟩
  · rw [List.append_nil] at hinner
    exact ⟨x :: r, hinner, x, r, rfl, hx⟩

theorem of_trail (h : Dashes m d inner d') (hm : m = p ++ (g ++ q))
    (hq : q = [] ∧ (p ++ g).getLast? ≠ some '-' ∨ q = ['-']) (hp : EndsFilled p) (hdash : p ≠ ['-']) :
    ∃ r, p = d ++ r ∧ inner = r ++ g ∧ EndsFilled r := by
  obtain ⟨r, x, rfl, hx⟩ := hp
  obtain rfl : d' = q := by
    rcases h.last with rfl | ⟨rfl, hlast⟩ <;> rcases hq with ⟨rfl, hq⟩ | rfl
    · rw [List.append_nil] at hm
      rw [← hm, h.eq, ← List.append_assoc, List.getLast?_concat] at hq
      exact absurd rfl hq
    · rfl
    · rfl
    · rcases hlast with hlen | hlast
      · have hlen : r.length + (g.length + 1 + 1) ≤ 1 := by simpa [hm] using hlen
        omega
      · exact absurd (by rw [hm, ← List.append_assoc, List.getLast?_concat]) hlast
  have hinner : d ++ inner = (r ++ [x]) ++ g := by
    have hm' := h.eq.symm.trans hm
    rw [← List.append_assoc, ← List.append_assoc] at hm'
    exact List.append_cancel_right hm'
  rcases h.first with rfl | ⟨rfl, -⟩
  · -- the first dash is not the only character before the gap
    cases r with
    | nil =>
      obtain rfl : '-' = x := (List.cons.inj hinner).1
      exact absurd rfl hdash
    | cons y r =>
      obtain ⟨rfl, htail⟩ := List.cons.inj hinner
      exact ⟨r ++ [x], rfl, htail, r, x, rfl, hx⟩
  · exact ⟨r ++ [x], rfl, hinner, r, x, rfl, hx⟩

end Dashes

/-- **Edits next to delimiters** are those of flaws. -/
theorem mem_checkDelimiters_iff {offset : Nat} {m : Text} {isTag : Bool} {c : Correction} :
    c ∈ (checkDelimiters offset m isTag).map (·.correction) ↔
      ∃ p g q, m = p ++ (g ++ q) ∧ Flaw false p g q ∧ c = amend (offset + p.size) g := by
  obtain ⟨d, inner, d', h⟩ := exists_dashes m
  obtain ⟨after, before, hcheck⟩ := h.check offset isTag
  rw [hcheck, mem_gapFaults_iff]
  constructor
  · rintro (⟨g, q, rfl, hq, hg, hc⟩ | ⟨p, g, rfl, hp, hg, hc⟩)
    · exact ⟨d, g, q ++ d', by rw [h.eq, List.append_assoc], h.flaw_lead hg hq, hc⟩
    · refine ⟨d ++ p, g, d', by rw [h.eq]; simp, h.flaw_trail hg hp, ?_⟩
      rwa [Text.size_append, ← Nat.add_assoc]
  · rintro ⟨p, g, q, hm, hflaw, hc⟩
    cases hflaw with
    | lead hg hp hq hdash =>
      obtain ⟨rfl, r, hinner, hr⟩ := h.of_lead hm hp hq hdash
      exact .inl ⟨g, r, hinner, hr, hg, hc⟩
    | trail hg hq hp hdash =>
      obtain ⟨r, rfl, hinner, hr⟩ := h.of_trail hm hq hp hdash
      refine .inr ⟨r, g, hinner, hr, hg, ?_⟩
      rwa [Text.size_append, ← Nat.add_assoc] at hc
    | separator h => cases h

theorem span_checkDelimiters {offset : Nat} {m : Text} {isTag : Bool} :
    ∀ f ∈ checkDelimiters offset m isTag, f.span = f.correction.range := by
  obtain ⟨d, inner, d', h⟩ := exists_dashes m
  obtain ⟨after, before, hcheck⟩ := h.check offset isTag
  rw [hcheck]
  exact span_gapFaults


/-! ### Separators -/

/-- The faults after separators outside strings, read character by character: `q` is the quote of the
string that is open at the start. -/
def separatorFaults (offset : Nat) : Option Char → Text → List Fault
  | _, [] => []
  | some q, c :: cs => separatorFaults (offset + c.utf8Size) (if c = q then none else some q) cs
  | none, c :: cs =>
    if isQuote c then separatorFaults (offset + c.utf8Size) (some c) cs
    else
      (if isSeparator c then checkAfter c (offset + 1) (cs.takeWhile (! isQuote ·)) else []) ++
        separatorFaults (offset + c.utf8Size) none cs

/-- The faults after the separators of a piece that goes on with `after`. -/
def runFaults (offset : Nat) (after : Text) : Text → List Fault
  | [] => []
  | c :: cs =>
    (if isSeparator c then checkAfter c (offset + 1) (cs ++ after) else []) ++
      runFaults (offset + c.utf8Size) after cs

theorem checkPiece_eq (offset : Nat) (r : Text) : checkPiece offset r = runFaults offset [] r := by
  induction r generalizing offset with
  | nil => rfl
  | cons c r ih => rw [checkPiece, runFaults, ih, List.append_nil]; rfl

theorem runFaults_concat (offset : Nat) (r after : Text) (c : Char) :
    runFaults offset after (r ++ [c]) = runFaults offset (c :: after) r ++
      (if isSeparator c then checkAfter c (offset + r.size + 1) after else []) := by
  induction r generalizing offset with
  | nil => simp [runFaults]
  | cons d r ih =>
    simp only [List.cons_append, runFaults, ih, List.append_assoc, List.nil_append, Text.size_cons,
      Nat.add_assoc]

theorem flatMap_unquotedPiece (offset start : Nat) {run : Text} (h : run.size ≤ start) :
    (Liquid.unquotedPiece start run).flatMap (fun u => checkPiece (offset + u.offset) u.chars) =
      runFaults (offset + start - run.size) [] run.reverse := by
  unfold Liquid.unquotedPiece
  cases run with
  | nil => rfl
  | cons c run =>
    have hs : offset + (start - Text.size (c :: run)) = offset + start - Text.size (c :: run) := by
      omega
    rw [List.isEmpty_cons, if_neg (by simp), List.flatMap_singleton, checkPiece_eq, hs]

/-- Reading the pieces outside strings is reading the markup character by character. -/
theorem flatMap_unquotedFrom (offset start : Nat) (q : Option Char) (run t : Text)
    (hrun : q.isSome → run = []) (h : run.size ≤ start) :
    (Liquid.unquotedFrom start run q t).flatMap (fun u => checkPiece (offset + u.offset) u.chars) =
      (if q.isSome then [] else
        runFaults (offset + start - run.size) (t.takeWhile (! isQuote ·)) run.reverse) ++
        separatorFaults (offset + start) q t := by
  -- the run collected so far belongs to the piece being read, so its faults are put in front
  induction t generalizing start q run with
  | nil =>
    cases q with
    | some q => rfl
    | none => simp [Liquid.unquotedFrom, separatorFaults, flatMap_unquotedPiece offset start h]
  | cons c t ih =>
    cases q with
    | some q =>
      obtain rfl := hrun rfl
      rw [Liquid.unquotedFrom, separatorFaults, ih _ _ _ (fun _ => rfl) (Nat.zero_le _)]
      split <;> simp [runFaults, Nat.add_assoc]
    | none =>
      rw [Liquid.unquotedFrom, separatorFaults]
      by_cases hc : isQuote c = true
      · rw [if_pos hc, if_pos hc, List.flatMap_append, flatMap_unquotedPiece offset start h,
          ih _ _ _ (fun _ => rfl) (Nat.zero_le _),
          List.takeWhile_cons_of_neg (by simp [hc])]
        simp [Nat.add_assoc]
      · rw [if_neg hc, if_neg hc, ih _ _ _ (fun h => absurd h (by simp)) (by
          simp only [Text.size_cons]; omega), List.takeWhile_cons_of_pos (by simpa using hc),
          List.reverse_cons, runFaults_concat]
        -- a character of the piece joins the run, which still starts where it did
        have hs : offset + (start + c.utf8Size) - Text.size (c :: run)
            = offset + start - run.size := by
          simp only [Text.size_cons]
          omega
        have hs' : offset + start - run.size + Text.size run.reverse + 1 = offset + start + 1 := by
          rw [Text.size_reverse]
          omega
        rw [hs, hs']
        simp only [Option.isSome_none, Bool.false_eq_true, if_false, List.append_assoc,
          Nat.add_assoc]

theorem checkSeparators_eq (offset : Nat) (m : Text) :
    checkSeparators offset m = separatorFaults offset none m := by
  have h := flatMap_unquotedFrom offset 0 none [] m (by simp) (Nat.zero_le _)
  rw [checkSeparators, Liquid.unquoted, h]
  simp [runFaults]

theorem quoteAfter_append (q : Option Char) (s t : Text) :
    quoteAfter q (s ++ t) = quoteAfter (quoteAfter q s) t := by
  induction s generalizing q with
  | nil => rfl
  | cons c s ih => cases q <;> simp only [List.cons_append, quoteAfter, ih]

theorem isQuote_of_isSeparator {c : Char} (h : isSeparator c = true) : isQuote c = false := by
  simp only [isSeparator, Bool.or_eq_true, beq_iff_eq] at h
  rcases h with rfl | rfl <;> rfl

/-- A fault is found at a separator outside strings, from what follows up to the next string. -/
theorem mem_separatorFaults_iff {offset : Nat} {q : Option Char} {m : Text} {f : Fault} :
    f ∈ separatorFaults offset q m ↔ ∃ p s r, m = p ++ s :: r ∧ quoteAfter q p = none ∧
      isSeparator s = true ∧ f ∈ checkAfter s (offset + p.size + 1) (r.takeWhile (! isQuote ·)) := by
  induction m generalizing offset q with
  | nil => simp [separatorFaults]
  | cons c m ih =>
    -- separators further on are found after `c` has been read
    have hlater : (∃ p s r, m = p ++ s :: r ∧ quoteAfter (quoteAfter q [c]) p = none ∧
          isSeparator s = true ∧
          f ∈ checkAfter s (offset + c.utf8Size + p.size + 1) (r.takeWhile (! isQuote ·))) ↔
        ∃ p s r, c :: m = (c :: p) ++ s :: r ∧ quoteAfter q (c :: p) = none ∧
          isSeparator s = true ∧
          f ∈ checkAfter s (offset + Text.size (c :: p) + 1) (r.takeWhile (! isQuote ·)) := by
      constructor
      · rintro ⟨p, s, r, rfl, hq, hs, hf⟩
        refine ⟨p, s, r, rfl, (quoteAfter_append q [c] p).trans hq, hs, ?_⟩
        rwa [Text.size_cons, ← Nat.add_assoc]
      · rintro ⟨p, s, r, hm, hq, hs, hf⟩
        refine ⟨p, s, r, (List.cons.inj hm).2, (quoteAfter_append q [c] p).symm.trans hq, hs, ?_⟩
        rwa [Text.size_cons, ← Nat.add_assoc] at hf
    have hcons : (∃ p s r, c :: m = p ++ s :: r ∧ quoteAfter q p = none ∧ isSeparator s = true ∧
          f ∈ checkAfter s (offset + p.size + 1) (r.takeWhile (! isQuote ·))) ↔
        (q = none ∧ isSeparator c = true ∧
          f ∈ checkAfter c (offset + 1) (m.takeWhile (! isQuote ·))) ∨
        ∃ p s r, c :: m = (c :: p) ++ s :: r ∧ quoteAfter q (c :: p) = none ∧
          isSeparator s = true ∧
          f ∈ checkAfter s (offset + Text.size (c :: p) + 1) (r.takeWhile (! isQuote ·)) := by
      constructor
      · rintro ⟨p, s, r, hm, hq, hs, hf⟩
        cases p with
        | nil =>
          simp only [List.nil_append, List.cons.injEq] at hm
          obtain ⟨rfl, rfl⟩ := hm
          exact Or.inl ⟨hq, hs, hf⟩
        | cons d p =>
          obtain rfl : c = d := (List.cons.inj hm).1
          exact Or.inr ⟨p, s, r, hm, hq, hs, hf⟩
      · rintro (⟨rfl, hs, hf⟩ | ⟨p, s, r, hm, hq, hs, hf⟩)
        · exact ⟨[], c, m, rfl, rfl, hs, hf⟩
        · exact ⟨c :: p, s, r, hm, hq, hs, hf⟩
    rw [hcons]
    cases q with
    | some q =>
      rw [separatorFaults, ih, ← hlater]
      simp [quoteAfter]
    | none =>
      rw [separatorFaults]
      by_cases hc : isQuote c = true
      · have hsep : isSeparator c = false := by
          cases hs : isSeparator c with
          | false => rfl
          | true => rw [isQuote_of_isSeparator hs] at hc; cases hc
        rw [if_pos hc, ih, ← hlater]
        simp [hsep, quoteAfter, hc]
      · rw [if_neg hc, List.mem_append, ih, ← hlater]
        cases hs : isSeparator c <;> simp [quoteAfter, hc]

/-- The spaces at the start of a text, and what follows them. -/
theorem exists_spaces (t : Text) :
    ∃ n r, t = List.replicate n ' ' ++ r ∧ r.head? ≠ some ' ' := by
  induction t with
  | nil => exact ⟨0, [], rfl, by simp⟩
  | cons c t ih =>
    by_cases hc : c = ' '
    · obtain ⟨n, r, rfl, hr⟩ := ih
      exact ⟨n + 1, r, by rw [hc]; rfl, hr⟩
    · exact ⟨0, c :: t, rfl, by simpa using hc⟩

/-- Spaces in front of something else can be split off in one way. -/
theorem replicate_append_inj {n k : Nat} {r r' : Text} (hr : r.head? ≠ some ' ')
    (hr' : r'.head? ≠ some ' ')
    (h : List.replicate n ' ' ++ r = List.replicate k ' ' ++ r') : n = k ∧ r = r' := by
  induction n generalizing k with
  | zero =>
    cases k with
    | zero => exact ⟨rfl, h⟩
    | succ k => rw [show r = _ from h] at hr; exact absurd rfl hr
  | succ n ih =>
    cases k with
    | zero => rw [show r' = _ from h.symm] at hr'; exact absurd rfl hr'
    | succ k =>
      obtain ⟨rfl, h2⟩ := ih (List.cons.inj h).2
      exact ⟨rfl, h2⟩

/-- The same for spaces given by their characters. -/
theorem spaces_append_inj {g g' r r' : Text} (hg : ∀ c ∈ g, c = ' ') (hg' : ∀ c ∈ g', c = ' ')
    (hr : r.head? ≠ some ' ') (hr' : r'.head? ≠ some ' ') (h : g ++ r = g' ++ r') :
    g = g' ∧ r = r' := by
  have h1 : g = List.replicate g.length ' ' := List.eq_replicate_iff.2 ⟨rfl, hg⟩
  have h2 : g' = List.replicate g'.length ' ' := List.eq_replicate_iff.2 ⟨rfl, hg'⟩
  rw [h1, h2] at h
  obtain ⟨hlen, hrr⟩ := replicate_append_inj hr hr' h
  exact ⟨by rw [h1, h2, hlen], hrr⟩

/-- The edits after a separator at `offset` that is followed by `n` spaces and then `next`. -/
def spacesEdits (offset n : Nat) (next : Option Char) : List Correction :=
  match next with
  | none => []
  | some y =>
    if n = 0 then (if isBlank y then [] else [.insert offset " "])
    else if 1 < n ∧ y ≠ '\n' then [.replace ⟨offset, offset + n⟩ " "] else []

theorem checkAfter_spaces (s : Char) (offset n : Nat) {t : Text} (ht : t.head? ≠ some ' ') :
    (checkAfter s offset (List.replicate n ' ' ++ t)).map (·.correction) =
      spacesEdits offset n t.head? := by
  unfold spacesEdits
  -- the spaces counted are the `n` in front, as the character behind them is none
  have hlen : ((List.replicate n ' ' ++ t).takeWhile (· == ' ')).length = n := by
    rw [List.takeWhile_append_of_pos (fun x hx => by simp [List.eq_of_mem_replicate hx])]
    cases t with
    | nil => simp
    | cons y t =>
      rw [List.takeWhile_cons_of_neg (by simpa using ht)]
      simp
  have hdrop : (List.replicate n ' ' ++ t).drop n = t := List.drop_left' (by simp)
  -- without a space the next character decides; with some, whether it is a newline
  cases n with
  | zero =>
    cases t with
    | nil => rfl
    | cons y t =>
      have hy : y ≠ ' ' := by simpa using ht
      cases hb : isBlank y <;> simp [checkAfter, hb, hy, missing]
  | succ n =>
    have hb : isBlank ' ' = true := rfl
    rw [List.replicate_succ, List.cons_append] at hlen hdrop ⊢
    rw [checkAfter]
    simp only [hb, hlen, hdrop]
    cases t with
    | nil => simp
    | cons y t => by_cases hy : y = '\n' <;> by_cases hn : 0 < n <;> simp [hy, hn, tooMany]

/-- The edit after a separator. -/
theorem mem_checkAfter_iff {s : Char} {o : Nat} {r : Text} {c : Correction} :
    c ∈ (checkAfter s o (r.takeWhile (! isQuote ·))).map (·.correction) ↔
      ∃ g x q, r = g ++ x :: q ∧ Uneven g ∧ isQuote x = false ∧ (g = [] → isBlank x = false) ∧
        (g ≠ [] → x ≠ ' ' ∧ x ≠ '\n') ∧ c = amend o g := by
  obtain ⟨n, r, rfl, hr⟩ := exists_spaces r
  -- the string that may follow starts after the spaces
  have htake : (List.replicate n ' ' ++ r).takeWhile (! isQuote ·)
      = List.replicate n ' ' ++ r.takeWhile (! isQuote ·) := by
    apply List.takeWhile_append_of_pos
    intro x hx
    rw [List.eq_of_mem_replicate hx]
    rfl
  have hhead : (r.takeWhile (! isQuote ·)).head? ≠ some ' ' := by
    cases r with
    | nil => simp
    | cons y r => rw [List.takeWhile_cons]; split <;> simp_all
  rw [htake, checkAfter_spaces s o n hhead]
  constructor
  · intro h
    cases r with
    | nil => simp [spacesEdits] at h
    | cons y r =>
      have hy : y ≠ ' ' := by simpa using hr
      by_cases hquote : isQuote y = true
      · rw [List.takeWhile_cons_of_neg (by simp [hquote])] at h
        simp [spacesEdits] at h
      · rw [List.takeWhile_cons_of_pos (by simpa using hquote)] at h
        have hquote : isQuote y = false := by simpa using hquote
        refine ⟨List.replicate n ' ', y, r, rfl, ?_⟩
        match n, h with
        | 0, h =>
          simp only [spacesEdits, List.head?_cons, if_true] at h
          split at h
          · simp at h
          · rename_i hb
            obtain rfl : c = .insert o " " := by simpa using h
            exact ⟨Or.inl rfl, hquote, fun _ => by simpa using hb, by simp, rfl⟩
        | 1, h => simp [spacesEdits] at h
        | k + 2, h =>
          obtain ⟨hb, rfl⟩ : y ≠ '\n' ∧ c = .replace ⟨o, o + (k + 2)⟩ " " := by
            simpa [spacesEdits] using h
          refine ⟨Or.inr ⟨k, rfl⟩, hquote, by simp, fun _ => ⟨hy, hb⟩, ?_⟩
          rw [amend, if_neg (by simp), size_replicate_space]
  · rintro ⟨g, x, q, h, hu, hx, h0, h1, rfl⟩
    have hxh : (x :: q).head? ≠ some ' ' := by
      intro hxs
      obtain rfl : x = ' ' := Option.some.inj hxs
      by_cases hg : g = []
      · exact absurd (h0 hg) (by decide)
      · exact (h1 hg).1 rfl
    rcases hu with rfl | ⟨k, rfl⟩
    · obtain ⟨rfl, rfl⟩ := replicate_append_inj (k := 0) hr hxh h
      rw [List.takeWhile_cons_of_pos (by simp [hx])]
      simp [spacesEdits, h0 rfl, amend]
    · obtain ⟨rfl, rfl⟩ := replicate_append_inj hr hxh h
      rw [List.takeWhile_cons_of_pos (by simp [hx])]
      have hne : x ≠ '\n' := (h1 (by simp)).2
      have hrep : (List.replicate (k + 2) ' ').isEmpty = false := by simp
      simp [spacesEdits, hne, amend, hrep, size_replicate_space]

theorem span_checkAfter {s : Char} {offset : Nat} {r : Text} :
    ∀ f ∈ checkAfter s offset r, f.span = f.correction.range := by
  unfold checkAfter
  split
  · simp
  · split
    · simp [missing, Correction.range]
    · simp only
      split
      · simp
      · split <;> simp [tooMany, Correction.range]

/-- **Edits after separators** are those of flaws. -/
theorem mem_checkSeparators_iff {offset : Nat} {m : Text} {c : Correction} :
    c ∈ (checkSeparators offset m).map (·.correction) ↔
      ∃ p s g x q, m = (p ++ [s]) ++ (g ++ x :: q) ∧ Uneven g ∧ quoteAfter none p = none ∧
        isSeparator s = true ∧ isQuote x = false ∧ (g = [] → isBlank x = false) ∧
        (g ≠ [] → x ≠ ' ' ∧ x ≠ '\n') ∧ c = amend (offset + Text.size (p ++ [s])) g := by
  have hsize : ∀ p s, isSeparator s = true →
      offset + Text.size (p ++ [s]) = offset + p.size + 1 := by
    intro p s hs
    have h1 : s.utf8Size = 1 := by
      simp only [isSeparator, Bool.or_eq_true, beq_iff_eq] at hs
      rcases hs with rfl | rfl <;> rfl
    rw [Text.size_append, Text.size_cons, Text.size_nil, h1]
    omega
  rw [checkSeparators_eq, List.mem_map]
  constructor
  · rintro ⟨f, hf, rfl⟩
    obtain ⟨p, s, r, rfl, hq, hs, hf⟩ := mem_separatorFaults_iff.1 hf
    obtain ⟨g, x, q, rfl, hu, hx, h0, h1, hc⟩ := mem_checkAfter_iff.1 (List.mem_map_of_mem hf)
    exact ⟨p, s, g, x, q, by simp, hu, hq, hs, hx, h0, h1, by rw [hsize p s hs]; exact hc⟩
  · rintro ⟨p, s, g, x, q, rfl, hu, hq, hs, hx, h0, h1, rfl⟩
    rw [hsize p s hs]
    have hmem := (mem_checkAfter_iff (s := s) (o := offset + p.size + 1)).2
      ⟨g, x, q, rfl, hu, hx, h0, h1, rfl⟩
    obtain ⟨f, hf, hc⟩ := List.mem_map.1 hmem
    exact ⟨f, mem_separatorFaults_iff.2 ⟨p, s, _, by simp, hq, hs, hf⟩, hc⟩

/-- **Edits of markup** are those of flaws. -/
theorem mem_checks_iff {offset : Nat} {m : Text} (isTag : Bool) {c : Correction} :
    c ∈ (checkDelimiters offset m isTag ++ checkSeparators offset m).map (·.correction) ↔
      ∃ p g q, m = p ++ (g ++ q) ∧ Flaw true p g q ∧ c = amend (offset + p.size) g := by
  rw [List.map_append, List.mem_append, mem_checkDelimiters_iff, mem_checkSeparators_iff]
  constructor
  · rintro (⟨p, g, q, hm, hf, hc⟩ | ⟨p, s, g, x, q, hm, hu, hq, hs, hx, h0, h1, hc⟩)
    · refine ⟨p, g, q, hm, ?_, hc⟩
      cases hf with
      | lead h1 h2 h3 h4 => exact .lead h1 h2 h3 h4
      | trail h1 h2 h3 h4 => exact .trail h1 h2 h3 h4
      | separator h => cases h
    · exact ⟨p ++ [s], g, x :: q, hm, .separator rfl hu hq hs hx h0 h1, hc⟩
  · rintro ⟨p, g, q, hm, hf, hc⟩
    cases hf with
    | lead h1 h2 h3 h4 => exact Or.inl ⟨p, g, q, hm, .lead h1 h2 h3 h4, hc⟩
    | trail h1 h2 h3 h4 => exact Or.inl ⟨p, g, q, hm, .trail h1 h2 h3 h4, hc⟩
    | @separator p g q s x _ hu hq hs hx h0 h1 =>
      exact Or.inr ⟨p, s, g, x, q, hm, hu, hq, hs, hx, h0, h1, hc⟩

theorem span_checkSeparators {offset : Nat} {m : Text} :
    ∀ f ∈ checkSeparators offset m, f.span = f.correction.range := by
  intro f hf
  rw [checkSeparators_eq] at hf
  obtain ⟨p, s, r, -, -, -, hf⟩ := mem_separatorFaults_iff.1 hf
  exact span_checkAfter f hf

end LiquidLint.Spacing
