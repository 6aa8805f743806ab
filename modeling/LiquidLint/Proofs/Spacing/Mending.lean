import LiquidLint.Proofs.Correction.Run
import LiquidLint.Proofs.Spacing.Flaw
import Mathlib.Logic.Relation

/-!
# Mending flaws one after the other

Two flaws of one markup never touch (`Flaw.apart`), so mending one leaves those before it as they are
(`Flaw.keep_before`), and what is a flaw afterwards was one already (`Flaw.of_mended`). A run of edits
from the last flaw to the first therefore applies all of them, and when all flaws were among them the
markup is left without any: `run_flaws`.
-/

namespace LiquidLint.Spacing

open Correction (Before Runs)
open Liquid (isQuote)

variable {separators : Bool} {p g q : Text}

/-! ### Flaws do not touch -/

theorem Flaw.uneven (h : Flaw separators p g q) : Uneven g := by
  cases h <;> assumption

theorem EndsFilled.getLast?_ne {t : Text} (h : EndsFilled t) : t.getLast? ≠ some ' ' := by
  obtain ⟨r, c, rfl, hc⟩ := h
  rw [List.getLast?_concat]
  intro he
  rw [Option.some.inj he] at hc
  cases hc

/-- No space comes before a flaw. -/
theorem Flaw.getLast?_ne (h : Flaw separators p g q) : p.getLast? ≠ some ' ' := by
  cases h with
  | lead _ hp =>
    rcases hp with ⟨rfl, -⟩ | rfl <;> decide
  | trail _ _ hp => exact hp.getLast?_ne
  | separator _ _ _ hs =>
    rw [List.getLast?_concat]
    intro he
    rw [Option.some.inj he] at hs
    cases hs

/-- No space comes after a flaw. -/
theorem Flaw.head?_ne (h : Flaw separators p g q) : q.head? ≠ some ' ' := by
  cases h with
  | lead _ _ hq =>
    obtain ⟨c, r, rfl, hc⟩ := hq
    intro he
    rw [Option.some.inj he] at hc
    cases hc
  | trail _ hq =>
    rcases hq with ⟨rfl, -⟩ | rfl <;> decide
  | @separator p g q s c _ _ _ _ _ h0 h1 =>
    intro he
    obtain rfl : c = ' ' := Option.some.inj he
    by_cases hg : g = []
    · exact absurd (h0 hg) (by decide)
    · exact (h1 hg).1 rfl

/-- A text that starts with some spaces and one that does not end with a space: the spaces are in
front of the text. -/
theorem exists_append_of_spaces {u g t : Text} (hg : ∀ c ∈ g, c = ' ') (hu : u ≠ [])
    (hlast : u.getLast? ≠ some ' ') {r : Text} (h : g ++ t = u ++ r) :
    ∃ v, v ≠ [] ∧ u = g ++ v ∧ t = v ++ r := by
  rcases List.append_eq_append_iff.1 h with ⟨v, rfl, rfl⟩ | ⟨v, rfl, rfl⟩
  · refine ⟨v, ?_, rfl, rfl⟩
    rintro rfl
    rw [List.append_nil] at hu hlast
    exact hlast (by rw [List.getLast?_eq_some_getLast hu, hg _ (List.getLast_mem hu)])
  · refine absurd ?_ hlast
    rw [List.getLast?_eq_some_getLast hu, hg _ (List.mem_append_left v (List.getLast_mem hu))]

/-- **Flaws are apart**: two flaws of one markup are the same, or something stands between them. -/
theorem Flaw.apart {p' g' q' : Text} (h : Flaw separators p g q) (h' : Flaw separators p' g' q')
    (heq : p ++ (g ++ q) = p' ++ (g' ++ q')) :
    (p = p' ∧ g = g' ∧ q = q') ∨
    (∃ v, v ≠ [] ∧ p = p' ++ (g' ++ v) ∧ q' = v ++ (g ++ q)) ∨
    ∃ v, v ≠ [] ∧ p' = p ++ (g ++ v) ∧ q = v ++ (g' ++ q') := by
  -- the gap of one starts before the gap of the other; a gap has only spaces, and what is around it
  -- starts and ends with none
  rcases List.append_eq_append_iff.1 heq with ⟨u, hu, hr⟩ | ⟨u, hu, hr⟩
  · by_cases hnil : u = []
    · subst hnil
      rw [List.append_nil] at hu
      rw [List.nil_append] at hr
      obtain ⟨hgg, hqq⟩ := spaces_append_inj h.uneven.isGap h'.uneven.isGap h.head?_ne h'.head?_ne hr
      exact Or.inl ⟨hu.symm, hgg, hqq⟩
    · -- what lies between the starts ends with no space, so it reaches past the first gap
      have hlast : u.getLast? ≠ some ' ' := by
        have := h'.getLast?_ne
        rwa [hu, List.getLast?_append_of_ne_nil _ hnil] at this
      obtain ⟨v, hv, rfl, hq⟩ := exists_append_of_spaces h.uneven.isGap hnil hlast hr
      exact Or.inr (Or.inr ⟨v, hv, hu, hq⟩)
  · by_cases hnil : u = []
    · subst hnil
      rw [List.append_nil] at hu
      rw [List.nil_append] at hr
      obtain ⟨hgg, hqq⟩ :=
        spaces_append_inj h'.uneven.isGap h.uneven.isGap h'.head?_ne h.head?_ne hr
      exact Or.inl ⟨hu, hgg.symm, hqq.symm⟩
    · have hlast : u.getLast? ≠ some ' ' := by
        have := h.getLast?_ne
        rwa [hu, List.getLast?_append_of_ne_nil _ hnil] at this
      obtain ⟨v, hv, rfl, hq⟩ := exists_append_of_spaces h'.uneven.isGap hnil hlast hr
      exact Or.inr (Or.inl ⟨v, hv, hu, hq⟩)

/-! ### Mending one flaw -/

/-- A flaw at the very start of the markup does not come before a dash. -/
theorem Flaw.head?_ne_dash (h : Flaw separators p g q) (hp : p = []) :
    (g ++ q).head? ≠ some '-' := by
  cases h with
  | lead _ hd =>
    rcases hd with ⟨-, hd⟩ | rfl
    · exact hd
    · cases hp
  | trail _ _ hf =>
    obtain ⟨r, c, rfl, -⟩ := hf
    simp at hp
  | separator => simp at hp

/-- A flaw at the very end of the markup does not come after a dash. -/
theorem Flaw.getLast?_ne_dash (h : Flaw separators p g q) (hq : q = []) :
    (p ++ g).getLast? ≠ some '-' := by
  cases h with
  | lead _ _ hf =>
    obtain ⟨c, r, rfl, -⟩ := hf
    cases hq
  | trail _ hd =>
    rcases hd with ⟨-, hd⟩ | rfl
    · exact hd
    · cases hq
  | separator => cases hq

/-- **A flaw before the mended one stays** as it is. -/
theorem Flaw.keep_before {p' g' v : Text} (hv : v ≠ [])
    (h : Flaw separators (p' ++ (g' ++ v)) g q) (h' : Flaw separators p' g' (v ++ (g ++ q))) :
    Flaw separators p' g' (v ++ ' ' :: q) := by
  obtain ⟨x, v, rfl⟩ := List.exists_cons_of_ne_nil hv
  generalize hq' : (x :: v) ++ (g ++ q) = q' at h'
  cases h' with
  | lead hu hp hf hd =>
    obtain ⟨c, r, rfl, hc⟩ := hf
    obtain rfl : x = c := (List.cons.inj hq').1
    refine .lead hu ?_ ⟨x, _, rfl, hc⟩ (by simp)
    rcases hp with ⟨rfl, hp⟩ | rfl
    · refine Or.inl ⟨rfl, ?_⟩
      cases g' with
      | nil => exact hp
      | cons y g' => exact hp
    · exact Or.inr rfl
  | trail hu hd =>
    rcases hd with ⟨rfl, -⟩ | rfl
    · simp at hq'
    · -- only the last dash is left after `g'`, so the other flaw would come after it
      simp only [List.cons_append, List.cons.injEq, List.append_eq_nil_iff] at hq'
      obtain ⟨rfl, rfl, rfl, rfl⟩ := hq'
      exact absurd (by simp) (h.getLast?_ne_dash rfl)
  | @separator p g' r s c hsep hu hq hs hc h0 h1 =>
    obtain rfl : x = c := (List.cons.inj hq').1
    exact .separator hsep hu hq hs hc h0 h1

/-- Spaces do not open or close strings. -/
theorem quoteAfter_spaces {g : Text} (hg : ∀ c ∈ g, c = ' ') {o : Option Char}
    (ho : ∀ c ∈ o, isQuote c = true) : quoteAfter o g = o := by
  induction g with
  | nil => cases o <;> rfl
  | cons c g ih =>
    obtain rfl : c = ' ' := hg c (List.mem_cons_self ..)
    have hg' : ∀ c ∈ g, c = ' ' := fun c hc => hg c (List.mem_cons_of_mem _ hc)
    cases o with
    | none => exact ih hg'
    | some x =>
      have hx : ' ' ≠ x := by
        rintro rfl
        exact absurd (ho _ rfl) (by decide)
      rw [quoteAfter, if_neg hx]
      exact ih hg'

theorem isQuote_quoteAfter {o : Option Char} (ho : ∀ c ∈ o, isQuote c = true) (t : Text) :
    ∀ c ∈ quoteAfter o t, isQuote c = true := by
  induction t generalizing o with
  | nil => cases o <;> exact ho
  | cons c t ih =>
    cases o with
    | none =>
      rw [quoteAfter]
      apply ih
      split
      · simp_all
      · simp
    | some x =>
      rw [quoteAfter]
      apply ih
      split
      · simp
      · exact ho

/-- Whether a string is open after some markup does not depend on spaces in it. -/
theorem quoteAfter_respaced {a g g' b : Text} (hg : ∀ c ∈ g, c = ' ') (hg' : ∀ c ∈ g', c = ' ') :
    quoteAfter none (a ++ (g ++ b)) = quoteAfter none (a ++ (g' ++ b)) := by
  have ha : ∀ c ∈ quoteAfter none a, isQuote c = true := isQuote_quoteAfter (by simp) a
  rw [quoteAfter_append, quoteAfter_append _ g, quoteAfter_spaces hg ha, quoteAfter_append none a,
    quoteAfter_append _ g', quoteAfter_spaces hg' ha]

/-- A flaw that comes before a mended one was there before. -/
theorem Flaw.of_before {p' g' v : Text} (hv : v ≠ [])
    (h : Flaw separators (p' ++ (g' ++ v)) g q) (h' : Flaw separators p' g' (v ++ ' ' :: q)) :
    Flaw separators p' g' (v ++ (g ++ q)) := by
  obtain ⟨x, v, rfl⟩ := List.exists_cons_of_ne_nil hv
  generalize hq' : (x :: v) ++ ' ' :: q = q' at h'
  -- each kind of flaw looks at the text behind it up to its first character, which is in `v`
  cases h' with
  | lead hu hp hf hd =>
    obtain ⟨c, r, rfl, hc⟩ := hf
    obtain rfl : x = c := (List.cons.inj hq').1
    refine .lead hu ?_ ⟨x, _, rfl, hc⟩ ?_
    · rcases hp with ⟨rfl, hp⟩ | rfl
      · refine Or.inl ⟨rfl, ?_⟩
        cases g' with
        | nil => exact hp
        | cons y g' => exact hp
      · exact Or.inr rfl
    · -- were a lone dash behind `g'`, the other gap would stand behind that dash and be no flaw
      intro hdash
      simp only [List.cons_append, List.cons.injEq, List.append_eq_nil_iff] at hdash
      obtain ⟨rfl, rfl, rfl, rfl⟩ := hdash
      exact h.getLast?_ne_dash rfl (by simp)
  | trail _ hd =>
    rcases hd with ⟨rfl, -⟩ | rfl <;> simp at hq'
  | @separator p g' r s c hsep hu hq hs hc h0 h1 =>
    obtain rfl : x = c := (List.cons.inj hq').1
    exact .separator hsep hu hq hs hc h0 h1

/-- A flaw that comes after a mended one was there before. -/
theorem Flaw.of_after {g' q' v : Text} (hv : v ≠ [])
    (h : Flaw separators p g (v ++ (g' ++ q'))) (h' : Flaw separators (p ++ ' ' :: v) g' q') :
    Flaw separators (p ++ (g ++ v)) g' q' := by
  rcases List.eq_nil_or_concat v with rfl | ⟨v, x, rfl⟩
  · exact absurd rfl hv
  rw [List.concat_eq_append] at h h' ⊢
  generalize hp' : p ++ ' ' :: (v ++ [x]) = p' at h'
  -- each kind looks at the text before it only up to its last character, which is in `v`
  cases h' with
  | lead hu hp =>
    rcases hp with ⟨rfl, -⟩ | rfl
    · simp at hp'
    · have hlen := congrArg List.length hp'
      simp only [List.length_append, List.length_cons, List.length_nil] at hlen
      omega
  | trail hu hd hf hne =>
    obtain ⟨r, c, rfl, hc⟩ := hf
    obtain ⟨-, hxc⟩ : p ++ ' ' :: v = r ∧ [x] = [c] := List.append_inj' (by simpa using hp') rfl
    obtain rfl : x = c := (List.cons.inj hxc).1
    refine .trail hu ?_ ⟨p ++ (g ++ v), x, by simp, hc⟩ ?_
    · rcases hd with ⟨rfl, hd⟩ | rfl
      · refine Or.inl ⟨rfl, ?_⟩
        rw [← hp'] at hd
        have h1 : p ++ ' ' :: (v ++ [x]) ++ g' = (p ++ ' ' :: v) ++ ([x] ++ g') := by simp
        have h2 : p ++ (g ++ (v ++ [x])) ++ g' = (p ++ (g ++ v)) ++ ([x] ++ g') := by simp
        rw [h1, List.getLast?_append_of_ne_nil _ (by simp)] at hd
        rwa [h2, List.getLast?_append_of_ne_nil _ (by simp)]
      · exact Or.inr rfl
    · -- were a lone dash in front of `g'`, the other gap would stand before that dash and be no flaw
      intro hdash
      have hlen := congrArg List.length hdash
      simp only [List.length_append, List.length_cons, List.length_nil] at hlen
      obtain rfl : p = [] := List.eq_nil_of_length_eq_zero (by omega)
      obtain rfl : g = [] := List.eq_nil_of_length_eq_zero (by omega)
      obtain rfl : v = [] := List.eq_nil_of_length_eq_zero (by omega)
      obtain rfl : x = '-' := by simpa using hdash
      exact h.head?_ne_dash rfl rfl
  | @separator r g' t s c hsep hu hq hs hc h0 h1 =>
    obtain ⟨rfl, hxs⟩ : p ++ ' ' :: v = r ∧ [x] = [s] := List.append_inj' (by simpa using hp') rfl
    obtain rfl : x = s := (List.cons.inj hxs).1
    -- the spaces in `p` change no quote, so the separator stands outside strings as before
    have hquote : quoteAfter none (p ++ (g ++ v)) = none := by
      have hspace : ∀ c ∈ [' '], c = ' ' := by simp
      rw [quoteAfter_respaced h.uneven.isGap hspace]
      exact hq
    have := Flaw.separator hsep hu hquote hs hc h0 h1 (q := t)
    simpa using this

/-- **What is a flaw after one is mended was a flaw before**, further left or further right. -/
theorem Flaw.of_mended {p' g' q' : Text} (h : Flaw separators p g q)
    (h' : Flaw separators p' g' q') (heq : p ++ ' ' :: q = p' ++ (g' ++ q')) :
    (∃ v, v ≠ [] ∧ p = p' ++ (g' ++ v) ∧ Flaw separators p' g' (v ++ (g ++ q))) ∨
    ∃ v, v ≠ [] ∧ q = v ++ (g' ++ q') ∧ Flaw separators (p ++ (g ++ v)) g' q' := by
  rcases List.append_eq_append_iff.1 heq with ⟨u, rfl, hr⟩ | ⟨u, rfl, hr⟩
  · cases u with
    | nil =>
      -- the one space is no flaw: there is no second one
      rw [List.nil_append] at hr
      rcases h'.uneven with rfl | ⟨k, rfl⟩
      · rw [List.nil_append] at hr
        exact absurd (by rw [← hr]; rfl) h'.head?_ne
      · have hq : q = List.replicate (k + 1) ' ' ++ q' := (List.cons.inj hr).2
        exact absurd (by rw [hq]; rfl) h.head?_ne
    | cons x v =>
      obtain ⟨rfl, rfl⟩ := List.cons.inj hr
      have hv : v ≠ [] := by
        rintro rfl
        exact h'.getLast?_ne (by rw [List.getLast?_concat])
      exact Or.inr ⟨v, hv, rfl, h.of_after hv h'⟩
  · by_cases hnil : u = []
    · subst hnil
      rw [List.nil_append] at hr
      rcases h'.uneven with rfl | ⟨k, rfl⟩
      · rw [List.nil_append] at hr
        exact absurd (by rw [hr]; rfl) h'.head?_ne
      · have hq : List.replicate (k + 1) ' ' ++ q' = q := (List.cons.inj hr).2
        exact absurd (by rw [← hq]; rfl) h.head?_ne
    · have hlast : u.getLast? ≠ some ' ' := by
        have := h.getLast?_ne
        rwa [List.getLast?_append_of_ne_nil _ hnil] at this
      obtain ⟨v, hv, rfl, rfl⟩ := exists_append_of_spaces h'.uneven.isGap hnil hlast hr
      exact Or.inl ⟨v, hv, rfl, h.of_before hv h'⟩

/-! ### Mending many flaws -/

/-- The correction mends a flaw of the markup `m`, which starts at `offset`. -/
def Amends (separators : Bool) (offset : Nat) (m : Text) (c : Correction) : Prop :=
  ∃ p g q, m = p ++ (g ++ q) ∧ Flaw separators p g q ∧ c = amend (offset + p.size) g

/-- `m'` is `m` with one flaw mended. -/
def MendsTo (separators : Bool) (m m' : Text) : Prop :=
  ∃ p g q, m = p ++ (g ++ q) ∧ Flaw separators p g q ∧ m' = p ++ ' ' :: q

/-- Markup without flaws. -/
def Even (separators : Bool) (m : Text) : Prop :=
  ∀ p g q, m = p ++ (g ++ q) → ¬ Flaw separators p g q

theorem Even.not_amends {m : Text} (h : Even separators m) (offset : Nat) (c : Correction) :
    ¬ Amends separators offset m c := by
  rintro ⟨p, g, q, hm, hf, -⟩
  exact h p g q hm hf

theorem even_of_not_amends {m : Text} (offset : Nat)
    (h : ∀ c, ¬ Amends separators offset m c) : Even separators m :=
  fun p g q hm hf => h _ ⟨p, g, q, hm, hf, rfl⟩

theorem Amends.tidy {offset : Nat} {m : Text} {c : Correction}
    (h : Amends separators offset m c) : c.Tidy := by
  obtain ⟨p, g, q, -, -, rfl⟩ := h
  exact tidy_amend _ g

theorem Amends.text_eq {offset : Nat} {m : Text} {c : Correction}
    (h : Amends separators offset m c) : c.text = " " := by
  obtain ⟨p, g, q, -, -, rfl⟩ := h
  exact text_amend _ g

/-- The bytes of a flaw lie in the markup. -/
theorem Amends.bounds {offset : Nat} {m : Text} {c : Correction}
    (h : Amends separators offset m c) :
    offset ≤ c.range.start ∧ c.range.start ≤ c.range.stop ∧ c.range.stop ≤ offset + m.size := by
  obtain ⟨p, g, q, rfl, -, rfl⟩ := h
  simp only [range_amend, Text.size_append]
  omega

/-- Edits of different flaws of one markup are apart. -/
theorem Amends.apart {offset : Nat} {m : Text} {c d : Correction}
    (hc : Amends separators offset m c) (hd : Amends separators offset m d) (hne : c ≠ d) :
    c.Apart d := by
  obtain ⟨p, g, q, rfl, h, rfl⟩ := hc
  obtain ⟨p', g', q', heq, h', rfl⟩ := hd
  unfold Correction.Apart
  rcases h.apart h' heq with ⟨rfl, rfl, -⟩ | ⟨v, hv, rfl, -⟩ | ⟨v, hv, rfl, -⟩
  · exact absurd rfl hne
  · have hpos := Text.size_pos hv
    simp only [range_amend, Text.size_append]
    omega
  · have hpos := Text.size_pos hv
    simp only [range_amend, Text.size_append]
    omega

/-- **Mending the last of some flaws**: the others stay, clear of the mended one. -/
theorem Amends.of_before {offset : Nat} {c : Correction} (h : Flaw separators p g q)
    (hc : Amends separators offset (p ++ (g ++ q)) c)
    (hbefore : Before (amend (offset + p.size) g) c) :
    Amends separators offset (p ++ ' ' :: q) c ∧ c.range.stop ≤ offset + p.size := by
  obtain ⟨p', g', q', hm, h', rfl⟩ := hc
  rcases h.apart h' hm with ⟨rfl, rfl, -⟩ | ⟨v, hv, rfl, rfl⟩ | ⟨v, hv, rfl, rfl⟩
  · exact absurd rfl hbefore.2
  · refine ⟨⟨p', g', v ++ ' ' :: q, by simp, h.keep_before hv h', rfl⟩, ?_⟩
    simp only [range_amend, Text.size_append]
    omega
  · -- a flaw further right would have come first
    have hle := hbefore.start_le
    have hpos := Text.size_pos hv
    simp only [range_amend, Text.size_append] at hle
    omega

/-- **Mending the last flaw** makes no new ones. -/
theorem Amends.of_mended {offset : Nat} {c : Correction} (h : Flaw separators p g q)
    (hlast : ∀ d, Amends separators offset (p ++ (g ++ q)) d → d.range.start ≤ offset + p.size)
    (hc : Amends separators offset (p ++ ' ' :: q) c) :
    Amends separators offset (p ++ (g ++ q)) c ∧ c ≠ amend (offset + p.size) g := by
  obtain ⟨p', g', q', hm, h', rfl⟩ := hc
  rcases h.of_mended h' hm with ⟨v, hv, rfl, h1⟩ | ⟨v, hv, rfl, h1⟩
  · refine ⟨⟨p', g', v ++ (g ++ q), by simp, h1, rfl⟩, fun he => ?_⟩
    have hs := congrArg (·.range.start) he
    have hpos := Text.size_pos hv
    simp only [range_amend, Text.size_append] at hs
    omega
  · have hle := hlast _ ⟨p ++ (g ++ v), g', q', by simp, h1, rfl⟩
    have hpos := Text.size_pos hv
    simp only [range_amend, Text.size_append] at hle
    omega

/-- The edit that mends a flaw, as a run over what the flaw stands in. -/
theorem runs_amend {source : Text} {offset : Nat} (hg : Text.Stands source offset g) :
    Runs source [amend offset g] offset (g ++ q) (' ' :: q) := by
  have h : Runs source [amend offset g] offset g [' '] := by
    have := Runs.single hg (c := amend offset g) (by simp) (by simp)
    rwa [text_amend] at this
  exact Runs.nil.append h

/-- **A run of edits** that mend flaws in the part `u` of some markup mends them all. Flaws further left
stay as they are, and when all flaws in `u` and further right are among those mended, only flaws
further left are there in the end. -/
theorem run_flaws {source : Text} (separators : Bool) (offset : Nat) (a u v : Text)
    {L : List Correction}
    (hsource : Text.Stands source (offset + a.size) u) (hL : L.Pairwise Before)
    (hflaw : ∀ c ∈ L, Amends separators offset (a ++ (u ++ v)) c ∧
      offset + a.size ≤ c.range.start ∧ c.range.stop ≤ offset + a.size + u.size) :
    ∃ u', Runs source L (offset + a.size) u u' ∧
      Relation.ReflTransGen (MendsTo separators) (a ++ (u ++ v)) (a ++ (u' ++ v)) ∧
      (∀ c, Amends separators offset (a ++ (u ++ v)) c → c.range.start < offset + a.size →
        Amends separators offset (a ++ (u' ++ v)) c) ∧
      ((∀ c, Amends separators offset (a ++ (u ++ v)) c →
          c ∈ L ∨ c.range.start < offset + a.size) →
        ∀ c, Amends separators offset (a ++ (u' ++ v)) c →
          Amends separators offset (a ++ (u ++ v)) c ∧ c.range.start < offset + a.size) := by
  induction L generalizing u v with
  | nil =>
    refine ⟨u, Runs.nil, .refl, fun c hc _ => hc, fun hall c hc => ⟨hc, ?_⟩⟩
    exact (hall c hc).resolve_left (by simp)
  | cons c L ih =>
    obtain ⟨⟨p, g, q, hm, hf, rfl⟩, hstart, hstop⟩ := hflaw c (List.mem_cons_self ..)
    simp only [range_amend] at hstart hstop
    -- the flaw lies in `u`
    obtain ⟨p₁, rfl, hrest⟩ := Text.exists_append_of_size_le hm (by omega)
    rw [← List.append_assoc] at hrest
    have hsize : Text.size (p₁ ++ g) ≤ u.size := by
      simp only [Text.size_append] at hstop ⊢
      omega
    obtain ⟨q₁, hu, rfl⟩ := Text.exists_append_of_size_le hrest.symm hsize
    rw [List.append_assoc] at hu
    subst hu
    rw [hm] at hflaw ⊢
    have hbefore : ∀ d ∈ L, Before (amend (offset + Text.size (a ++ p₁)) g) d :=
      (List.pairwise_cons.1 hL).1
    have hform : (a ++ p₁) ++ ' ' :: (q₁ ++ v) = a ++ (p₁ ++ ' ' :: (q₁ ++ v)) := by simp
    have hkept : ∀ d, Amends separators offset ((a ++ p₁) ++ (g ++ (q₁ ++ v))) d →
        Before (amend (offset + Text.size (a ++ p₁)) g) d →
        Amends separators offset (a ++ (p₁ ++ ' ' :: (q₁ ++ v))) d ∧
          d.range.stop ≤ offset + a.size + p₁.size := by
      intro d hd hb
      obtain ⟨h1, h2⟩ := hd.of_before hf hb
      rw [hform] at h1
      simp only [Text.size_append] at h2
      exact ⟨h1, by omega⟩
    obtain ⟨u', hruns, hmends, hleft, hall⟩ := ih p₁ (' ' :: (q₁ ++ v))
      hsource.left hL.of_cons fun d hd => by
        obtain ⟨h1, h2, -⟩ := hflaw d (List.mem_cons_of_mem _ hd)
        obtain ⟨h3, h4⟩ := hkept d h1 (hbefore d hd)
        exact ⟨h3, h2, h4⟩
    have hedit : Runs source [amend (offset + Text.size (a ++ p₁)) g] (offset + a.size + p₁.size)
        (g ++ q₁) (' ' :: q₁) := by
      rw [Text.size_append, ← Nat.add_assoc]
      exact runs_amend hsource.right.left
    have hform' : a ++ (u' ++ ' ' :: (q₁ ++ v)) = a ++ ((u' ++ ' ' :: q₁) ++ v) := by simp
    rw [hform'] at hmends hleft hall
    refine ⟨u' ++ ' ' :: q₁, hedit.append hruns, ?_, fun d hd hlt => ?_, fun hevery d hd => ?_⟩
    · exact .head ⟨a ++ p₁, g, q₁ ++ v, rfl, hf, rfl⟩ (hform ▸ hmends)
    · have hb : Before (amend (offset + Text.size (a ++ p₁)) g) d := by
        have hlt' : d.range.start < offset + Text.size (a ++ p₁) := by
          rw [Text.size_append]
          omega
        exact Before.of_start_lt (by simpa using hlt')
      exact hleft d (hkept d hd hb).1 hlt
    · -- the first edit is the one of the last flaw
      have hmax : ∀ d, Amends separators offset ((a ++ p₁) ++ (g ++ (q₁ ++ v))) d →
          d.range.start ≤ offset + Text.size (a ++ p₁) := by
        intro d hd
        rcases hevery d hd with hd | hd
        · rcases List.mem_cons.1 hd with rfl | hd
          · simp
          · simpa using (hbefore d hd).start_le
        · rw [Text.size_append]
          omega
      have hold : ∀ d, Amends separators offset (a ++ (p₁ ++ ' ' :: (q₁ ++ v))) d →
          Amends separators offset ((a ++ p₁) ++ (g ++ (q₁ ++ v))) d ∧
            d ≠ amend (offset + Text.size (a ++ p₁)) g := by
        intro d hd
        rw [← hform] at hd
        exact hd.of_mended hf hmax
      have hothers : ∀ d, Amends separators offset (a ++ (p₁ ++ ' ' :: (q₁ ++ v))) d →
          d ∈ L ∨ d.range.start < offset + a.size := by
        intro d hd
        obtain ⟨h1, hne⟩ := hold d hd
        exact (hevery d h1).imp_left fun hd => (List.mem_cons.1 hd).resolve_left hne
      obtain ⟨h1, h2⟩ := hall hothers d hd
      exact ⟨(hold d h1).1, h2⟩

end LiquidLint.Spacing
