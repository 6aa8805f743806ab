import LiquidLint.Proofs.Spacing.Mending

/-!
# Spaces outside strings

What white space stands inside a string is part of what the string says. A `SpaceStep` puts one space
into markup or takes one out of it, but not between the quotes of a string, and mending a flaw is a
number of such steps: `differsBySpaces_of_mendsTo`. A flaw is no part of a string because it stands at
an end of the markup or after a separator at which no string is open (`Flaw.not_inString`). A quote
that is never closed opens no string in this sense: the last flaw of `a ' b` stands behind it.
-/

namespace LiquidLint.Spacing

open Liquid (isQuote)

variable {separators : Bool} {p g q m m' : Text}

/-- A string is open between `p` and `r`, and its quote comes again in `r`. -/
def InString (p r : Text) : Prop := ∃ x, quoteAfter none p = some x ∧ x ∈ r

/-- One space is put into the markup `m` or taken out of it, not inside a string, and gives `m'`. -/
inductive SpaceStep : Text → Text → Prop where
  | insert {p r : Text} : ¬ InString p r → SpaceStep (p ++ r) (p ++ ' ' :: r)
  | delete {p r : Text} : ¬ InString p r → SpaceStep (p ++ ' ' :: r) (p ++ r)

/-- Spaces are put into the markup `m` or taken out of it, none inside a string, and give `m'`. -/
def DiffersBySpaces (m m' : Text) : Prop := Relation.ReflTransGen SpaceStep m m'

/-- Spaces close no string. -/
theorem inString_append {g : Text} (hg : ∀ c ∈ g, c = ' ') :
    InString p (g ++ q) ↔ InString p q := by
  have hopen : ∀ x ∈ quoteAfter none p, isQuote x = true := isQuote_quoteAfter (by simp) p
  constructor
  · rintro ⟨x, hx, hmem⟩
    refine ⟨x, hx, (List.mem_append.1 hmem).resolve_left fun hspace => ?_⟩
    have hquote := hopen x hx
    rw [hg x hspace] at hquote
    exact absurd hquote (by decide)
  · rintro ⟨x, hx, hmem⟩
    exact ⟨x, hx, List.mem_append_right g hmem⟩

/-- **Flaws stand outside strings.** -/
theorem Flaw.not_inString (h : Flaw separators p g q) : ¬ InString p (g ++ q) := by
  rw [inString_append h.uneven.isGap]
  rintro ⟨x, hopen, hx⟩
  have hquote : isQuote x = true := isQuote_quoteAfter (by simp) p x hopen
  cases h with
  | lead _ hp =>
    rcases hp with ⟨rfl, -⟩ | rfl
    · cases hopen
    · have hdash : quoteAfter none ['-'] = none := by decide
      rw [hdash] at hopen
      cases hopen
  | trail _ hq =>
    -- a string may be open here, but only a dash follows
    rcases hq with ⟨rfl, -⟩ | rfl
    · cases hx
    · rw [List.mem_singleton.1 hx] at hquote
      exact absurd hquote (by decide)
  | @separator p g q s c _ _ hnone hs =>
    have hplain : isQuote s = false := by
      simp only [isSeparator, Bool.or_eq_true, beq_iff_eq] at hs
      rcases hs with rfl | rfl <;> rfl
    rw [quoteAfter_append, hnone, quoteAfter, hplain] at hopen
    cases hopen

/-- Of several spaces all but one are taken out. -/
theorem differsBySpaces_replicate (h : ¬ InString p q) (k : Nat) :
    DiffersBySpaces (p ++ (List.replicate (k + 1) ' ' ++ q)) (p ++ ' ' :: q) := by
  induction k with
  | zero => exact .refl
  | succ k ih =>
    have hspaces : ∀ c ∈ List.replicate (k + 1) ' ', c = ' ' := fun c => List.eq_of_mem_replicate
    have hout : ¬ InString p (List.replicate (k + 1) ' ' ++ q) := by rwa [inString_append hspaces]
    exact .head (.delete hout) ih

/-- Mending a flaw puts in a space or takes some out, outside strings. -/
theorem MendsTo.differsBySpaces (h : MendsTo separators m m') : DiffersBySpaces m m' := by
  obtain ⟨p, g, q, rfl, hflaw, rfl⟩ := h
  have hout : ¬ InString p (g ++ q) := hflaw.not_inString
  rcases hflaw.uneven with rfl | ⟨k, rfl⟩
  · exact .single (.insert hout)
  · rw [inString_append hflaw.uneven.isGap] at hout
    exact differsBySpaces_replicate hout (k + 1)

/-- **Mending flaws** only puts in spaces and takes some out, outside strings. -/
theorem differsBySpaces_of_mendsTo (h : Relation.ReflTransGen (MendsTo separators) m m') :
    DiffersBySpaces m m' := by
  induction h with
  | refl => exact .refl
  | tail _ hstep ih => exact ih.trans hstep.differsBySpaces

end LiquidLint.Spacing
