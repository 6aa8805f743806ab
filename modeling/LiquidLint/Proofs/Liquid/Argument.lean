import LiquidLint.Liquid.Lookup
import LiquidLint.Proofs.Liquid.Tiling
import LiquidLint.Proofs.Spacing.Rename
import LiquidLint.Proofs.Text.Within

/-!
# The first argument of a tag

The arguments of a tag are read from its trimmed markup, behind the name. `Quotes` says of the
markup as it is written that the first argument is a string: behind the name and blanks a text
stands between two quotes of one kind. Main statement: `stringArgument?_eq_some_iff_quotes`. What is
trimmed at the end is blanks and a dash, so it cannot contain the closing quote.

The arguments do not depend on the name (`tagArguments_lead`), and every tag of a tree has its
markup where its node says (`Node.Placed.exists_markup`).
-/

namespace LiquidLint.Liquid

open Token (IsGap IsDash tagLexeme)

/-! ### Strings -/

theorem cut?_singleton_eq_some_iff {q : Char} {t l r : Text} :
    Text.cut? [q] t = some (l, r) ↔ q ∉ l ∧ t = l ++ q :: r := by
  induction t generalizing l with
  | nil => simp [Text.cut?]
  | cons c t ih =>
    unfold Text.cut?
    by_cases hc : q = c
    · subst hc
      have hdrop : Text.dropStart? [q] (q :: t) = some t := Text.dropStart?_append [q] t
      rw [hdrop]
      -- a cut here leaves nothing on the left, so a nonempty `l` would have to start with `q` itself
      cases l with
      | nil => simp
      | cons d l =>
        refine iff_of_false (fun h => by cases h) ?_
        rintro ⟨hq, h⟩
        exact hq ((List.cons.inj h).1 ▸ List.mem_cons_self ..)
    · have hdrop : Text.dropStart? [q] (c :: t) = none := by
        unfold Text.dropStart?
        rw [if_neg hc]
      rw [hdrop]
      dsimp only
      rw [Option.map_eq_some_iff]
      -- the text starts with another character, which the cut of the tail leaves in front
      constructor
      · rintro ⟨⟨l', r'⟩, h, heq⟩
        obtain ⟨rfl, rfl⟩ := Prod.mk.inj heq
        obtain ⟨hq, rfl⟩ := ih.1 h
        exact ⟨by simp [hc, hq], rfl⟩
      · rintro ⟨hq, h⟩
        cases l with
        | nil => exact absurd (List.cons.inj h).1.symm hc
        | cons d l =>
          obtain ⟨rfl, rfl⟩ := List.cons.inj h
          rw [List.mem_cons, not_or] at hq
          exact ⟨(l, r), ih.2 ⟨hq.2, rfl⟩, rfl⟩

theorem not_isBlank_of_isQuote {q : Char} (h : isQuote q = true) : isBlank q = false ∧ q ≠ '-' := by
  unfold isQuote at h
  rw [Bool.or_eq_true, beq_iff_eq, beq_iff_eq] at h
  rcases h with rfl | rfl <;> exact ⟨rfl, by decide⟩

/-- A string is an argument when it comes first, but for blanks. -/
theorem stringArgument?_eq_some_iff {t : Text} {name : String} : stringArgument? t = some name ↔
    ∃ gap q rest, IsGap gap ∧ isQuote q = true ∧ q ∉ name.toList ∧
      t = gap ++ q :: (name.toList ++ q :: rest) := by
  unfold stringArgument?
  constructor
  · intro h
    obtain ⟨gap, hgap, ht⟩ := Token.exists_append_trimStart t
    split at h
    · cases h
    · next q rest htrim =>
      split at h
      · next hq =>
        obtain ⟨⟨l, r⟩, hcut, rfl⟩ := Option.map_eq_some_iff.1 h
        obtain ⟨hmem, rfl⟩ := cut?_singleton_eq_some_iff.1 hcut
        exact ⟨gap, q, r, hgap, hq, by simpa using hmem, by rw [ht, htrim, String.toList_ofList]⟩
      · cases h
  · rintro ⟨gap, q, rest, hgap, hq, hmem, rfl⟩
    have htrim : Text.trimStart (gap ++ q :: (name.toList ++ q :: rest)) =
        q :: (name.toList ++ q :: rest) :=
      Token.trimStart_append hgap (by simpa using (not_isBlank_of_isQuote hq).1)
    rw [htrim]
    dsimp only
    rw [if_pos hq, cut?_singleton_eq_some_iff.2 ⟨hmem, rfl⟩, Option.map_some, String.ofList_toList]

/-! ### Arguments behind a name -/

/-- The markup of a tag has a string as its first argument. -/
def Quotes (m tag name : Text) : Prop :=
  ∃ lead gap q rest, IsLead lead ∧ IsGap gap ∧ isQuote q = true ∧ q ∉ name ∧
    m = lead ++ (tag ++ (gap ++ q :: (name ++ q :: rest)))

/-- Arguments are what is left behind the name. -/
theorem tagArguments_lead {lead w : Text} (hl : IsLead lead) (hw : IsSolid w) (tail : Text) :
    tagArguments w (trimMarkup (lead ++ (w ++ tail))) = (trimTail tail).trimStart := by
  rw [trimMarkup_lead hl hw, tagArguments, Text.dropStart?_append]

/-- Trimming leaves what a quote closes. -/
theorem exists_trimTail_eq {p r : Text} {q : Char} (hq : isQuote q = true) :
    ∃ rest, trimTail (p ++ q :: r) = p ++ q :: rest := by
  obtain ⟨g, d, g', hg, hd, hg', htail⟩ := exists_trimTail_append (p ++ q :: r)
  have hnot : q ∉ g ++ (d ++ g') := by
    obtain ⟨hblank, hdash⟩ := not_isBlank_of_isQuote hq
    have hgap : ∀ g, IsGap g → q ∉ g := fun g hg hmem => by rw [hg q hmem] at hblank; cases hblank
    rw [List.mem_append, List.mem_append]
    rintro (h | h | h)
    · exact hgap g hg h
    · rcases hd with rfl | rfl
      · cases h
      · exact hdash (List.mem_singleton.1 h)
    · exact hgap g' hg' h
  have hsplit : (p ++ [q]) ++ r = trimTail (p ++ q :: r) ++ (g ++ (d ++ g')) := by
    rw [← htail]
    simp
  rcases List.append_eq_append_iff.1 hsplit with ⟨rest, htrim, -⟩ | ⟨u, hclosed, htrail⟩
  · exact ⟨rest, by rw [htrim]; simp⟩
  · -- the quote would be among what is taken away, unless that starts right behind it
    rcases List.eq_nil_or_concat u with rfl | ⟨v, x, rfl⟩
    · exact ⟨[], by simpa using hclosed.symm⟩
    · rw [List.concat_eq_append, ← List.append_assoc] at hclosed
      have hx : q = x := by simpa using (List.append_inj' hclosed rfl).2
      exact absurd (htrail ▸ by simp [hx]) hnot

/-- **When the first argument is a string** is seen in the markup as it is written. -/
theorem stringArgument?_eq_some_iff_quotes {m : Text} {tag name : String} (hw : IsWord tag.toList)
    (hm : nameOf m = tag) : stringArgument? (tagArguments tag.toList (trimMarkup m)) = some name ↔
      Quotes m tag.toList name.toList := by
  obtain ⟨lead, tail, hl, -, rfl⟩ := (nameOf_eq_word_iff hw).1 hm
  rw [tagArguments_lead hl hw.solid, stringArgument?_eq_some_iff]
  constructor
  · -- the markup was trimmed before it was read: the gaps trimmed from it are put back
    rintro ⟨gap, q, rest, hgap, hq, hmem, hargs⟩
    obtain ⟨front, hfront, htrim⟩ := Token.exists_append_trimStart (trimTail tail)
    obtain ⟨g, d, g', -, -, -, htail⟩ := exists_trimTail_append tail
    refine ⟨lead, front ++ gap, q, rest ++ (g ++ (d ++ g')), hl, hfront.append hgap, hq, hmem, ?_⟩
    rw [htail, htrim, hargs]
    simp
  · rintro ⟨lead', gap, q, rest, hl', hgap, hq, hmem, heq⟩
    have hlead : lead = lead' := by
      rw [← Spacing.takeWhile_lead hl hw tail, heq, Spacing.takeWhile_lead hl' hw]
    subst hlead
    obtain rfl := List.append_cancel_left (List.append_cancel_left heq)
    -- trimming the end cannot reach past the closing quote
    obtain ⟨rest', htrim⟩ := exists_trimTail_eq (p := gap ++ q :: name.toList) (r := rest) hq
    have htext : gap ++ q :: (name.toList ++ q :: rest) = (gap ++ q :: name.toList) ++ q :: rest := by
      simp
    refine ⟨[], q, rest', isGap_nil, hq, hmem, ?_⟩
    rw [htext, htrim, List.append_assoc, Token.trimStart_append hgap]
    · simp
    · simpa using (not_isBlank_of_isQuote hq).1

/-! ### Tags of a tree -/

/-- **The markup of a tag** stands behind the opening delimiter and names the tag. -/
theorem Node.Placed.exists_markup {source : Text} {n : Node} (h : n.Placed source)
    (hn : n.isTag = true) : ∃ m, Text.Stands source (n.span.start + 2) m ∧
      n.markupSpan = ⟨n.span.start + 2, n.span.start + 2 + m.size⟩ ∧ nameOf m = n.typeName := by
  obtain ⟨kind, ⟨start, stop⟩, ⟨mstart, mstop⟩, children⟩ := n
  have htag : ∀ name, mstart = start + 2 → IsTagAt source ⟨start, mstop + 2⟩ name →
      ∃ m, Text.Stands source (start + 2) m ∧
        (⟨mstart, mstop⟩ : Span) = ⟨start + 2, start + 2 + m.size⟩ ∧ nameOf m = name := by
    rintro name rfl ⟨m, hslice, -, hname⟩
    obtain ⟨hstands, hwithin⟩ := Span.within_of_slice? hslice
    have hstop := hwithin.stands.2
    rw [Text.slice, hslice, Option.getD_some, Body.size_tagLexeme] at hstop
    refine ⟨m, (Text.Stands.right (s := ['{', '%']) hstands).left, ?_, hname⟩
    have hmstop : mstop + 2 = start + (m.size + 4) := hstop
    rw [Span.mk.injEq]
    omega
  cases kind with
  | tag name block =>
    cases block with
    | false => exact htag name h.2.1.markup_start (by rw [← h.2.2.1]; exact h.2.2.2)
    | true => exact htag name h.1.markup_start h.2.1
  | _ => cases hn

end LiquidLint.Liquid
