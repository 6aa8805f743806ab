import LiquidLint.Proofs.Liquid.Body
import LiquidLint.Proofs.Spacing.Rename

/-!
# End tags and their flaws

The white space of an end tag is checked from the last opening delimiter on that stands in the
block, which need not be that of the end tag: its markup may hold another one. `LastPiece` cuts the
markup there, `endMarkup?_eq` says what is looked at, and `run_ending` what a round of edits makes of
it.
-/

namespace LiquidLint.Spacing

open Correction (Before Runs)
open Liquid (Node)
open Liquid.Token (ClosedBy tagLexeme)

variable {m a q a' q' : Text}

/-! ### The last piece of markup -/

/-- The markup `m` falls into `a` and `q` at the last opening delimiter in it, if any. -/
structure LastPiece (m a q : Text) : Prop where
  eq_append : m = a ++ q
  /-- The first part is empty or ends with the delimiter. -/
  opens : a = [] ∨ ∃ b, a = b ++ ['{', '%']
  /-- No delimiter stands in the second part. -/
  closed : ClosedBy '{' '%' q

theorem closedBy_brace_iff : ClosedBy '{' '%' q ↔ ¬ ['{', '%'] <:+: q := by
  refine not_congr ⟨fun h => ?_, fun h => h.trans (List.prefix_append _ _).isInfix⟩
  rcases Text.pair_infix_append h with h | h | ⟨-, h⟩
  · exact h
  · have := h.length_le
    simp at this
  · exact absurd h (by decide)

theorem exists_lastPiece (m : Text) : ∃ a q, LastPiece m a q := by
  -- by induction from the left: a longer text keeps its last piece, unless its first two characters
  -- are the opening of a tag
  induction m with
  | nil => exact ⟨[], [], rfl, Or.inl rfl, closedBy_brace_iff.2 (by simp)⟩
  | cons c m ih =>
    obtain ⟨a, q, rfl, hopens, hclosed⟩ := ih
    rcases hopens with rfl | ⟨b, rfl⟩
    · -- the new character completes an opener in front of the piece
      by_cases hpair : ∃ r, c = '{' ∧ q = '%' :: r
      · obtain ⟨r, rfl, rfl⟩ := hpair
        refine ⟨['{', '%'], r, rfl, Or.inr ⟨[], rfl⟩, ?_⟩
        rw [closedBy_brace_iff] at hclosed ⊢
        exact fun h => hclosed (h.trans (List.suffix_cons _ _).isInfix)
      · refine ⟨[], c :: q, rfl, Or.inl rfl, ?_⟩
        rw [closedBy_brace_iff] at hclosed ⊢
        intro h
        rcases Text.pair_infix_append (s := [c]) (t := q) h with h | h | ⟨h1, h2⟩
        · have := h.length_le
          simp at this
        · exact hclosed h
        · cases q with
          | nil => cases h2
          | cons d q => exact hpair ⟨q, Option.some.inj h1, by rw [Option.some.inj h2]⟩
    · exact ⟨c :: (b ++ ['{', '%']), q, rfl, Or.inr ⟨c :: b, rfl⟩, hclosed⟩

theorem LastPiece.getLast? (h : LastPiece m a q) : a = [] ∨ a.getLast? = some '%' := by
  rcases h.opens with rfl | ⟨b, rfl⟩
  · exact Or.inl rfl
  · exact Or.inr (by simp)

/-- Of two places to cut neither lies after the other. -/
theorem LastPiece.eq_nil {u : Text} (h : LastPiece m a (u ++ q)) (h' : LastPiece m (a ++ u) q) :
    u = [] := by
  rcases List.eq_nil_or_concat u with rfl | ⟨u, x, rfl⟩
  · rfl
  exfalso
  rw [List.concat_eq_append] at h h'
  rcases h'.opens with h0 | ⟨b, hb⟩
  · simp at h0
  have hcut : (a ++ u) ++ [x] = (b ++ ['{']) ++ ['%'] := by simpa using hb
  obtain ⟨hau, hx⟩ := List.append_inj' hcut rfl
  obtain rfl : x = '%' := (List.cons.inj hx).1
  rcases List.eq_nil_or_concat u with rfl | ⟨u, y, rfl⟩
  · -- the delimiter would straddle the first place
    rw [List.append_nil] at hau
    rcases h.getLast? with rfl | hlast
    · simp at hau
    · rw [hau, List.getLast?_concat] at hlast
      exact absurd hlast (by decide)
  · rw [List.concat_eq_append, ← List.append_assoc] at hau
    obtain ⟨-, hy⟩ := List.append_inj' hau rfl
    obtain rfl : y = '{' := (List.cons.inj hy).1
    exact closedBy_brace_iff.1 h.closed ⟨u, q, by simp⟩

theorem LastPiece.unique (h : LastPiece m a q) (h' : LastPiece m a' q') : a = a' ∧ q = q' := by
  have heq : a ++ q = a' ++ q' := h.eq_append.symm.trans h'.eq_append
  rcases List.append_eq_append_iff.1 heq with ⟨u, rfl, rfl⟩ | ⟨u, rfl, rfl⟩
  · have hu := h.eq_nil h'
    simp [hu]
  · have hu := h'.eq_nil h
    simp [hu]

/-! ### What is looked at -/

/-- Whether markup starts with `end` after dashes and blanks. -/
def startsEnd (q : Text) : Bool :=
  (Text.dropStart? ['e', 'n', 'd'] (q.dropWhile fun c => c == '-' || isBlank c)).isSome

/-- **The markup looked at** at the end of a block whose end tag comes after `t`. -/
theorem endMarkup?_eq {n : Node} {source t : Text} {offset : Nat} (h : LastPiece m a q)
    (hsource : Text.Stands source offset (t ++ tagLexeme m))
    (hspan : n.span = ⟨offset, offset + Text.size (t ++ tagLexeme m)⟩)
    (hstop : n.markupSpan.stop < offset + t.size + 2) :
    endMarkup? n source =
      if startsEnd q then
        some ⟨offset + t.size + 2 + a.size, offset + t.size + 2 + a.size + q.size⟩
      else none := by
  obtain ⟨rfl, hopens, hclosed⟩ := h
  -- what comes before the last opening delimiter
  obtain ⟨b, hb, hsize⟩ : ∃ b : Text, t ++ '{' :: '%' :: (a ++ q) = b ++ '{' :: '%' :: q ∧
      b.size = t.size + a.size := by
    have h1 : ('{' : Char).utf8Size = 1 := rfl
    have h2 : ('%' : Char).utf8Size = 1 := rfl
    rcases hopens with rfl | ⟨b, rfl⟩
    · exact ⟨t, rfl, by simp⟩
    · refine ⟨t ++ '{' :: '%' :: b, by simp, ?_⟩
      simp only [Text.size_append, Text.size_cons, Text.size_nil, h1, h2]
      omega
  have hlexeme : t ++ tagLexeme (a ++ q) = (b ++ '{' :: '%' :: q) ++ ['%', '}'] := by
    rw [← hb]
    simp [tagLexeme]
  have hnode : n.source source = (b ++ '{' :: '%' :: q) ++ ['%', '}'] := by
    rw [Node.source, hspan, hsource.slice, hlexeme]
  have hcut : Text.cut? ['%', '{'] (b ++ '{' :: '%' :: q).reverse = some (q.reverse, b.reverse) := by
    have hrev : (b ++ '{' :: '%' :: q).reverse = q.reverse ++ '%' :: '{' :: b.reverse := by simp
    rw [hrev]
    refine Text.cut?_pair fun h => closedBy_brace_iff.1 hclosed ?_
    have h' : ['{', '%'] <:+: ['%'] ++ q := by
      have := List.reverse_infix.2 h
      simpa using this
    rcases Text.pair_infix_append h' with h | h | ⟨h, -⟩
    · have := h.length_le
      simp at this
    · exact h
    · exact absurd h (by decide)
  have hsizes : offset + t.size + 2 + a.size = offset + Text.size b.reverse + 2 := by
    rw [Text.size_reverse]
    omega
  have hend : n.span.stop - 2 = offset + t.size + 2 + a.size + q.size := by
    rw [hspan]
    simp only [Text.size_append, Liquid.Body.size_tagLexeme]
    omega
  have hpiece : Text.Stands source (offset + t.size + 2 + a.size) q := by
    have hm : Text.Stands source (offset + t.size + 2) ((a ++ q) ++ ['%', '}']) :=
      Text.Stands.right (s := ['{', '%']) hsource.right
    exact hm.left.right
  have hstart : n.span.start + Text.size b.reverse + 2 = offset + t.size + 2 + a.size := by
    rw [hspan]
    exact hsizes.symm
  have hlt : decide (n.markupSpan.stop < offset + t.size + 2 + a.size) = true :=
    decide_eq_true (by omega)
  simp only [endMarkup?, hnode, Text.dropStop?_eq_some_iff.2 rfl, Option.bind_eq_bind,
    Option.bind_some, hcut, hstart, hend, hpiece.slice?, hlt, Bool.true_and, startsEnd]
  rfl

/-- An edit of the white space of an end tag with markup `m` at `offset`. -/
def AmendsEnd (offset : Nat) (m : Text) (c : Correction) : Prop :=
  ∃ a q, LastPiece m a q ∧ startsEnd q = true ∧ Amends false (offset + a.size) q c

theorem AmendsEnd.bounds {offset : Nat} {c : Correction} (h : AmendsEnd offset m c) :
    offset ≤ c.range.start ∧ c.range.start ≤ c.range.stop ∧ c.range.stop ≤ offset + m.size := by
  obtain ⟨a, q, ⟨rfl, -, -⟩, -, h⟩ := h
  have := h.bounds
  rw [Text.size_append]
  omega

theorem AmendsEnd.tidy {offset : Nat} {c : Correction} (h : AmendsEnd offset m c) : c.Tidy := by
  obtain ⟨_, _, -, -, h⟩ := h
  exact h.tidy

theorem AmendsEnd.apart {offset : Nat} {c d : Correction} (hc : AmendsEnd offset m c)
    (hd : AmendsEnd offset m d) (hne : c ≠ d) : c.Apart d := by
  obtain ⟨a, q, hpiece, -, hc⟩ := hc
  obtain ⟨a', q', hpiece', -, hd⟩ := hd
  obtain ⟨rfl, rfl⟩ := hpiece.unique hpiece'
  exact hc.apart hd hne

/-! ### A round of edits on an end tag -/

/-- **A round of edits on an end tag**: all of them are applied, and when all flaws are among them
none is left. -/
theorem run_ending {source : Text} {offset : Nat} {L : List Correction}
    (hsource : Text.Stands source offset m) (hL : L.Pairwise Before)
    (hmem : ∀ c ∈ L, AmendsEnd offset m c) :
    ∃ m', Runs source L offset m m' ∧ Respaced m m' ∧
      ((∀ c, AmendsEnd offset m c → c ∈ L) → ∀ o c, ¬ AmendsEnd o m' c) := by
  obtain ⟨a, q, hpiece⟩ := exists_lastPiece m
  by_cases hend : startsEnd q = true
  · have hflaws : ∀ c ∈ L, Amends false (offset + a.size) q c := by
      intro c hc
      obtain ⟨_, _, h, -, hc⟩ := hmem c hc
      obtain ⟨rfl, rfl⟩ := hpiece.unique h
      exact hc
    have hq : Text.Stands source (offset + a.size) q := (hpiece.eq_append ▸ hsource).right
    obtain ⟨q', hruns, hmends, hall⟩ := run_respaced hq hL hflaws
    refine ⟨a ++ q', ?_, ?_, fun hevery o c hc => ?_⟩
    · have := hruns.append Runs.nil
      rwa [List.append_nil, ← hpiece.eq_append] at this
    · rw [hpiece.eq_append]
      exact respaced_of_mendsTo hpiece.getLast? hmends
    · have hresp : Respaced q q' := respaced_of_mendsTo (a := []) (Or.inl rfl) hmends
      have hpiece' : LastPiece (a ++ q') a q' :=
        ⟨rfl, hpiece.opens, hresp.closedBy (by decide) (by decide) hpiece.closed⟩
      obtain ⟨_, _, h, -, hc⟩ := hc
      obtain ⟨rfl, rfl⟩ := hpiece'.unique h
      exact (hall fun c hc => hevery c ⟨a, q, hpiece, hend, hc⟩).not_amends _ c hc
  · -- a piece that does not end the markup gives no edit
    have hnone : ∀ o c, ¬ AmendsEnd o m c := by
      rintro o c ⟨_, _, h, hend', -⟩
      obtain ⟨rfl, rfl⟩ := hpiece.unique h
      exact hend hend'
    obtain rfl : L = [] := List.eq_nil_iff_forall_not_mem.2 fun c hc => hnone _ c (hmem c hc)
    exact ⟨m, Runs.nil, .refl, fun _ => hnone⟩

end LiquidLint.Spacing
