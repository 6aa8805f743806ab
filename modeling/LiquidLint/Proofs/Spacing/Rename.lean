import LiquidLint.Proofs.Spacing.Nudge

/-!
# Renaming a tag among its flaws

The name of an `include` tag is replaced by `render` in the same round in which its flaws are mended.
A word takes no part in flaws: those before it and those after it are the same for any other word
(`Flaw.swap_before`, `Flaw.swap_after`). So the flaws after the name are mended first, then the name
is replaced, then the flaws before it are mended: `run_markup` says what such a run leaves behind.
-/

namespace LiquidLint.Spacing

open Correction (Before Runs)
open Liquid (IsLead IsTail IsWord nameOf isQuote)
open Liquid.Token (ClosedBy)

variable {separators : Bool} {p g q r w w' : Text}

/-! ### Another word -/

theorem IsWord.exists_head (hw : IsWord w) :
    ∃ c t, w = c :: t ∧ isBlank c = false ∧ c ≠ '-' ∧ isQuote c = false ∧ c ≠ '\n' := by
  obtain ⟨c, t, rfl⟩ := List.exists_cons_of_ne_nil hw.1
  have hc : ∀ d : Char, d.isLower = false → c ≠ d := by
    rintro d hd rfl
    exact hw.ne hd (List.mem_cons_self ..)
  refine ⟨c, t, rfl, (hw.solid.2 c (List.mem_cons_self ..)).1, hc _ rfl, ?_, hc _ rfl⟩
  simp [isQuote, hc '\'' rfl, hc '"' rfl]

theorem IsWord.exists_last (hw : IsWord w) :
    ∃ t c, w = t ++ [c] ∧ isBlank c = false ∧ c ≠ '-' ∧ isSeparator c = false := by
  rcases List.eq_nil_or_concat w with rfl | ⟨t, c, rfl⟩
  · exact absurd rfl hw.1
  rw [List.concat_eq_append] at hw
  have hmem : c ∈ t ++ [c] := by simp
  have hc : ∀ d : Char, d.isLower = false → c ≠ d := by
    rintro d hd rfl
    exact hw.ne hd hmem
  refine ⟨t, c, List.concat_eq_append .., (hw.solid.2 c hmem).1, hc _ rfl, ?_⟩
  simp [isSeparator, hc ',' rfl, hc ':' rfl]

/-- A flaw before a word is a flaw before any other word. -/
theorem Flaw.swap_before {tail tail' : Text} (hw : IsWord w) (hw' : IsWord w')
    (h : Flaw separators p g (r ++ (w ++ tail))) : Flaw separators p g (r ++ (w' ++ tail')) := by
  obtain ⟨c, t, rfl, hcb, hcd, hcq, hcn⟩ := IsWord.exists_head hw
  obtain ⟨c', t', rfl, hcb', hcd', hcq', hcn'⟩ := IsWord.exists_head hw'
  generalize hq : r ++ ((c :: t) ++ tail) = q at h
  have hspace : c' ≠ ' ' := by
    rintro rfl
    cases hcb'
  -- the flaw of each kind is kept, as all it asks of the text behind it is its first character
  cases h with
  | lead hu hp hf hd =>
    refine .lead hu ?_ ?_ ?_
    · rcases hp with ⟨rfl, hp⟩ | rfl
      · refine Or.inl ⟨rfl, ?_⟩
        rw [← hq] at hp
        cases g with
        | cons y g => exact hp
        | nil =>
          cases r with
          | cons y r => exact hp
          | nil => exact fun he => hcd' (Option.some.inj he)
      · exact Or.inr rfl
    · obtain ⟨x, y, rfl, hx⟩ := hf
      cases r with
      | nil => exact ⟨c', t' ++ tail', rfl, hcb'⟩
      | cons z r => exact ⟨z, _, rfl, (List.cons.inj hq).1 ▸ hx⟩
    · cases r with
      | nil => exact fun he => hcd' (List.cons.inj he).1
      | cons z r => simp
  | trail _ hd =>
    rcases hd with ⟨rfl, -⟩ | rfl
    · simp at hq
    · cases r with
      | nil => exact absurd (List.cons.inj hq).1 hcd
      | cons z r => simp at hq
  | @separator p g q s x hsep hu hquote hs hx h0 h1 =>
    -- the separator's space ends at the new word, whose head is no blank and no quote
    cases r with
    | nil => exact .separator hsep hu hquote hs hcq' (fun _ => hcb') fun _ => ⟨hspace, hcn'⟩
    | cons z r =>
      obtain rfl : z = x := (List.cons.inj hq).1
      exact .separator hsep hu hquote hs hx h0 h1

/-- A word does not open or close strings. -/
theorem quoteAfter_word (hw : ∀ c ∈ w, isQuote c = false) {o : Option Char}
    (ho : ∀ c ∈ o, isQuote c = true) : quoteAfter o w = o := by
  induction w with
  | nil => cases o <;> rfl
  | cons c w ih =>
    obtain ⟨hc, hw⟩ := List.forall_mem_cons.1 hw
    cases o with
    | none =>
      rw [quoteAfter, hc]
      exact ih hw
    | some x =>
      have hx : c ≠ x := by
        rintro rfl
        rw [ho _ rfl] at hc
        cases hc
      rw [quoteAfter, if_neg hx]
      exact ih hw

theorem IsWord.not_quote (hw : IsWord w) : ∀ c ∈ w, isQuote c = false := by
  intro c hc
  have hne : ∀ d : Char, d.isLower = false → c ≠ d := by
    rintro d hd rfl
    exact hw.ne hd hc
  simp [isQuote, hne '\'' rfl, hne '"' rfl]

/-- A flaw after a word is a flaw after any other word. -/
theorem Flaw.swap_after {lead : Text} (hw : IsWord w) (hw' : IsWord w')
    (h : Flaw separators (lead ++ (w ++ r)) g q) : Flaw separators (lead ++ (w' ++ r)) g q := by
  obtain ⟨t, c, rfl, hcb, hcd, hcs⟩ := IsWord.exists_last hw
  obtain ⟨t', c', rfl, hcb', hcd', hcs'⟩ := IsWord.exists_last hw'
  generalize hp : lead ++ ((t ++ [c]) ++ r) = p at h
  cases h with
  | lead _ hd =>
    rcases hd with ⟨rfl, -⟩ | rfl
    · simp at hp
    · exfalso
      have hmem : c ∈ ['-'] := by rw [← hp]; simp
      exact hcd (List.mem_singleton.1 hmem)
  | trail hu hd hf _ =>
    refine .trail hu ?_ ?_ fun he => ?_
    · rcases hd with ⟨rfl, hd⟩ | rfl
      · refine Or.inl ⟨rfl, ?_⟩
        have h1 : p ++ g = (lead ++ t) ++ ([c] ++ (r ++ g)) := by rw [← hp]; simp
        have h2 : lead ++ (t' ++ [c'] ++ r) ++ g = (lead ++ t') ++ ([c'] ++ (r ++ g)) := by simp
        rw [h1, List.getLast?_append_of_ne_nil _ (by simp)] at hd
        rw [h2, List.getLast?_append_of_ne_nil _ (by simp)]
        by_cases hrg : r ++ g = []
        · rw [hrg]
          exact fun he => hcd' (Option.some.inj he)
        · rw [List.getLast?_append_of_ne_nil _ hrg] at hd ⊢
          exact hd
      · exact Or.inr rfl
    · rcases List.eq_nil_or_concat r with rfl | ⟨r', z, rfl⟩
      · exact ⟨lead ++ t', c', by simp, hcb'⟩
      · obtain ⟨x, y, rfl, hy⟩ := hf
        have hlast : (lead ++ ((t ++ [c]) ++ r')) ++ [z] = x ++ [y] := by simpa using hp
        have hzy : [z] = [y] := (List.append_inj' hlast rfl).2
        refine ⟨lead ++ ((t' ++ [c']) ++ r'), z, by simp, ?_⟩
        rw [(List.cons.inj hzy).1]
        exact hy
    · have hmem : c' ∈ ['-'] := by rw [← he]; simp
      exact hcd' (List.mem_singleton.1 hmem)
  | @separator p₀ g q s x hsep hu hquote hs hx h0 h1 =>
    rcases List.eq_nil_or_concat r with rfl | ⟨r', z, rfl⟩
    · -- the word does not end with a separator
      have hlast : (lead ++ t) ++ [c] = p₀ ++ [s] := by simpa using hp
      have hcs' : [c] = [s] := (List.append_inj' hlast rfl).2
      rw [(List.cons.inj hcs').1, hs] at hcs
      cases hcs
    · have hlast : (lead ++ ((t ++ [c]) ++ r')) ++ [z] = p₀ ++ [s] := by simpa using hp
      obtain ⟨rfl, hzs⟩ := List.append_inj' hlast rfl
      obtain rfl : z = s := (List.cons.inj hzs).1
      have hlead : ∀ c ∈ quoteAfter none lead, isQuote c = true := isQuote_quoteAfter (by simp) lead
      have hquote' : quoteAfter none (lead ++ ((t' ++ [c']) ++ r')) = none := by
        rw [quoteAfter_append, quoteAfter_append _ (t' ++ [c']),
          quoteAfter_word (IsWord.not_quote hw') hlead]
        rwa [quoteAfter_append, quoteAfter_append _ (t ++ [c]),
          quoteAfter_word (IsWord.not_quote hw) hlead] at hquote
      have := Flaw.separator hsep hu hquote' hs hx h0 h1 (q := q)
      simpa using this

/-! ### Edits around a word -/

/-- An edit before a word or after it. -/
theorem Amends.around_word {offset : Nat} {lead tail : Text} {c : Correction} (hw : IsWord w)
    (h : Amends separators offset (lead ++ (w ++ tail)) c) :
    (∃ p g r, lead = p ++ (g ++ r) ∧ Flaw separators p g (r ++ (w ++ tail)) ∧
      c = amend (offset + p.size) g) ∨
    ∃ r g q, tail = r ++ (g ++ q) ∧ Flaw separators (lead ++ (w ++ r)) g q ∧
      c = amend (offset + Text.size (lead ++ (w ++ r))) g := by
  obtain ⟨p, g, q, hm, hf, rfl⟩ := h
  rcases split_around_word hw.1 (hw.ne rfl) (insideWord_of_isWord hw) hm hf.uneven
    (fun _ => hf.not_insideWord) with ⟨r, rfl, rfl⟩ | ⟨r, rfl, rfl⟩
  · exact Or.inl ⟨p, g, r, rfl, hf, rfl⟩
  · exact Or.inr ⟨r, g, q, rfl, hf, rfl⟩

/-- An edit stands clear of a word. -/
theorem Amends.clear_of_word {offset : Nat} {lead tail : Text} {c : Correction} (hw : IsWord w)
    (h : Amends separators offset (lead ++ (w ++ tail)) c) :
    c.range.stop ≤ offset + lead.size ∨ offset + lead.size + w.size ≤ c.range.start := by
  rcases h.around_word hw with ⟨p, g, r, rfl, -, rfl⟩ | ⟨r, g, q, rfl, -, rfl⟩
  · refine Or.inl ?_
    simp only [range_amend, Text.size_append]
    omega
  · refine Or.inr ?_
    simp only [range_amend, Text.size_append]
    omega

/-- Edits before a word stay when the word is replaced. -/
theorem Amends.swap_before {offset : Nat} {lead tail : Text} {c : Correction} (hw : IsWord w)
    (hw' : IsWord w') (h : Amends separators offset (lead ++ (w ++ tail)) c)
    (hc : c.range.start ≤ offset + lead.size) :
    Amends separators offset (lead ++ (w' ++ tail)) c := by
  rcases h.around_word hw with ⟨p, g, r, rfl, hf, rfl⟩ | ⟨r, g, q, rfl, -, rfl⟩
  · exact ⟨p, g, r ++ (w' ++ tail), by simp, hf.swap_before hw hw', rfl⟩
  · have hpos := Text.size_pos hw.1
    simp only [range_amend, Text.size_append] at hc
    omega

/-- Edits after a word is replaced were there before, or stand for edits after the word. -/
theorem Amends.of_swap {offset : Nat} {lead tail : Text} {c : Correction} (hw : IsWord w)
    (hw' : IsWord w') (h : Amends separators offset (lead ++ (w' ++ tail)) c) :
    Amends separators offset (lead ++ (w ++ tail)) c ∨
      ∃ d, Amends separators offset (lead ++ (w ++ tail)) d ∧
        offset + lead.size + w.size ≤ d.range.start := by
  rcases h.around_word hw' with ⟨p, g, r, rfl, hf, rfl⟩ | ⟨r, g, q, rfl, hf, -⟩
  · exact Or.inl ⟨p, g, r ++ (w ++ tail), by simp, hf.swap_before hw' hw, rfl⟩
  · refine Or.inr ⟨_, ⟨lead ++ (w ++ r), g, q, by simp, hf.swap_after hw' hw, rfl⟩, ?_⟩
    simp only [range_amend, Text.size_append]
    omega

/-! ### The name of an `include` tag -/

/-- The edit that turns the name of an `include` tag with markup `m` at `offset` into `render`. -/
def rename (offset : Nat) (m : Text) : Correction :=
  let start := offset + Text.size (m.takeWhile fun c => c == '-' || isBlank c)
  .replace ⟨start, start + 7⟩ "render"

theorem tidy_rename (offset : Nat) (m : Text) : (rename offset m).Tidy :=
  ⟨Nat.lt_add_of_pos_right (by decide), by decide⟩

/-- What stands before the name of a tag can be told from its markup. -/
theorem takeWhile_lead {lead : Text} (hl : IsLead lead) (hw : IsWord w) (tail : Text) :
    (lead ++ (w ++ tail)).takeWhile (fun c => c == '-' || isBlank c) = lead := by
  have hlead : ∀ c ∈ lead, (c == '-' || isBlank c) = true := by
    intro c hc
    rcases (isLead_iff.1 hl).1 c hc with h | h <;> simp [h]
  obtain ⟨c, t, rfl, hb, hd, -⟩ := IsWord.exists_head hw
  rw [List.takeWhile_append_of_pos hlead, List.cons_append,
    List.takeWhile_cons_of_neg (by simp [hb, hd]), List.append_nil]

/-- The name and what is behind it are left. -/
theorem dropWhile_lead {lead : Text} (hl : IsLead lead) (hw : IsWord w) (tail : Text) :
    (lead ++ (w ++ tail)).dropWhile (fun c => c == '-' || isBlank c) = w ++ tail := by
  have hsplit := List.takeWhile_append_dropWhile (p := fun c => c == '-' || isBlank c)
    (l := lead ++ (w ++ tail))
  rw [takeWhile_lead hl hw tail] at hsplit
  exact List.append_cancel_left hsplit

theorem isWord_include : IsWord "include".toList := by decide

theorem isWord_render : IsWord "render".toList := by decide

theorem range_rename {offset : Nat} {lead tail : Text} (hl : IsLead lead) :
    (rename offset (lead ++ ("include".toList ++ tail))).range =
      ⟨offset + lead.size, offset + lead.size + 7⟩ := by
  rw [rename, takeWhile_lead hl isWord_include, Correction.range]

theorem size_include : Text.size "include".toList = 7 := rfl

theorem rename_bounds (offset : Nat) {m : Text} (hm : nameOf m = "include") :
    offset ≤ (rename offset m).range.start ∧
      (rename offset m).range.start < (rename offset m).range.stop ∧
      (rename offset m).range.stop ≤ offset + m.size := by
  obtain ⟨lead, tail, hl, -, rfl⟩ := (Liquid.nameOf_eq_word_iff isWord_include).1 hm
  rw [range_rename hl]
  simp only [Text.size_append, size_include]
  omega

/-- Where the name stands again after white space has changed behind it. -/
theorem isTail_of_nameOf {lead tail : Text} (hl : IsLead lead) (hw : IsWord w)
    (h : nameOf (lead ++ (w ++ tail)) = String.ofList w) : IsTail tail := by
  have hw' : IsWord (String.ofList w).toList := by rwa [String.toList_ofList]
  obtain ⟨l, t, hl', ht, heq⟩ := (Liquid.nameOf_eq_word_iff hw').1 h
  rw [String.toList_ofList] at heq
  have hlead : lead = l := by
    rw [← takeWhile_lead hl hw tail, heq, takeWhile_lead hl' hw]
  rw [hlead] at heq
  rwa [List.append_cancel_left (List.append_cancel_left heq)]

/-- The name `include` has become `render`, and white space has changed before and after that. -/
def Renamed (m m' : Text) : Prop :=
  ∃ lead tail, IsLead lead ∧ IsTail tail ∧ Respaced m (lead ++ ("include".toList ++ tail)) ∧
    Respaced (lead ++ ("render".toList ++ tail)) m'

theorem Renamed.nameOf {m m' : Text} (h : Renamed m m') : nameOf m' = "render" := by
  obtain ⟨lead, tail, hl, ht, -, h⟩ := h
  exact h.nameOf_word isWord_render
    ((Liquid.nameOf_eq_word_iff isWord_render).2 ⟨lead, tail, hl, ht, rfl⟩)

/-- A pair of characters that are not letters stands around any word or around none. -/
theorem closedBy_swap_word {a b : Char} {lead tail : Text} (hw' : IsWord w')
    (ha : a.isLower = false) (hb : b.isLower = false) (h : ClosedBy a b (lead ++ (w ++ tail))) :
    ClosedBy a b (lead ++ (w' ++ tail)) := by
  intro hp
  rw [List.append_assoc, List.append_assoc] at hp
  apply h
  rcases Text.pair_infix_append hp with hp | hp | ⟨-, hp⟩
  · exact hp.trans ⟨[], w ++ tail ++ [a], by simp⟩
  · rcases Text.pair_infix_append hp with hp | hp | ⟨hp, -⟩
    · exact absurd (hp.subset (List.mem_cons_self ..)) (hw'.ne ha)
    · have hsuffix : tail ++ [a] <:+ lead ++ (w ++ tail) ++ [a] := ⟨lead ++ w, by simp⟩
      exact hp.trans hsuffix.isInfix
    · exact absurd (List.mem_of_getLast? hp) (hw'.ne ha)
  · obtain ⟨c, t, rfl⟩ := List.exists_cons_of_ne_nil hw'.1
    exact absurd (Option.some.inj hp ▸ List.mem_cons_self ..) (hw'.ne hb)

theorem Renamed.closedBy {a b : Char} {m m' : Text} (h : Renamed m m') (ha : a ≠ ' ') (hb : b ≠ ' ')
    (ha' : a.isLower = false) (hb' : b.isLower = false) (hm : ClosedBy a b m) :
    ClosedBy a b m' := by
  obtain ⟨lead, tail, -, -, h1, h2⟩ := h
  exact h2.closedBy ha hb
    (closedBy_swap_word isWord_render ha' hb' (h1.closedBy ha hb hm))

/-- An edit of the markup of a tag: of a flaw, or of the name. -/
def Touches (offset : Nat) (m : Text) (c : Correction) : Prop :=
  Amends true offset m c ∨ nameOf m = "include" ∧ c = rename offset m

theorem Amends.ne_rename {offset offset' : Nat} {m m' : Text} {c : Correction}
    (h : Amends separators offset m c) : c ≠ rename offset' m' := by
  intro he
  have htext : " " = "render" := h.text_eq.symm.trans (congrArg Correction.text he)
  exact absurd htext (by decide)

/-! ### A round of edits on a tag -/

/-- **Edits around a name**: those behind the name come first, then the name itself, then those before
it. -/
theorem exists_around_rename {offset : Nat} {lead tail : Text} {L : List Correction}
    (hl : IsLead lead) (hL : L.Pairwise Before)
    (hmem : ∀ c ∈ L, Touches offset (lead ++ ("include".toList ++ tail)) c)
    (hkey : rename offset (lead ++ ("include".toList ++ tail)) ∈ L) :
    ∃ L₁ L₂, L = L₁ ++ rename offset (lead ++ ("include".toList ++ tail)) :: L₂ ∧
      L₁.Pairwise Before ∧ L₂.Pairwise Before ∧
      (∀ c ∈ L₁, Amends true offset (lead ++ ("include".toList ++ tail)) c ∧
        offset + lead.size + 7 ≤ c.range.start) ∧
      ∀ c ∈ L₂, Amends true offset (lead ++ ("include".toList ++ tail)) c ∧
        c.range.stop ≤ offset + lead.size := by
  generalize hm : lead ++ ("include".toList ++ tail) = m at *
  have hrange : (rename offset m).range = ⟨offset + lead.size, offset + lead.size + 7⟩ :=
    hm ▸ range_rename hl
  obtain ⟨L₁, L₂, rfl⟩ := List.append_of_mem hkey
  obtain ⟨hL₁, hL₂, hcross⟩ := List.pairwise_append.1 hL
  have hclear : ∀ c ∈ L₁ ++ rename offset m :: L₂, c ≠ rename offset m → Amends true offset m c ∧
      (c.range.stop ≤ offset + lead.size ∨ offset + lead.size + 7 ≤ c.range.start) := by
    intro c hc hne
    have h := (hmem c hc).resolve_right fun h => hne h.2
    refine ⟨h, ?_⟩
    rw [← hm] at h
    exact size_include ▸ h.clear_of_word isWord_include
  refine ⟨L₁, L₂, rfl, hL₁, hL₂.of_cons, fun c hc => ?_, fun c hc => ?_⟩
  · have hb := hcross c hc _ (List.mem_cons_self ..)
    obtain ⟨h, hs⟩ := hclear c (List.mem_append_left _ hc) hb.2
    refine ⟨h, hs.resolve_left fun hs => ?_⟩
    -- an edit that ends before the name starts before it, or else the longer one comes first
    have h1 := hb.start_le
    have h2 := hb.stop_le
    rw [hrange] at h1 h2
    have h3 := h.bounds
    simp only at h1 h2
    have := h2 (by omega)
    omega
  · have hb := List.rel_of_pairwise_cons hL₂ hc
    obtain ⟨h, hs⟩ := hclear c (List.mem_append_right _ (List.mem_cons_of_mem _ hc)) hb.2.symm
    refine ⟨h, hs.resolve_right fun hs => ?_⟩
    have h1 := hb.start_le
    rw [hrange] at h1
    simp only at h1
    omega

/-- A round of edits on a tag whose name is replaced. -/
theorem run_renamed {source lead tail : Text} {offset : Nat} {L₁ L₂ : List Correction}
    (hl : IsLead lead) (ht : IsTail tail)
    (hsource : Text.Stands source offset (lead ++ ("include".toList ++ tail)))
    (hL₁ : L₁.Pairwise Before) (hL₂ : L₂.Pairwise Before)
    (hmem₁ : ∀ c ∈ L₁, Amends true offset (lead ++ ("include".toList ++ tail)) c ∧
      offset + lead.size + 7 ≤ c.range.start)
    (hmem₂ : ∀ c ∈ L₂, Amends true offset (lead ++ ("include".toList ++ tail)) c ∧
      c.range.stop ≤ offset + lead.size) :
    ∃ m', Runs source (L₁ ++ rename offset (lead ++ ("include".toList ++ tail)) :: L₂) offset
        (lead ++ ("include".toList ++ tail)) m' ∧
      Renamed (lead ++ ("include".toList ++ tail)) m' ∧
      ((∀ c, Amends true offset (lead ++ ("include".toList ++ tail)) c → c ∈ L₁ ∨ c ∈ L₂) →
        Even true m') := by
  have hoff : offset + Text.size (lead ++ "include".toList) = offset + lead.size + 7 := by
    rw [Text.size_append, size_include, Nat.add_assoc]
  have hform : ∀ t : Text,
      (lead ++ "include".toList) ++ (t ++ []) = lead ++ ("include".toList ++ t) := by
    intro t
    simp
  have hname : nameOf (lead ++ ("include".toList ++ tail)) = "include" :=
    (Liquid.nameOf_eq_word_iff isWord_include).2 ⟨lead, tail, hl, ht, rfl⟩
  -- the flaws behind the name
  obtain ⟨tail', hruns₁, hmends₁, hleft₁, hall₁⟩ :=
    run_flaws true offset (lead ++ "include".toList) tail []
      (by rw [hoff]; exact hsource.right.right) hL₁ fun c hc => by
        obtain ⟨h1, h2⟩ := hmem₁ c hc
        have hb := h1.bounds
        simp only [Text.size_append, size_include] at hb
        rw [hform, hoff]
        exact ⟨h1, h2, by omega⟩
  rw [hform, hform] at hmends₁
  rw [hoff] at hruns₁ hleft₁ hall₁
  simp only [hform] at hleft₁ hall₁
  have hresp₁ : Respaced (lead ++ ("include".toList ++ tail)) (lead ++ ("include".toList ++ tail')) :=
    respaced_of_mendsTo (a := []) (Or.inl rfl) hmends₁
  have htail' : IsTail tail' :=
    isTail_of_nameOf hl isWord_include (hresp₁.nameOf_word isWord_include hname)
  -- the name
  have hkey : Runs source [rename offset (lead ++ ("include".toList ++ tail))]
      (offset + lead.size) "include".toList "render".toList :=
    Runs.single hsource.right.left (by rw [range_rename hl]) (by rw [range_rename hl, size_include])
  -- the flaws before the name
  obtain ⟨lead', hruns₂, hmends₂, -, hall₂⟩ :=
    run_flaws true offset [] lead ("render".toList ++ tail') hsource.left hL₂ fun c hc => by
        obtain ⟨h1, h2⟩ := hmem₂ c hc
        have hb := h1.bounds
        have hswap : Amends true offset (lead ++ ("render".toList ++ tail')) c :=
          (hleft₁ c h1 (by omega)).swap_before isWord_include isWord_render (by omega)
        exact ⟨hswap, by simpa using hb.1, by simpa using h2⟩
  have hresp₂ : Respaced (lead ++ ("render".toList ++ tail'))
      (lead' ++ ("render".toList ++ tail')) := respaced_of_mendsTo (a := []) (Or.inl rfl) hmends₂
  refine ⟨lead' ++ ("render".toList ++ tail'), ?_, ⟨lead, tail', hl, htail', hresp₁, hresp₂⟩,
    fun hall => ?_⟩
  · have hrun := (hruns₁.append hkey).append hruns₂
    simpa using hrun
  · have hbehind : ∀ c, Amends true offset (lead ++ ("include".toList ++ tail')) c →
        Amends true offset (lead ++ ("include".toList ++ tail)) c ∧
          c.range.start < offset + lead.size + 7 := by
      refine hall₁ fun c hc => (hall c hc).imp_right fun h => ?_
      have := hmem₂ c h
      have := hc.bounds
      omega
    have hnone : ∀ c, Amends true offset (lead ++ ("render".toList ++ tail')) c → c ∈ L₂ := by
      intro c hc
      rcases hc.of_swap isWord_include isWord_render with h | ⟨d, hd, hs⟩
      · obtain ⟨h1, h2⟩ := hbehind c h
        refine (hall c h1).resolve_left fun h => ?_
        have := (hmem₁ c h).2
        omega
      · have := (hbehind d hd).2
        rw [size_include] at hs
        omega
    refine even_of_not_amends offset fun c hc => ?_
    obtain ⟨h1, h2⟩ := hall₂ (fun c hc => Or.inl (hnone c hc)) c hc
    have := h1.bounds
    simp only [Text.size_nil] at h2
    omega

/-- A round of edits that only mend flaws. -/
theorem run_respaced {source m : Text} {offset : Nat} {L : List Correction}
    (hsource : Text.Stands source offset m) (hL : L.Pairwise Before)
    (hmem : ∀ c ∈ L, Amends separators offset m c) :
    ∃ m', Runs source L offset m m' ∧ Relation.ReflTransGen (MendsTo separators) m m' ∧
      ((∀ c, Amends separators offset m c → c ∈ L) → Even separators m') := by
  obtain ⟨m', hruns, hmends, -, hall⟩ :=
    run_flaws separators offset [] m [] hsource hL fun c hc => by
        have hb := (hmem c hc).bounds
        exact ⟨by simpa using hmem c hc, by simpa using hb.1, by simpa using hb.2.2⟩
  simp only [List.nil_append, List.append_nil, Text.size_nil, Nat.add_zero] at hruns hmends hall
  refine ⟨m', hruns, hmends, fun hevery => even_of_not_amends offset fun c hc => ?_⟩
  obtain ⟨h1, h2⟩ := hall (fun c hc => Or.inl (hevery c hc)) c hc
  have := h1.bounds
  omega

/-- **A round of edits on the markup of a tag**: all of them are applied. When all flaws are among
them none is left, and when the name is among them it has changed. -/
theorem run_markup {source m : Text} {offset : Nat} {L : List Correction}
    (hsource : Text.Stands source offset m) (hL : L.Pairwise Before)
    (hmem : ∀ c ∈ L, Touches offset m c) :
    ∃ m', Runs source L offset m m' ∧
      (Relation.ReflTransGen (MendsTo true) m m' ∧
          ¬ (nameOf m = "include" ∧ rename offset m ∈ L) ∨
        (nameOf m = "include" ∧ rename offset m ∈ L) ∧ Renamed m m') ∧
      ((∀ c, Amends true offset m c → c ∈ L) → Even true m') := by
  by_cases hchange : nameOf m = "include" ∧ rename offset m ∈ L
  · -- the name is replaced: the edits before it and those behind it are run on their own sides
    obtain ⟨hname, hkey⟩ := hchange
    obtain ⟨lead, tail, hl, ht, rfl⟩ := (Liquid.nameOf_eq_word_iff isWord_include).1 hname
    obtain ⟨L₁, L₂, rfl, hL₁, hL₂, hmem₁, hmem₂⟩ := exists_around_rename hl hL hmem hkey
    obtain ⟨m', hruns, hrenamed, hall⟩ := run_renamed hl ht hsource hL₁ hL₂ hmem₁ hmem₂
    refine ⟨m', hruns, Or.inr ⟨⟨hname, hkey⟩, hrenamed⟩, fun hevery => hall fun c hc => ?_⟩
    rcases List.mem_append.1 (hevery c hc) with h | h
    · exact Or.inl h
    · exact Or.inr ((List.mem_cons.1 h).resolve_left hc.ne_rename)
  · -- no rename among the edits: every one of them evens a flaw
    have hflaws : ∀ c ∈ L, Amends true offset m c := by
      intro c hc
      rcases hmem c hc with h | ⟨h1, rfl⟩
      · exact h
      · exact absurd ⟨h1, hc⟩ hchange
    obtain ⟨m', hruns, hmends, hall⟩ := run_respaced hsource hL hflaws
    exact ⟨m', hruns, Or.inl ⟨hmends, hchange⟩, hall⟩

end LiquidLint.Spacing
