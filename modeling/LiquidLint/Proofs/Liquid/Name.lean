import LiquidLint.Proofs.Liquid.Cuts

/-!
# Names of tags

The name of a tag stands between a lead of blanks and at most one dash (`IsLead`) and a tail that
ends it: nothing, a blank, or a last dash (`IsTail`). `nameOf_eq_iff` says so for names without
blanks, dashes and number signs, and `nameOf_eq_sign_iff` for the number sign, which needs no end.
-/

namespace LiquidLint.Liquid

open Token (IsDash IsGap)

/-! ### Trimming -/

theorem Token.IsGap.append {g g' : Text} (h : IsGap g) (h' : IsGap g') : IsGap (g ++ g') := by
  intro c hc
  rcases List.mem_append.1 hc with hc | hc
  · exact h c hc
  · exact h' c hc

theorem Token.IsGap.reverse {g : Text} (h : IsGap g) : IsGap g.reverse :=
  fun c hc => h c (List.mem_reverse.1 hc)

theorem isGap_nil : IsGap [] := by simp [IsGap]

/-- Trimming the end takes blanks away. -/
theorem exists_trimStop_append (t : Text) : ∃ g, IsGap g ∧ t = t.trimStop ++ g := by
  obtain ⟨g, hg, ht⟩ := Token.exists_append_trimStart t.reverse
  refine ⟨g.reverse, hg.reverse, ?_⟩
  have h := congrArg List.reverse ht
  rwa [List.reverse_reverse, List.reverse_append] at h

theorem trimStop_append {t g : Text} (hg : IsGap g) (h : ∀ c ∈ t.getLast?, isBlank c = false) :
    Text.trimStop (t ++ g) = t := by
  have h1 : Text.trimStart (g.reverse ++ t.reverse) = t.reverse := by
    apply Token.trimStart_append (hg.reverse)
    intro c hc
    rw [List.head?_reverse] at hc
    exact h c hc
  rw [Text.trimStop, Text.trimStopBy, List.reverse_append]
  rw [Text.trimStart, Text.trimStartBy] at h1
  rw [h1, List.reverse_reverse]

/-- Trimming takes blanks away on both sides. -/
theorem exists_append_trim_append (t : Text) :
    ∃ g g', IsGap g ∧ IsGap g' ∧ t = g ++ (t.trim ++ g') := by
  obtain ⟨g, hg, h⟩ := Token.exists_append_trimStart t
  obtain ⟨g', hg', h'⟩ := exists_trimStop_append t.trimStart
  exact ⟨g, g', hg, hg', by rw [Text.trim, ← h', ← h]⟩

theorem trim_append {g t g' : Text} (hg : IsGap g) (hg' : IsGap g')
    (hne : t ≠ []) (hfirst : ∀ c ∈ t.head?, isBlank c = false)
    (hlast : ∀ c ∈ t.getLast?, isBlank c = false) : Text.trim (g ++ (t ++ g')) = t := by
  have hf : ∀ c ∈ (t ++ g').head?, isBlank c = false := by
    rw [List.head?_append_of_ne_nil t hne]
    exact hfirst
  rw [Text.trim, Token.trimStart_append hg hf, trimStop_append hg' hlast]

theorem exists_append_dropStart (t : Text) :
    ∃ d, IsDash d ∧ t = d ++ (Text.dropStart? ['-'] t).getD t := by
  cases h : Text.dropStart? ['-'] t with
  | none => exact ⟨[], Or.inl rfl, rfl⟩
  | some r => exact ⟨['-'], Or.inr rfl, Text.dropStart?_eq_some_iff.1 h⟩

theorem exists_dropStop_append (t : Text) :
    ∃ d, IsDash d ∧ t = (Text.dropStop? ['-'] t).getD t ++ d := by
  cases h : Text.dropStop? ['-'] t with
  | none => exact ⟨[], Or.inl rfl, by simp⟩
  | some r => exact ⟨['-'], Or.inr rfl, Text.dropStop?_eq_some_iff.1 h⟩

theorem dropStart_dash {t : Text} (h : t.head? ≠ some '-') :
    (Text.dropStart? ['-'] t).getD t = t := by
  cases hd : Text.dropStart? ['-'] t with
  | none => rfl
  | some r =>
    rw [Text.dropStart?_eq_some_iff] at hd
    rw [hd] at h
    exact absurd rfl h

theorem dropStop_dash {t : Text} (h : t.getLast? ≠ some '-') :
    (Text.dropStop? ['-'] t).getD t = t := by
  cases hd : Text.dropStop? ['-'] t with
  | none => rfl
  | some r =>
    rw [Text.dropStop?_eq_some_iff] at hd
    rw [hd] at h
    exact absurd (by simp) h

/-! ### Leads and tails -/

/-- What may stand before the name of a tag: blanks, and among them at most one dash. -/
def IsLead (l : Text) : Prop := ∃ g d g', IsGap g ∧ IsDash d ∧ IsGap g' ∧ l = g ++ (d ++ g')

/-- What ends the name of a tag: nothing, a blank, or a last dash. -/
def IsTail (t : Text) : Prop :=
  t = [] ∨ (∃ c r, t = c :: r ∧ isBlank c = true) ∨ ∃ g, IsGap g ∧ t = '-' :: g

/-- Characters that are neither blanks nor dashes. -/
def IsSolid (w : Text) : Prop := w ≠ [] ∧ ∀ c ∈ w, isBlank c = false ∧ c ≠ '-'

theorem IsSolid.head {w : Text} (h : IsSolid w) (r : Text) :
    ∀ c ∈ (w ++ r).head?, isBlank c = false ∧ c ≠ '-' := by
  obtain ⟨d, w, rfl⟩ := List.exists_cons_of_ne_nil h.1
  intro c hc
  simp only [List.cons_append, List.head?_cons, Option.mem_def, Option.some.injEq] at hc
  exact hc ▸ h.2 d (List.mem_cons_self ..)

theorem IsSolid.last {w : Text} (h : IsSolid w) : ∀ c ∈ w.getLast?, isBlank c = false ∧ c ≠ '-' :=
  fun c hc => h.2 c (List.mem_of_getLast? hc)

/-- The end of a trimmed text is the end of what is left of its last part, if anything is. -/
theorem getLast?_append_trimStop {w t : Text} (h : ∀ c ∈ w.getLast?, isBlank c = false) :
    ∀ c ∈ (w ++ t.trimStop).getLast?, isBlank c = false := by
  intro c hc
  rw [List.getLast?_append] at hc
  cases ht : t.trimStop.getLast? with
  | none =>
    rw [ht] at hc
    exact h c hc
  | some d =>
    rw [ht] at hc
    simp only [Option.some_or, Option.mem_def, Option.some.injEq] at hc
    subst hc
    rw [Text.trimStop, Text.trimStopBy, List.getLast?_reverse] at ht
    have := List.head?_dropWhile_not isBlank t.reverse
    rw [ht] at this
    simpa using this

/-- Trimming the end of a text that ends with something solid trims the part after it. -/
theorem trimStop_solid_append {w t : Text} (h : IsSolid w) :
    Text.trimStop (w ++ t) = w ++ t.trimStop := by
  obtain ⟨g, hg, ht⟩ := exists_trimStop_append t
  have hlast : ∀ c ∈ w.getLast?, isBlank c = false := fun c hc => (h.last c hc).1
  have := trimStop_append (t := w ++ t.trimStop) hg (getLast?_append_trimStop hlast)
  rwa [List.append_assoc, ← ht] at this

/-- The first two steps of trimming take the lead away, up to blanks after its dash. -/
theorem dropStart_trim_lead {lead w : Text} (hl : IsLead lead) (hw : IsSolid w) (tail : Text) :
    ∃ f, IsGap f ∧
      (Text.dropStart? ['-'] (Text.trim (lead ++ (w ++ tail)))).getD
        (Text.trim (lead ++ (w ++ tail))) = f ++ (w ++ tail.trimStop) := by
  obtain ⟨g, d, g', hg, hd, hg', rfl⟩ := hl
  rcases hd with rfl | rfl
  · -- no dash in front: both gaps go with the trim
    refine ⟨[], isGap_nil, ?_⟩
    have ht : Text.trim (g ++ ([] ++ g') ++ (w ++ tail)) = w ++ tail.trimStop := by
      rw [List.nil_append, Text.trim, Token.trimStart_append (hg.append hg')
        (fun c hc => (hw.head tail c hc).1), trimStop_solid_append hw]
    rw [ht, dropStart_dash]
    · rfl
    · intro hc
      exact (hw.head _ _ hc).2 rfl
  · -- with a dash the trim stops at it, so the gap behind it stays
    refine ⟨g', hg', ?_⟩
    have h2 : Text.trimStart (g ++ ('-' :: (g' ++ (w ++ tail)))) = _ :=
      Token.trimStart_append hg (by simp; decide)
    have hsolid : Text.trimStop (('-' :: g') ++ (w ++ tail)) = ('-' :: g') ++ (w ++ tail.trimStop) := by
      obtain ⟨e, he, hte⟩ := exists_trimStop_append tail
      -- the end trim cannot eat into `w`, whose last character is no blank
      have hlast : ∀ c ∈ (('-' :: g') ++ (w ++ tail.trimStop)).getLast?, isBlank c = false := by
        intro c hc
        have hne : w ++ tail.trimStop ≠ [] := by simp [hw.1]
        rw [List.getLast?_append_of_ne_nil _ hne] at hc
        exact getLast?_append_trimStop (fun c hc => (hw.last c hc).1) c hc
      have h3 := trimStop_append he hlast
      rwa [List.append_assoc, List.append_assoc, ← hte] at h3
    have ht : Text.trim (g ++ (['-'] ++ g') ++ (w ++ tail)) = '-' :: (g' ++ (w ++ tail.trimStop)) := by
      simp only [List.append_assoc, List.cons_append, List.nil_append] at h2 ⊢
      rw [Text.trim, h2]
      exact hsolid
    rw [ht]
    rfl

/-- The third step looks at what comes after something solid, if anything does. -/
theorem dropStop_solid {w : Text} (hw : IsSolid w) (f s : Text) :
    (Text.dropStop? ['-'] (f ++ (w ++ s))).getD (f ++ (w ++ s)) =
      f ++ (w ++ (Text.dropStop? ['-'] s).getD s) := by
  cases hs : s.getLast? with
  | none =>
    rw [List.getLast?_eq_none_iff] at hs
    subst hs
    rw [dropStop_dash (t := []) (by simp), dropStop_dash]
    intro hc
    rw [List.append_nil, List.getLast?_append_of_ne_nil _ hw.1] at hc
    exact (hw.last _ hc).2 rfl
  | some x =>
    by_cases hx : x = '-'
    · subst hx
      obtain ⟨u, rfl⟩ := List.getLast?_eq_some_iff.1 hs
      have hd : Text.dropStop? ['-'] (f ++ (w ++ (u ++ ['-']))) = some (f ++ (w ++ u)) := by
        rw [Text.dropStop?_eq_some_iff]
        simp
      rw [hd, Text.dropStop?_eq_some_iff.2 rfl]
      rfl
    · rw [dropStop_dash (t := s) (by rw [hs]; simpa using hx)]
      apply dropStop_dash
      rw [← List.append_assoc, List.getLast?_append, hs]
      simpa using hx

/-- What trimming leaves of the text after something solid. -/
def trimTail (tail : Text) : Text :=
  Text.trimStop ((Text.dropStop? ['-'] tail.trimStop).getD tail.trimStop)

/-- **Trimmed markup** starts with what is solid after the lead. -/
theorem trimMarkup_lead {lead w : Text} (hl : IsLead lead) (hw : IsSolid w) (tail : Text) :
    trimMarkup (lead ++ (w ++ tail)) = w ++ trimTail tail := by
  obtain ⟨f, hf, h1⟩ := dropStart_trim_lead hl hw tail
  unfold trimMarkup trimTail
  simp only [h1, dropStop_solid hw]
  rw [Text.trim, Token.trimStart_append hf fun c hc => (hw.head _ c hc).1,
    trimStop_solid_append hw]

/-- What trimming takes away at the end. -/
theorem exists_trimTail_append (tail : Text) :
    ∃ g d g', IsGap g ∧ IsDash d ∧ IsGap g' ∧ tail = trimTail tail ++ (g ++ (d ++ g')) := by
  obtain ⟨g', hg', h1⟩ := exists_trimStop_append tail
  obtain ⟨d, hd, h2⟩ := exists_dropStop_append tail.trimStop
  obtain ⟨g, hg, h3⟩ := exists_trimStop_append
    ((Text.dropStop? ['-'] tail.trimStop).getD tail.trimStop)
  refine ⟨g, d, g', hg, hd, hg', ?_⟩
  calc tail = tail.trimStop ++ g' := h1
    _ = ((Text.dropStop? ['-'] tail.trimStop).getD tail.trimStop ++ d) ++ g' := by rw [← h2]
    _ = ((trimTail tail ++ g) ++ d) ++ g' := by rw [trimTail, ← h3]
    _ = _ := by simp

/-- Nothing is left of a tail that is a last dash. -/
theorem trimTail_dash {g : Text} (hg : IsGap g) : trimTail ('-' :: g) = [] := by
  have hstop : Text.trimStop ('-' :: g) = ['-'] :=
    trimStop_append (t := ['-']) hg (by simp; decide)
  rw [trimTail, hstop]
  rfl

/-- What trimming takes away stands around what it leaves. -/
theorem exists_append_trimMarkup (m : Text) :
    ∃ lead g d g', IsLead lead ∧ IsGap g ∧ IsDash d ∧ IsGap g' ∧
      m = lead ++ (trimMarkup m ++ (g ++ (d ++ g'))) := by
  obtain ⟨g1, g2, hg1, hg2, h1⟩ := exists_append_trim_append m
  obtain ⟨d1, hd1, h2⟩ := exists_append_dropStart m.trim
  generalize hu : (Text.dropStart? ['-'] m.trim).getD m.trim = u at h2
  obtain ⟨d2, hd2, h3⟩ := exists_dropStop_append u
  generalize hv : (Text.dropStop? ['-'] u).getD u = v at h3
  obtain ⟨g3, g4, hg3, hg4, h4⟩ := exists_append_trim_append v
  have ht : trimMarkup m = Text.trim v := by
    unfold trimMarkup
    simp only [hu, hv]
  refine ⟨g1 ++ (d1 ++ g3), g4, d2, g2, ⟨g1, d1, g3, hg1, hd1, hg3, rfl⟩, hg4, hd2, hg2, ?_⟩
  rw [ht]
  calc m = g1 ++ (m.trim ++ g2) := h1
    _ = g1 ++ ((d1 ++ ((g3 ++ (Text.trim v ++ g4)) ++ d2)) ++ g2) := by rw [← h4, ← h3, ← h2]
    _ = _ := by simp

/-! ### Names -/

theorem Token.IsGap.nil_or {g : Text} (h : IsGap g) : g = [] ∨ ∃ c r, g = c :: r ∧ isBlank c = true := by
  cases g with
  | nil => exact Or.inl rfl
  | cons c r => exact Or.inr ⟨c, r, rfl, h c (List.mem_cons_self ..)⟩

/-- Blanks, a dash and blanks end a name. -/
theorem isTail_gap {g d g' : Text} (hg : IsGap g) (hd : IsDash d) (hg' : IsGap g') :
    IsTail (g ++ (d ++ g')) := by
  rcases hg.nil_or with rfl | ⟨c, r, rfl, hc⟩
  · rcases hd with rfl | rfl
    · exact hg'.nil_or.imp_right Or.inl
    · exact Or.inr (Or.inr ⟨g', hg', rfl⟩)
  · exact Or.inr (Or.inl ⟨c, r ++ (d ++ g'), rfl, hc⟩)

theorem takeWhile_solid {w r : Text} (hw : IsSolid w)
    (hr : r = [] ∨ ∃ c s, r = c :: s ∧ isBlank c = true) :
    (w ++ r).takeWhile (! isBlank ·) = w := by
  rw [List.takeWhile_append_of_pos fun c hc => by rw [(hw.2 c hc).1]; rfl]
  rcases hr with rfl | ⟨c, s, rfl, hc⟩
  · simp
  · rw [List.takeWhile_cons_of_neg (by rw [hc]; simp), List.append_nil]

/-- A text starts with the name read from it, and any name but the number sign runs to a blank or to
the end. -/
theorem exists_append_tagName (t : Text) : ∃ rest, t = tagName t ++ rest ∧
    (tagName t ≠ ['#'] → ∀ c ∈ rest.head?, isBlank c = true) := by
  unfold tagName
  split
  · exact ⟨_, rfl, fun h => absurd rfl h⟩
  · refine ⟨t.dropWhile (! isBlank ·), List.takeWhile_append_dropWhile.symm, fun _ c hc => ?_⟩
    have hstop := List.head?_dropWhile_not (! isBlank ·) t
    rw [Option.mem_def.1 hc] at hstop
    simpa using hstop

/-- **Where a name stands**: after a lead and before a tail. -/
theorem nameOf_eq_iff {m w : Text} (hw : IsSolid w) (hsign : '#' ∉ w) :
    nameOf m = String.ofList w ↔ ∃ lead tail, IsLead lead ∧ IsTail tail ∧ m = lead ++ (w ++ tail) := by
  rw [nameOf, String.ofList_inj]
  constructor
  · -- what the trims and the name leave out is put back as the lead and the tail
    intro h
    obtain ⟨lead, g, d, g', hl, hg, hd, hg', hm⟩ := exists_append_trimMarkup m
    obtain ⟨r, ht, hblank⟩ := exists_append_tagName (trimMarkup m)
    rw [h] at ht hblank
    have hne : w ≠ ['#'] := fun he => hsign (he ▸ List.mem_singleton.2 rfl)
    refine ⟨lead, r ++ (g ++ (d ++ g')), hl, ?_, by rw [hm, ht, List.append_assoc]⟩
    cases r with
    | nil =>
      rw [List.nil_append]
      exact isTail_gap hg hd hg'
    | cons c r => exact Or.inr (Or.inl ⟨c, _, rfl, hblank hne c rfl⟩)
  · rintro ⟨lead, tail, hl, htail, rfl⟩
    have ht := trimMarkup_lead hl hw tail
    have hdash : (∃ g, IsGap g ∧ tail = '-' :: g) → trimTail tail = [] := by
      rintro ⟨g, hg, rfl⟩
      exact trimTail_dash hg
    obtain ⟨g, d, g', -, -, -, hq⟩ := exists_trimTail_append tail
    generalize trimTail tail = r at ht hdash hq
    -- the name ends at the end of the markup or at a blank
    have hr : r = [] ∨ ∃ c s, r = c :: s ∧ isBlank c = true := by
      rcases htail with rfl | ⟨c, s, rfl, hc⟩ | hgap
      · exact Or.inl (List.append_eq_nil_iff.1 hq.symm).1
      · cases r with
        | nil => exact Or.inl rfl
        | cons e r => exact Or.inr ⟨e, r, rfl, (List.cons.inj hq).1 ▸ hc⟩
      · exact Or.inl (hdash hgap)
    rw [ht]
    unfold tagName
    split
    · -- a comment sign at the front would be in `w`
      rename_i u hu
      obtain ⟨c, w, rfl⟩ := List.exists_cons_of_ne_nil hw.1
      rw [List.cons_append] at hu
      exact absurd (by rw [(List.cons.inj hu).1]; exact List.mem_cons_self ..) hsign
    · exact takeWhile_solid hw hr

/-- A number sign after a lead is a name, whatever follows. -/
theorem nameOf_eq_sign_iff {m : Text} :
    nameOf m = "#" ↔ ∃ lead tail, IsLead lead ∧ m = lead ++ '#' :: tail := by
  have hw : IsSolid ['#'] := ⟨by simp, by simp; decide⟩
  rw [nameOf, show "#" = String.ofList ['#'] from rfl, String.ofList_inj]
  constructor
  · intro h
    obtain ⟨lead, g, d, g', hl, -, -, -, hm⟩ := exists_append_trimMarkup m
    obtain ⟨r, ht, -⟩ := exists_append_tagName (trimMarkup m)
    rw [h] at ht
    exact ⟨lead, r ++ (g ++ (d ++ g')), hl, by rw [hm, ht]; rfl⟩
  · rintro ⟨lead, tail, hl, rfl⟩
    have ht := trimMarkup_lead hl hw tail
    rw [List.singleton_append, List.singleton_append] at ht
    rw [ht]
    rfl

/-! ### Words -/

/-- A word of lower-case letters, as all listed names but the number sign are. -/
def IsWord (w : Text) : Prop := w ≠ [] ∧ ∀ c ∈ w, c.isLower = true

instance : DecidablePred IsWord := fun w =>
  decidable_of_iff (w ≠ [] ∧ w.all Char.isLower = true) (and_congr_right fun _ => List.all_eq_true)

theorem not_isBlank_of_isLower {c : Char} (h : c.isLower = true) : isBlank c = false := by
  have h1 : 97 ≤ c.toNat ∧ c.toNat ≤ 122 := by
    have h' : (decide (97 ≤ c.toNat) && decide (c.toNat ≤ 122)) = true := h
    rwa [Bool.and_eq_true, decide_eq_true_eq, decide_eq_true_eq] at h'
  simp only [isBlank, Bool.or_eq_false_iff, Bool.and_eq_false_iff, decide_eq_false_iff_not,
    beq_eq_false_iff_ne]
  omega

theorem IsWord.ne {w : Text} (h : IsWord w) {c : Char} (hc : c.isLower = false) : c ∉ w := by
  intro hm
  rw [h.2 c hm] at hc
  cases hc

theorem IsWord.solid {w : Text} (h : IsWord w) : IsSolid w :=
  ⟨h.1, fun c hc => ⟨not_isBlank_of_isLower (h.2 c hc), fun he => h.ne (c := '-') rfl (he ▸ hc)⟩⟩

/-- **Where a word is the name**: after a lead and before a tail. -/
theorem nameOf_eq_word_iff {m : Text} {name : String} (hw : IsWord name.toList) :
    nameOf m = name ↔
      ∃ lead tail, IsLead lead ∧ IsTail tail ∧ m = lead ++ (name.toList ++ tail) := by
  have := nameOf_eq_iff (m := m) hw.solid (hw.ne rfl)
  rwa [String.ofList_toList] at this

theorem isWord_end {name : String} (h : IsWord name.toList) : IsWord ("end" ++ name).toList := by
  rw [String.toList_append]
  refine ⟨by simp, fun c hc => ?_⟩
  rcases List.mem_append.1 hc with hc | hc
  · have hend : IsWord "end".toList := by decide
    exact hend.2 c hc
  · exact h.2 c hc

theorem isWord_of_mem_rawTags : ∀ name ∈ rawTags, IsWord name.toList := by decide

theorem isWord_of_mem_blockTags : ∀ name ∈ blockTags, IsWord name.toList := by decide

/-- The name of an end tag of a raw tag is `end` and the name of the raw tag. -/
theorem nameOf_of_isRawEnd {name : String} {n : Text} (hw : IsWord name.toList)
    (h : Token.IsRawEnd name.toList n) : nameOf n = "end" ++ name := by
  obtain ⟨lead, front, back, trail, hlead, hfront, hback, htrail, rfl⟩ := h
  rw [nameOf_eq_word_iff (isWord_end hw)]
  refine ⟨[] ++ (lead ++ front), back ++ (trail ++ []), ⟨[], lead, front, isGap_nil, hlead, hfront, rfl⟩,
    isTail_gap hback htrail isGap_nil, ?_⟩
  rw [String.toList_append]
  simp

end LiquidLint.Liquid
