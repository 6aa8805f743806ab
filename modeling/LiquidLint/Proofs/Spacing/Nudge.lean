import LiquidLint.Proofs.Liquid.Name
import LiquidLint.Proofs.Spacing.Mending

/-!
# Respaced markup says the same

A `Nudge` changes white space of markup as mending a flaw does: a missing space is put in, but never
inside a word, before a first dash or after a last one, or several spaces become one. All that a tag
is known by outlives it: its characters other than spaces, its closing delimiter, its name and, for
the end tag of a raw tag, the form that is looked for.
-/

namespace LiquidLint.Spacing

open Liquid (IsLead IsTail IsWord nameOf)
open Liquid.Token (ClosedBy IsGap IsDash IsRawEnd)

/-- The markup without its spaces. -/
def unspaced (m : Text) : Text := m.filter (· != ' ')

/-- A letter on either side. -/
def InsideWord (p q : Text) : Prop :=
  (∃ a ∈ p.getLast?, a.isLower = true) ∧ ∃ b ∈ q.head?, b.isLower = true

/-- White space of `m` is changed in one place to give `m'`. -/
def Nudge (m m' : Text) : Prop :=
  ∃ p g q, m = p ++ (g ++ q) ∧ m' = p ++ ' ' :: q ∧ Uneven g ∧ (g = [] → ¬ InsideWord p q) ∧
    (p = [] → (g ++ q).head? ≠ some '-') ∧ (q = [] → (p ++ g).getLast? ≠ some '-')

/-! ### Mending nudges -/

theorem Flaw.not_insideWord {separators : Bool} {p g q : Text} (h : Flaw separators p g q) :
    ¬ InsideWord p q := by
  rintro ⟨⟨a, ha, hal⟩, b, hb, hbl⟩
  cases h with
  | lead _ hp =>
    rcases hp with ⟨rfl, -⟩ | rfl
    · cases ha
    · rw [← Option.some.inj ha] at hal
      cases hal
  | trail _ hq =>
    rcases hq with ⟨rfl, -⟩ | rfl
    · cases hb
    · rw [← Option.some.inj hb] at hbl
      cases hbl
  | separator _ _ _ hs =>
    rw [List.getLast?_concat] at ha
    rw [← Option.some.inj ha] at hal
    simp only [isSeparator, Bool.or_eq_true, beq_iff_eq] at hs
    rcases hs with rfl | rfl <;> cases hal

/-- Mending a flaw is a nudge, also after a delimiter that stands in the middle of markup. -/
theorem MendsTo.nudge {separators : Bool} {m m' : Text} (h : MendsTo separators m m') {a : Text}
    (ha : a = [] ∨ a.getLast? = some '%') : Nudge (a ++ m) (a ++ m') := by
  obtain ⟨p, g, q, rfl, hf, rfl⟩ := h
  refine ⟨a ++ p, g, q, by simp, by simp, hf.uneven, ?_, ?_, ?_⟩
  · rintro - ⟨⟨x, hx, hxl⟩, hq⟩
    by_cases hp : p = []
    · subst hp
      rcases ha with rfl | ha
      · cases hx
      · rw [List.append_nil, ha] at hx
        rw [← Option.some.inj hx] at hxl
        cases hxl
    · rw [List.getLast?_append_of_ne_nil _ hp] at hx
      exact hf.not_insideWord ⟨⟨x, hx, hxl⟩, hq⟩
  · intro hnil
    exact hf.head?_ne_dash (List.append_eq_nil_iff.1 hnil).2
  · rintro rfl
    have hlast := hf.getLast?_ne_dash rfl
    by_cases hpg : p ++ g = []
    · -- nothing follows the delimiter, so there is nothing to mend
      obtain ⟨rfl, rfl⟩ := List.append_eq_nil_iff.1 hpg
      rcases ha with rfl | ha
      · exact hlast
      · rw [List.append_nil, List.append_nil, ha]
        decide
    · rwa [List.append_assoc, List.getLast?_append_of_ne_nil _ hpg]

/-! ### What a nudge keeps -/

variable {m m' : Text}

theorem Nudge.unspaced (h : Nudge m m') : unspaced m' = unspaced m := by
  obtain ⟨p, g, q, rfl, rfl, hg, -⟩ := h
  have hspaces : g.filter (· != ' ') = [] := by
    rw [List.filter_eq_nil_iff]
    intro c hc
    simp [hg.isGap c hc]
  simp [Spacing.unspaced, hspaces]

theorem Nudge.closedBy {a b : Char} (ha : a ≠ ' ') (hb : b ≠ ' ') (h : Nudge m m')
    (hm : ClosedBy a b m) : ClosedBy a b m' := by
  obtain ⟨p, g, q, rfl, rfl, -⟩ := h
  intro hp
  rw [List.append_assoc, List.cons_append] at hp
  apply hm
  rcases Text.pair_infix_append hp with hp | hp | ⟨-, hp⟩
  · rw [List.append_assoc]
    exact hp.trans (List.prefix_append _ _).isInfix
  · -- the space is no part of the pair
    rcases Text.pair_infix_append (s := [' ']) (t := q ++ [a]) hp with hp | hp | ⟨hp, -⟩
    · have := hp.length_le
      simp at this
    · have hsuffix : q ++ [a] <:+ p ++ (g ++ q) ++ [a] := ⟨p ++ g, by simp⟩
      exact hp.trans hsuffix.isInfix
    · exact absurd (Option.some.inj hp).symm ha
  · exact absurd (Option.some.inj hp).symm hb

/-! ### Leads, words and tails -/

/-- A lead is made of blanks and at most one dash. -/
theorem isLead_iff {l : Text} :
    IsLead l ↔ (∀ c ∈ l, isBlank c = true ∨ c = '-') ∧ l.count '-' ≤ 1 := by
  have hgap : ∀ {g : Text}, IsGap g → g.count '-' = 0 := by
    intro g hg
    rw [List.count_eq_zero]
    intro hm
    exact absurd (hg _ hm) (by decide)
  constructor
  · -- the dash is the only character of a lead that is no blank
    rintro ⟨g, d, g', hg, hd, hg', rfl⟩
    refine ⟨fun c hc => ?_, ?_⟩
    · rcases List.mem_append.1 hc with hc | hc
      · exact Or.inl (hg c hc)
      · rcases List.mem_append.1 hc with hc | hc
        · rcases hd with rfl | rfl
          · cases hc
          · exact Or.inr (List.mem_singleton.1 hc)
        · exact Or.inl (hg' c hc)
    · rw [List.count_append, List.count_append, hgap hg, hgap hg']
      rcases hd with rfl | rfl <;> decide
  · rintro ⟨hall, hcount⟩
    induction l with
    | nil => exact ⟨[], [], [], Liquid.isGap_nil, Or.inl rfl, Liquid.isGap_nil, rfl⟩
    | cons c l ih =>
      obtain ⟨hc, hl⟩ := List.forall_mem_cons.1 hall
      -- the dash is used up, so what follows it is a gap
      by_cases hdash : c = '-'
      · subst hdash
        rw [List.count_cons_self] at hcount
        refine ⟨[], ['-'], l, Liquid.isGap_nil, Or.inr rfl, fun d hd => ?_, rfl⟩
        refine (hl d hd).resolve_right ?_
        rintro rfl
        have := List.count_pos_iff.2 hd
        omega
      · rw [List.count_cons_of_ne hdash] at hcount
        obtain ⟨g, d, g', hg, hd, hg', rfl⟩ := ih hl hcount
        refine ⟨c :: g, d, g', List.forall_mem_cons.2 ⟨hc.resolve_right hdash, hg⟩, hd, hg', rfl⟩

theorem isLead_nudge {p g r : Text} (h : IsLead (p ++ (g ++ r))) :
    IsLead (p ++ ' ' :: r) := by
  rw [isLead_iff] at h ⊢
  refine ⟨fun c hc => ?_, ?_⟩
  · rcases List.mem_append.1 hc with hc | hc
    · exact h.1 c (List.mem_append_left _ hc)
    · rcases List.mem_cons.1 hc with rfl | hc
      · exact Or.inl rfl
      · exact h.1 c (by simp [hc])
  · have h2 := h.2
    simp only [List.count_append] at h2 ⊢
    rw [List.count_cons_of_ne (by decide)]
    omega

theorem isTail_nudge {p g r : Text} (h : IsTail (p ++ (g ++ r))) :
    IsTail (p ++ ' ' :: r) := by
  cases p with
  | nil => exact Or.inr (Or.inl ⟨' ', r, rfl, rfl⟩)
  | cons x p =>
    rcases h with h | ⟨c, t, ht, hc⟩ | ⟨t, ht, htg⟩
    · simp at h
    · obtain rfl : x = c := (List.cons.inj ht).1
      exact Or.inr (Or.inl ⟨x, _, rfl, hc⟩)
    · obtain ⟨rfl, rfl⟩ := List.cons.inj htg
      refine Or.inr (Or.inr ⟨p ++ ' ' :: r, fun c hc => ?_, rfl⟩)
      rcases List.mem_append.1 hc with hc | hc
      · exact ht c (List.mem_append_left _ hc)
      · rcases List.mem_cons.1 hc with rfl | hc
        · rfl
        · exact ht c (by simp [hc])

/-- **Where white space changes** in markup with a word in it: before the word or after it. -/
theorem split_around_word {lead w tail p g q : Text} (hw : w ≠ []) (hspace : ' ' ∉ w)
    (hword : ∀ a b, a ≠ [] → b ≠ [] → w = a ++ b → InsideWord a b)
    (hm : lead ++ (w ++ tail) = p ++ (g ++ q)) (hg : Uneven g)
    (hinside : g = [] → ¬ InsideWord p q) :
    (∃ r, lead = p ++ (g ++ r) ∧ q = r ++ (w ++ tail)) ∨
    ∃ r, p = lead ++ (w ++ r) ∧ tail = r ++ (g ++ q) := by
  rcases List.append_eq_append_iff.1 hm with ⟨u, rfl, hu⟩ | ⟨u, rfl, hu⟩
  · rcases List.append_eq_append_iff.1 hu with ⟨r, rfl, rfl⟩ | ⟨v, rfl, hq⟩
    · exact Or.inr ⟨r, rfl, rfl⟩
    · by_cases hv : v = []
      · subst hv
        exact Or.inr ⟨[], by simp, by simpa using hq.symm⟩
      · -- spaces cannot stand in the word, so nothing stands there
        obtain ⟨c, v, rfl⟩ := List.exists_cons_of_ne_nil hv
        obtain rfl : g = [] := by
          cases g with
          | nil => rfl
          | cons d g =>
            obtain rfl : d = c := (List.cons.inj hq).1
            obtain rfl : d = ' ' := hg.isGap d (List.mem_cons_self ..)
            exact absurd (by simp) hspace
        obtain rfl : q = c :: v ++ tail := hq
        by_cases hun : u = []
        · subst hun
          exact Or.inl ⟨[], by simp, rfl⟩
        · obtain ⟨⟨x, hx, hxl⟩, hy⟩ := hword u (c :: v) hun (by simp) rfl
          refine absurd ⟨⟨x, ?_, hxl⟩, hy⟩ (hinside rfl)
          rwa [List.getLast?_append_of_ne_nil _ hun]
  · rcases List.append_eq_append_iff.1 hu with ⟨r, rfl, rfl⟩ | ⟨v, rfl, hq⟩
    · exact Or.inl ⟨r, rfl, rfl⟩
    · cases v with
      | nil => exact Or.inl ⟨[], by simp, by simpa using hq.symm⟩
      | cons d v =>
        obtain ⟨c, w, rfl⟩ := List.exists_cons_of_ne_nil hw
        obtain rfl : c = d := (List.cons.inj hq).1
        obtain rfl : c = ' ' := hg.isGap c (by simp)
        exact absurd (List.mem_cons_self ..) hspace

/-- A nudge of markup with a word in it leaves the word alone. -/
theorem Nudge.around_word {lead w tail : Text} (hw : w ≠ []) (hspace : ' ' ∉ w)
    (hword : ∀ a b, a ≠ [] → b ≠ [] → w = a ++ b → InsideWord a b)
    (h : Nudge (lead ++ (w ++ tail)) m') :
    (∃ p g r, lead = p ++ (g ++ r) ∧ m' = (p ++ ' ' :: r) ++ (w ++ tail) ∧
      (p = [] → (lead ++ (w ++ tail)).head? ≠ some '-')) ∨
    ∃ p g r, tail = p ++ (g ++ r) ∧ m' = lead ++ (w ++ (p ++ ' ' :: r)) ∧
      (r = [] → (lead ++ (w ++ tail)).getLast? ≠ some '-') := by
  obtain ⟨p, g, q, hm, rfl, hg, hinside, hfirst, hlast⟩ := h
  rcases split_around_word hw hspace hword hm hg hinside with ⟨r, rfl, rfl⟩ | ⟨r, rfl, rfl⟩
  · refine Or.inl ⟨p, g, r, rfl, by simp, ?_⟩
    rintro rfl
    rw [hm]
    exact hfirst rfl
  · refine Or.inr ⟨r, g, q, rfl, by simp, ?_⟩
    rintro rfl
    rw [hm, ← List.append_assoc, List.append_nil]
    exact hlast rfl

theorem insideWord_of_isWord {w : Text} (hw : IsWord w) :
    ∀ a b, a ≠ [] → b ≠ [] → w = a ++ b → InsideWord a b := by
  rintro a b ha hb rfl
  refine ⟨⟨a.getLast ha, List.getLast?_eq_some_getLast ha, ?_⟩, b.head hb,
    List.head?_eq_some_head hb, ?_⟩
  · exact hw.2 _ (List.mem_append_left _ (List.getLast_mem ha))
  · exact hw.2 _ (List.mem_append_right _ (List.head_mem hb))

/-- **Names outlive nudges**: words. -/
theorem Nudge.nameOf_word {name : String} (hw : IsWord name.toList) (h : Nudge m m')
    (hm : nameOf m = name) : nameOf m' = name := by
  rw [Liquid.nameOf_eq_word_iff hw] at hm ⊢
  obtain ⟨lead, tail, hl, ht, rfl⟩ := hm
  rcases h.around_word hw.1 (hw.ne rfl) (insideWord_of_isWord hw) with
    ⟨p, g, r, rfl, rfl, -⟩ | ⟨p, g, r, rfl, rfl, -⟩
  · exact ⟨_, tail, isLead_nudge hl, ht, rfl⟩
  · exact ⟨lead, _, hl, isTail_nudge ht, rfl⟩

/-- **Names outlive nudges**: the number sign. -/
theorem Nudge.nameOf_sign (h : Nudge m m') (hm : nameOf m = "#") : nameOf m' = "#" := by
  rw [Liquid.nameOf_eq_sign_iff] at hm ⊢
  obtain ⟨lead, tail, hl, rfl⟩ := hm
  have hword : ∀ a b : Text, a ≠ [] → b ≠ [] → ['#'] = a ++ b → InsideWord a b := by
    intro a b ha hb hab
    have hlen := congrArg List.length hab
    have h1 := List.length_pos_iff.2 ha
    have h2 := List.length_pos_iff.2 hb
    simp only [List.length_cons, List.length_nil, List.length_append] at hlen
    omega
  rcases Nudge.around_word (w := ['#']) (by simp) (by decide) hword h with
    ⟨p, g, r, rfl, rfl, -⟩ | ⟨p, g, r, rfl, rfl, -⟩
  · exact ⟨_, tail, isLead_nudge hl, rfl⟩
  · exact ⟨lead, _, hl, rfl⟩

/-- **End tags of raw tags outlive nudges.** -/
theorem Nudge.isRawEnd {w : Text} (hw : IsWord w) (h : Nudge m m') (hm : IsRawEnd w m) :
    IsRawEnd w m' := by
  obtain ⟨lead, front, back, trail, hlead, hfront, hback, htrail, rfl⟩ := hm
  -- the closing name is a word, so no space goes inside it
  have hend : IsWord ('e' :: 'n' :: 'd' :: w) := by
    refine ⟨by simp, fun c hc => ?_⟩
    simp only [List.mem_cons] at hc
    rcases hc with rfl | rfl | rfl | hc
    · rfl
    · rfl
    · rfl
    · exact hw.2 c hc
  have hgap : ∀ {a g b : Text}, IsGap (a ++ (g ++ b)) → IsGap (a ++ ' ' :: b) := by
    intro a g b hg c hc
    rcases List.mem_append.1 hc with hc | hc
    · exact hg c (List.mem_append_left _ hc)
    · rcases List.mem_cons.1 hc with rfl | hc
      · rfl
      · exact hg c (by simp [hc])
  have hform : lead ++ (front ++ ('e' :: 'n' :: 'd' :: (w ++ (back ++ trail))))
      = (lead ++ front) ++ (('e' :: 'n' :: 'd' :: w) ++ (back ++ trail)) := by simp
  rw [hform] at h
  -- the space goes in front of the closing name or behind it
  rcases h.around_word hend.1 (hend.ne rfl) (insideWord_of_isWord hend) with
    ⟨p, g, r, hpgr, rfl, hfirst⟩ | ⟨p, g, r, hpgr, rfl, hlast⟩
  · rcases hlead with rfl | rfl
    · refine ⟨[], p ++ ' ' :: r, back, trail, Or.inl rfl, ?_, hback, htrail, by simp⟩
      rw [List.nil_append] at hpgr
      exact hgap (hpgr ▸ hfront)
    · cases p with
      | nil => exact absurd rfl (hfirst rfl)
      | cons x p =>
        obtain ⟨rfl, rfl⟩ := List.cons.inj hpgr
        exact ⟨['-'], p ++ ' ' :: r, back, trail, Or.inr rfl, hgap hfront, hback, htrail, by simp⟩
  · rcases htrail with rfl | rfl
    · refine ⟨lead, front, p ++ ' ' :: r, [], hlead, hfront, ?_, Or.inl rfl, by simp⟩
      rw [List.append_nil] at hpgr
      exact hgap (hpgr ▸ hback)
    · rcases List.eq_nil_or_concat r with rfl | ⟨r, x, rfl⟩
      · refine absurd ?_ (hlast rfl)
        rw [← List.append_assoc, ← List.append_assoc, List.getLast?_concat]
      · rw [List.concat_eq_append, ← List.append_assoc, ← List.append_assoc] at hpgr
        obtain ⟨hb, hx⟩ := List.append_inj' hpgr rfl
        obtain rfl : '-' = x := (List.cons.inj hx).1
        rw [List.append_assoc] at hb
        refine ⟨lead, front, p ++ ' ' :: r, ['-'], hlead, hfront, hgap (hb ▸ hback), Or.inr rfl, ?_⟩
        simp

/-! ### Any number of nudges -/

/-- White space of `m` is changed in any number of places to give `m'`. -/
def Respaced (m m' : Text) : Prop := Relation.ReflTransGen Nudge m m'

theorem respaced_of_mendsTo {separators : Bool} {a : Text} (ha : a = [] ∨ a.getLast? = some '%')
    (h : Relation.ReflTransGen (MendsTo separators) m m') : Respaced (a ++ m) (a ++ m') :=
  h.lift (a ++ ·) fun _ _ h => h.nudge ha

/-- **What every nudge keeps** is kept by all of them. -/
theorem Respaced.keep {P : Text → Prop} (hkeep : ∀ m m', Nudge m m' → P m → P m')
    (h : Respaced m m') (hm : P m) : P m' := by
  induction h with
  | refl => exact hm
  | tail _ hn ih => exact hkeep _ _ hn ih

theorem Respaced.unspaced (h : Respaced m m') : Spacing.unspaced m' = Spacing.unspaced m :=
  h.keep (P := fun u => Spacing.unspaced u = Spacing.unspaced m) (fun _ _ hn hu => hn.unspaced.trans hu)
    rfl

theorem Respaced.closedBy {a b : Char} (ha : a ≠ ' ') (hb : b ≠ ' ') (h : Respaced m m')
    (hm : ClosedBy a b m) : ClosedBy a b m' :=
  h.keep (fun _ _ hn => hn.closedBy ha hb) hm

theorem Respaced.nameOf_word {name : String} (hw : IsWord name.toList) (h : Respaced m m')
    (hm : nameOf m = name) : nameOf m' = name :=
  h.keep (P := fun u => nameOf u = name) (fun _ _ hn => hn.nameOf_word hw) hm

theorem Respaced.nameOf_sign (h : Respaced m m') (hm : nameOf m = "#") : nameOf m' = "#" :=
  h.keep (P := fun u => nameOf u = "#") (fun _ _ hn => hn.nameOf_sign) hm

theorem Respaced.isRawEnd {w : Text} (hw : IsWord w) (h : Respaced m m') (hm : IsRawEnd w m) :
    IsRawEnd w m' :=
  h.keep (fun _ _ hn => hn.isRawEnd hw) hm

end LiquidLint.Spacing
