import LiquidLint.Liquid.Token
import LiquidLint.Proofs.Text.Cut

/-!
# Tokens as cuts of a template

`Cuts t tokens fault` says, without running the scanner, that the text `t` falls into `tokens` from
left to right, up to an opening delimiter that is never closed if there is a `fault`: text runs to
the next opening delimiter, a variable and a tag end at the first closing delimiter after the opening
one (`ClosedBy`), and a raw block ends at the first end tag of its name (`IsRawEnd`, `NoRawEnd`).
`cuts_iff` says that `scan` finds exactly these cuts, so every text has exactly one.
-/

namespace LiquidLint.Liquid

/-- The name of the tag with the given markup. -/
def nameOf (markup : Text) : String := String.ofList (tagName (trimMarkup markup))

namespace Token

open Text (dropStart?_eq_some_iff)

/-! ### Closing delimiters -/

/-- The pair `a`, `b` closes the markup `m`: put after `m` it stands there for the first time. -/
def ClosedBy (a b : Char) (m : Text) : Prop := ¬ [a, b] <:+: m ++ [a]

theorem cutClose_append {a b : Char} {m : Text} (h : ClosedBy a b m) (rest : Text) :
    cutClose a b (m ++ a :: b :: rest) = some (m, rest) := by
  induction m with
  | nil => rw [List.nil_append, cutClose, if_pos ⟨rfl, rfl⟩]
  | cons x m ih =>
    have hm : ClosedBy a b m := fun hp => h (hp.trans (List.suffix_cons x _).isInfix)
    -- the second character never completes the pair, because `m` would hold it
    have hne : ∀ y t, m ++ a :: b :: rest = y :: t → ¬ (x = a ∧ y = b) := by
      rintro y t hy ⟨rfl, rfl⟩
      apply h
      cases m with
      | nil =>
        simp only [List.nil_append, List.cons.injEq] at hy
        obtain ⟨rfl, -⟩ := hy
        exact ⟨[], [], rfl⟩
      | cons z m =>
        simp only [List.cons_append, List.cons.injEq] at hy
        obtain ⟨rfl, -⟩ := hy
        exact ⟨[], m ++ [x], rfl⟩
    obtain ⟨y, t, hy⟩ : ∃ y t, m ++ a :: b :: rest = y :: t := by
      cases m with
      | nil => exact ⟨a, b :: rest, rfl⟩
      | cons z m => exact ⟨z, m ++ a :: b :: rest, rfl⟩
    rw [List.cons_append, hy, cutClose, if_neg (hne y t hy), ← hy, ih hm]
    rfl

/-- **Cutting at a closing delimiter** finds the first one. -/
theorem cutClose_eq_some_iff {a b : Char} {t m rest : Text} :
    cutClose a b t = some (m, rest) ↔ t = m ++ a :: b :: rest ∧ ClosedBy a b m := by
  constructor
  · intro h
    induction t generalizing m with
    | nil => simp [cutClose] at h
    | cons x t ih =>
      cases t with
      | nil => simp [cutClose] at h
      | cons y t =>
        rw [cutClose] at h
        split at h
        · rename_i hxy
          simp only [Option.some.injEq, Prod.mk.injEq] at h
          obtain ⟨rfl, rfl⟩ := h
          refine ⟨by rw [hxy.1, hxy.2]; rfl, fun hp => ?_⟩
          have := hp.length_le
          simp at this
        · rename_i hxy
          obtain ⟨⟨m', r'⟩, hm, he⟩ := Option.map_eq_some_iff.1 h
          simp only [Prod.mk.injEq] at he
          obtain ⟨rfl, rfl⟩ := he
          obtain ⟨ht, hc⟩ := ih hm
          refine ⟨by rw [ht]; rfl, fun hp => ?_⟩
          rcases List.infix_cons_iff.1 hp with hp | hp
          · obtain ⟨u, hu⟩ := hp
            have hu1 : a = x := (List.cons.inj hu).1
            have hu2 : b :: u = m' ++ [a] := (List.cons.inj hu).2
            -- the character after `x` is `y`, whichever part it lies in
            have hy : y = b := by
              cases m' with
              | nil => exact (List.cons.inj ht).1.trans (List.cons.inj hu2).1.symm
              | cons z m' => exact (List.cons.inj ht).1.trans (List.cons.inj hu2).1.symm
            exact hxy ⟨hu1.symm, hy⟩
          · exact hc hp
  · rintro ⟨rfl, h⟩
    exact cutClose_append h rest

/-- Cutting at a closing delimiter fails when there is none. -/
theorem cutClose_eq_none_iff {a b : Char} {t : Text} :
    cutClose a b t = none ↔ ¬ [a, b] <:+: t := by
  constructor
  · -- by induction on the text: the pair is either here, where the cut finds it, or in the tail
    intro h hp
    induction t with
    | nil => simpa using hp.length_le
    | cons x t ih =>
      cases t with
      | nil => simpa using hp.length_le
      | cons y t =>
        rw [cutClose] at h
        split at h
        · simp at h
        · rename_i hxy
          rcases List.infix_cons_iff.1 hp with hp | hp
          · obtain ⟨u, hu⟩ := hp
            simp only [List.cons_append, List.nil_append, List.cons.injEq] at hu
            exact hxy ⟨hu.1.symm, hu.2.1.symm⟩
          · exact ih (by simpa using h) hp
  · intro h
    rw [Option.eq_none_iff_forall_ne_some]
    rintro ⟨m, rest⟩ hm
    obtain ⟨rfl, -⟩ := cutClose_eq_some_iff.1 hm
    exact h ⟨m, rest, by simp⟩

/-! ### End tags of raw blocks -/

/-- A dash that asks for white space control, or none. -/
def IsDash (d : Text) : Prop := d = [] ∨ d = ['-']

/-- A text of blanks. -/
def IsGap (g : Text) : Prop := ∀ c ∈ g, isBlank c = true

/-- `m` is the markup of an end tag of the raw tag `name`: `end` and the name between blanks, and
outside of these an optional dash on either side. -/
def IsRawEnd (name m : Text) : Prop :=
  ∃ lead front back trail, IsDash lead ∧ IsGap front ∧ IsGap back ∧ IsDash trail ∧
    m = lead ++ (front ++ ('e' :: 'n' :: 'd' :: (name ++ (back ++ trail))))

/-- An end tag of the raw tag `name` stands at the start of the text. -/
def StartsRawEnd (name t : Text) : Prop := ∃ m rest, IsRawEnd name m ∧ t = tagLexeme m ++ rest

/-- What holds of all places inside a text holds of its start and of all later ones. -/
theorem forall_append_cons {P : Text → Prop} {c : Char} {t : Text} :
    (∀ a b, c :: t = a ++ b → b ≠ [] → P b) ↔ P (c :: t) ∧ ∀ a b, t = a ++ b → b ≠ [] → P b := by
  constructor
  · intro h
    refine ⟨h [] (c :: t) rfl (List.cons_ne_nil c t), fun a b hab hb => ?_⟩
    exact h (c :: a) b (by rw [hab]; rfl) hb
  · rintro ⟨h1, h2⟩ a b hab hb
    cases a with
    | nil =>
      rw [List.nil_append] at hab
      rwa [← hab]
    | cons d a => exact h2 a b (List.cons.inj hab).2 hb

/-- No end tag of the raw tag `name` starts inside `body` when `rest` follows it. -/
def NoRawEnd (name body rest : Text) : Prop :=
  ∀ a b, body = a ++ b → b ≠ [] → ¬ StartsRawEnd name (b ++ rest)

theorem exists_append_dropDash (t : Text) : ∃ d, IsDash d ∧ t = d ++ dropDash t := by
  unfold dropDash
  split
  · exact ⟨['-'], Or.inr rfl, rfl⟩
  · exact ⟨[], Or.inl rfl, rfl⟩

theorem exists_append_trimStart (t : Text) : ∃ g, IsGap g ∧ t = g ++ t.trimStart := by
  refine ⟨t.takeWhile isBlank, fun c hc => ?_, (List.takeWhile_append_dropWhile).symm⟩
  exact List.all_eq_true.1 (List.all_takeWhile) c hc

theorem dropDash_append {d t : Text} (hd : IsDash d) (h : t.head? ≠ some '-') :
    dropDash (d ++ t) = t := by
  rcases hd with rfl | rfl
  · rw [List.nil_append, dropDash]
    intro rest hr
    rw [hr] at h
    exact h rfl
  · rfl

theorem trimStart_append {g t : Text} (hg : IsGap g) (h : ∀ c ∈ t.head?, isBlank c = false) :
    Text.trimStart (g ++ t) = t := by
  induction g with
  | nil =>
    cases t with
    | nil => rfl
    | cons c t =>
      have hc : isBlank c = false := h c rfl
      simp [Text.trimStart, Text.trimStartBy, hc]
  | cons c g ih =>
    have hc : isBlank c = true := hg c (List.mem_cons_self ..)
    have := ih fun d hd => hg d (List.mem_cons_of_mem c hd)
    simpa [Text.trimStart, Text.trimStartBy, hc] using this

/-- A gap in front of a character that is not a dash does not start with a dash. -/
theorem head?_gap_append {g : Text} (hg : IsGap g) {c : Char} (hc : c ≠ '-') (t : Text) :
    (g ++ c :: t).head? ≠ some '-' := by
  cases g with
  | nil => simpa using hc
  | cons d g =>
    intro h
    simp only [List.cons_append, List.head?_cons, Option.some.injEq] at h
    have := hg d (List.mem_cons_self ..)
    rw [h] at this
    exact absurd this (by decide)

/-- **Reading an end tag**: what follows it, if the text starts with one. -/
theorem afterRawClose?_eq_some_iff {name t rest : Text} :
    afterRawClose? name t = some rest ↔ ∃ m, IsRawEnd name m ∧ t = tagLexeme m ++ rest := by
  constructor
  · intro h
    simp only [afterRawClose?, bind, Option.bind_eq_some_iff] at h
    obtain ⟨u, hu, v, hv, hw⟩ := h
    rw [dropStart?_eq_some_iff] at hu hv hw
    obtain ⟨lead, hlead, h1⟩ := exists_append_dropDash u
    obtain ⟨front, hfront, h2⟩ := exists_append_trimStart (dropDash u)
    obtain ⟨back, hback, h3⟩ := exists_append_trimStart v
    obtain ⟨trail, htrail, h4⟩ := exists_append_dropDash v.trimStart
    refine ⟨_, ⟨lead, front, back, trail, hlead, hfront, hback, htrail, rfl⟩, ?_⟩
    rw [hu, h1, h2, hv, h3, h4, hw, tagLexeme]
    simp
  · rintro ⟨m, ⟨lead, front, back, trail, hlead, hfront, hback, htrail, rfl⟩, rfl⟩
    -- each drop and trim takes its piece and stops, since the next one cannot start with what it
    -- takes
    have h1 : dropDash (lead ++ (front ++ 'e' :: 'n' :: 'd' ::
        (name ++ (back ++ (trail ++ '%' :: '}' :: rest))))) = _ :=
      dropDash_append hlead (head?_gap_append hfront (by decide) _)
    have h2 : Text.trimStart (front ++ 'e' :: 'n' :: 'd' ::
        (name ++ (back ++ (trail ++ '%' :: '}' :: rest)))) = _ :=
      trimStart_append hfront (by simp; decide)
    have h3 : Text.trimStart (back ++ (trail ++ '%' :: '}' :: rest))
        = trail ++ '%' :: '}' :: rest := by
      apply trimStart_append hback
      rcases htrail with rfl | rfl <;> simp <;> decide
    have h4 : dropDash (trail ++ '%' :: '}' :: rest) = _ :=
      dropDash_append htrail (by simp)
    have h5 : ∀ r : Text, Text.dropStart? ('e' :: 'n' :: 'd' :: name)
        ('e' :: 'n' :: 'd' :: (name ++ r)) = some r :=
      fun r => Text.dropStart?_append ('e' :: 'n' :: 'd' :: name) r
    simp only [afterRawClose?, bind, tagLexeme, List.cons_append, List.append_assoc,
      List.nil_append, Text.dropStart?, if_pos, Option.bind_some, h1, h2, h5, h3, h4]

theorem startsRawEnd_iff {name t : Text} :
    StartsRawEnd name t ↔ (afterRawClose? name t).isSome = true := by
  rw [Option.isSome_iff_exists]
  constructor
  · rintro ⟨m, rest, hm, ht⟩
    exact ⟨rest, afterRawClose?_eq_some_iff.2 ⟨m, hm, ht⟩⟩
  · rintro ⟨rest, h⟩
    obtain ⟨m, hm, ht⟩ := afterRawClose?_eq_some_iff.1 h
    exact ⟨m, rest, hm, ht⟩

theorem not_startsRawEnd_iff {name t : Text} :
    ¬ StartsRawEnd name t ↔ afterRawClose? name t = none := by
  rw [startsRawEnd_iff]
  simp

theorem noRawEnd_cons {name body rest : Text} {c : Char} :
    NoRawEnd name (c :: body) rest ↔
      ¬ StartsRawEnd name (c :: (body ++ rest)) ∧ NoRawEnd name body rest :=
  forall_append_cons (P := fun b => ¬ StartsRawEnd name (b ++ rest))

theorem noRawEnd_nil {name rest : Text} : NoRawEnd name [] rest := by
  intro a b hab hb
  exact absurd (List.append_eq_nil_iff.1 hab.symm).2 hb

/-- **Cutting at an end tag** finds the first one. -/
theorem cutRaw_eq_some_iff {name t body close rest : Text} :
    cutRaw name t = some (body, close, rest) ↔
      t = body ++ (close ++ rest) ∧ (∃ m, IsRawEnd name m ∧ close = tagLexeme m) ∧
        NoRawEnd name body (close ++ rest) := by
  constructor
  · intro h
    -- the closing tag is either at the front, or found in the tail with one more character in front
    -- of it
    induction t generalizing body with
    | nil => simp [cutRaw] at h
    | cons c t ih =>
      rw [cutRaw] at h
      split at h
      · rename_i r hr
        simp only [Option.some.injEq, Prod.mk.injEq] at h
        obtain ⟨rfl, hclose, rfl⟩ := h
        obtain ⟨m, hm, ht⟩ := afterRawClose?_eq_some_iff.1 hr
        -- the cut takes the closing tag as what the rest is short of the whole
        have hk : close = tagLexeme m := by
          rw [← hclose, ht, ← List.length_cons (a := c), ht, List.length_append,
            Nat.add_sub_cancel, List.take_left]
        refine ⟨by rw [hk, ht]; rfl, ⟨m, hm, hk⟩, noRawEnd_nil⟩
      · rename_i hr
        obtain ⟨⟨b, k, r⟩, hb, he⟩ := Option.map_eq_some_iff.1 h
        simp only [Prod.mk.injEq] at he
        obtain ⟨rfl, rfl, rfl⟩ := he
        obtain ⟨ht, hm, hno⟩ := ih hb
        refine ⟨by rw [ht]; rfl, hm, noRawEnd_cons.2 ⟨?_, hno⟩⟩
        rw [← ht]
        exact not_startsRawEnd_iff.2 hr
  · rintro ⟨rfl, ⟨m, hm, rfl⟩, hno⟩
    -- by induction on the raw text, none of whose suffixes starts a closing tag
    induction body with
    | nil =>
      have hr : afterRawClose? name (tagLexeme m ++ rest) = some rest :=
        afterRawClose?_eq_some_iff.2 ⟨m, hm, rfl⟩
      rw [List.nil_append]
      have hcons : tagLexeme m ++ rest = '{' :: ('%' :: (m ++ ['%', '}']) ++ rest) := rfl
      rw [hcons] at hr ⊢
      have hlen : ('%' :: (m ++ ['%', '}']) ++ rest).length + 1 - rest.length
          = (tagLexeme m).length := by
        simp only [tagLexeme, List.length_append, List.length_cons, List.length_nil]
        omega
      rw [cutRaw, hr]
      simp only [hlen]
      rw [← hcons, List.take_left]
    | cons c body ih =>
      obtain ⟨h1, h2⟩ := noRawEnd_cons.1 hno
      rw [List.cons_append, cutRaw, not_startsRawEnd_iff.1 h1, ih h2]
      rfl

/-- Cutting at an end tag fails when there is none. -/
theorem cutRaw_eq_none_iff {name t : Text} : cutRaw name t = none ↔ NoRawEnd name t [] := by
  induction t with
  | nil => exact ⟨fun _ => noRawEnd_nil, fun _ => rfl⟩
  | cons c t ih =>
    rw [noRawEnd_cons, List.append_nil, not_startsRawEnd_iff, ← ih, cutRaw]
    cases afterRawClose? name (c :: t) <;> simp

/-! ### Text -/

/-- No opening delimiter starts inside `body` when `rest` follows it. -/
def NoOpener (body rest : Text) : Prop :=
  ∀ a b, body = a ++ b → b ≠ [] → opensHere (b ++ rest) = false

/-- A text at whose start a run of characters outside delimiters ends. -/
def EndsText (rest : Text) : Prop := rest = [] ∨ opensHere rest = true

theorem noOpener_nil {rest : Text} : NoOpener [] rest := by
  intro a b hab hb
  exact absurd (List.append_eq_nil_iff.1 hab.symm).2 hb

theorem noOpener_cons {body rest : Text} {c : Char} :
    NoOpener (c :: body) rest ↔
      opensHere (c :: (body ++ rest)) = false ∧ NoOpener body rest :=
  forall_append_cons (P := fun b => opensHere (b ++ rest) = false)

/-- **Cutting text** stops at the first opening delimiter. -/
theorem cutText_eq_iff {t body rest : Text} :
    cutText t = (body, rest) ↔ t = body ++ rest ∧ NoOpener body rest ∧ EndsText rest := by
  constructor
  · intro h
    -- scanning stops at the end or at an opener, and the text before holds neither
    induction t generalizing body with
    | nil =>
      simp only [cutText, Prod.mk.injEq] at h
      obtain ⟨rfl, rfl⟩ := h
      exact ⟨rfl, noOpener_nil, Or.inl rfl⟩
    | cons c t ih =>
      rw [cutText] at h
      split at h
      · rename_i ho
        simp only [Prod.mk.injEq] at h
        obtain ⟨rfl, rfl⟩ := h
        exact ⟨rfl, noOpener_nil, Or.inr ho⟩
      · rename_i ho
        simp only [Prod.mk.injEq] at h
        obtain ⟨rfl, rfl⟩ := h
        obtain ⟨ht, hno, hends⟩ := ih rfl
        refine ⟨by rw [List.cons_append, ← ht], noOpener_cons.2 ⟨?_, hno⟩, hends⟩
        rw [← ht]
        simpa using ho
  · rintro ⟨rfl, hno, hends⟩
    induction body with
    | nil =>
      rcases hends with rfl | ho
      · rfl
      · cases rest with
        | nil => rfl
        | cons c rest => rw [List.nil_append, cutText, if_pos ho]
    | cons c body ih =>
      obtain ⟨h1, h2⟩ := noOpener_cons.1 hno
      rw [List.cons_append, cutText, h1, ih h2]
      rfl

/-! ### Cutting one token -/

/-- `token` can be cut off the start of a text and leaves `rest`. -/
inductive Cut : Text → Token → Text → Prop where
  /-- Characters up to the next opening delimiter. -/
  | text {body rest : Text} : body ≠ [] → NoOpener body rest → EndsText rest →
      Cut (body ++ rest) (.text body) rest
  /-- A variable up to the first closing delimiter. -/
  | output {m : Text} (rest : Text) : ClosedBy '}' '}' m →
      Cut ((Token.variable m).lexeme ++ rest) (.variable m) rest
  /-- A tag up to the first closing delimiter. -/
  | tag {m : Text} (rest : Text) : ClosedBy '%' '}' m → nameOf m ∉ rawTags →
      Cut ((Token.tag m).lexeme ++ rest) (.tag m) rest
  /-- A raw tag up to the first end tag of its name. -/
  | rawBlock {m body n rest : Text} : ClosedBy '%' '}' m → nameOf m ∈ rawTags →
      IsRawEnd (nameOf m).toList n → NoRawEnd (nameOf m).toList body (tagLexeme n ++ rest) →
      Cut ((Token.rawBlock (nameOf m) m body (tagLexeme n)).lexeme ++ rest)
        (.rawBlock (nameOf m) m body (tagLexeme n)) rest

/-- No token can be cut off the start of a text, because something is never closed. -/
inductive Stuck : Text → Fault → Prop where
  /-- A variable without a closing delimiter. -/
  | openVariable {t : Text} : ¬ ['}', '}'] <:+: t → Stuck ('{' :: '{' :: t) .openVariable
  /-- A tag without a closing delimiter. -/
  | openTag {t : Text} : ¬ ['%', '}'] <:+: t → Stuck ('{' :: '%' :: t) .openTag
  /-- A raw tag without an end tag. -/
  | openRaw {m t : Text} : ClosedBy '%' '}' m → nameOf m ∈ rawTags →
      NoRawEnd (nameOf m).toList t [] → Stuck (tagLexeme m ++ t) (.openRaw (nameOf m))

theorem Cut.lexeme_append {t rest : Text} {token : Token} (h : Cut t token rest) :
    t = token.lexeme ++ rest := by
  cases h <;> rfl

theorem cutFirst_of_not_opensHere {c : Char} {t : Text} (h : opensHere (c :: t) = false) :
    cutFirst c t = .ok (.text (c :: (cutText t).1), (cutText t).2) := by
  unfold cutFirst
  split
  · simp [opensHere] at h
  · simp [opensHere] at h
  · rfl

theorem eq_of_opensHere {c : Char} {t : Text} (h : opensHere (c :: t) = true) :
    (∃ u, c :: t = '{' :: '{' :: u) ∨ ∃ u, c :: t = '{' :: '%' :: u := by
  unfold opensHere at h
  split at h
  · rename_i u hu
    exact Or.inl ⟨u, hu⟩
  · rename_i u hu
    exact Or.inr ⟨u, hu⟩
  · exact absurd h (by simp)

theorem cutFirst_variable {m rest : Text} (h : ClosedBy '}' '}' m) :
    cutFirst '{' ('{' :: (m ++ '}' :: '}' :: rest)) = .ok (.variable m, rest) := by
  simp only [cutFirst, cutClose_append h]

theorem cutFirst_tag {m : Text} (h : ClosedBy '%' '}' m) (hn : nameOf m ∉ rawTags) (rest : Text) :
    cutFirst '{' ('%' :: (m ++ '%' :: '}' :: rest)) = .ok (.tag m, rest) := by
  have hc : rawTags.contains (String.ofList (tagName (trimMarkup m))) = false := by
    simpa [nameOf] using hn
  simp only [cutFirst, cutClose_append h, hc]
  rfl

theorem cutFirst_raw {m : Text} (h : ClosedBy '%' '}' m) (hn : nameOf m ∈ rawTags) (rest : Text) :
    cutFirst '{' ('%' :: (m ++ '%' :: '}' :: rest)) =
      match cutRaw (nameOf m).toList rest with
      | some (body, close, after) => .ok (.rawBlock (nameOf m) m body close, after)
      | none => .error (.openRaw (nameOf m)) := by
  have hc : rawTags.contains (String.ofList (tagName (trimMarkup m))) = true := by
    simpa [nameOf] using hn
  have hname : (nameOf m).toList = tagName (trimMarkup m) := String.toList_ofList
  simp only [cutFirst, cutClose_append h, hc, hname, if_true]
  rfl

/-- **One cut**: `cutFirst` cuts off the token that can be cut off. -/
theorem cutFirst_of_cut {c : Char} {cs rest : Text} {token : Token}
    (h : Cut (c :: cs) token rest) : cutFirst c cs = .ok (token, rest) := by
  generalize ht : c :: cs = t at h
  cases h with
  | @text body rest hne hno hends =>
    obtain ⟨d, body, rfl⟩ := List.exists_cons_of_ne_nil hne
    simp only [List.cons_append, List.cons.injEq] at ht
    obtain ⟨rfl, rfl⟩ := ht
    obtain ⟨h1, h2⟩ := noOpener_cons.1 hno
    have h3 : cutText (body ++ rest) = (body, rest) := cutText_eq_iff.2 ⟨rfl, h2, hends⟩
    rw [cutFirst_of_not_opensHere h1, h3]
  | @output m rest hc =>
    simp only [lexeme, List.cons_append, List.append_assoc, List.cons.injEq,
      List.nil_append] at ht
    obtain ⟨rfl, rfl⟩ := ht
    exact cutFirst_variable hc
  | @tag m rest hc hn =>
    simp only [lexeme, tagLexeme, List.cons_append, List.append_assoc, List.cons.injEq,
      List.nil_append] at ht
    obtain ⟨rfl, rfl⟩ := ht
    exact cutFirst_tag hc hn rest
  | @rawBlock m body n rest hc hn hend hno =>
    -- the closing tag is spelled out in the lexeme, so the scanned text is first put in the
    -- scanner's form
    have ht' : c :: cs = '{' :: '%' :: (m ++ '%' :: '}' :: (body ++ (tagLexeme n ++ rest))) := by
      rw [ht, lexeme, tagLexeme]
      simp
    simp only [List.cons.injEq] at ht'
    obtain ⟨rfl, rfl⟩ := ht'
    rw [cutFirst_raw hc hn, cutRaw_eq_some_iff.2 ⟨rfl, ⟨n, hend, rfl⟩, hno⟩]

/-- A text that has no first token is told why. -/
theorem cutFirst_of_stuck {c : Char} {cs : Text} {fault : Fault} (h : Stuck (c :: cs) fault) :
    cutFirst c cs = .error fault := by
  generalize ht : c :: cs = t at h
  cases h with
  | openVariable hno =>
    simp only [List.cons.injEq] at ht
    obtain ⟨rfl, rfl⟩ := ht
    simp only [cutFirst, cutClose_eq_none_iff.2 hno]
  | openTag hno =>
    simp only [List.cons.injEq] at ht
    obtain ⟨rfl, rfl⟩ := ht
    simp only [cutFirst, cutClose_eq_none_iff.2 hno]
  | @openRaw m t hc hn hno =>
    simp only [tagLexeme, List.cons_append, List.append_assoc, List.cons.injEq,
      List.nil_append] at ht
    obtain ⟨rfl, rfl⟩ := ht
    rw [cutFirst_raw hc hn, cutRaw_eq_none_iff.2 hno]

/-- Every text that is not empty has a first token or a reason why there is none. -/
theorem cut_or_stuck (c : Char) (cs : Text) :
    (∃ token rest, Cut (c :: cs) token rest) ∨ ∃ fault, Stuck (c :: cs) fault := by
  -- no opener at the front means text; at an opener the closing delimiter decides, and for a raw
  -- tag its closing tag
  cases ho : opensHere (c :: cs) with
  | false =>
    obtain ⟨h1, h2, h3⟩ := cutText_eq_iff.1 (rfl : cutText cs = ((cutText cs).1, (cutText cs).2))
    have hcut : Cut ((c :: (cutText cs).1) ++ (cutText cs).2) (.text (c :: (cutText cs).1))
        (cutText cs).2 :=
      .text (by simp) (noOpener_cons.2 ⟨by rw [← h1]; exact ho, h2⟩) h3
    rw [List.cons_append, ← h1] at hcut
    exact Or.inl ⟨_, _, hcut⟩
  | true =>
    rcases eq_of_opensHere ho with ⟨u, hu⟩ | ⟨u, hu⟩ <;> rw [hu]
    · cases hc : cutClose '}' '}' u with
      | none => exact Or.inr ⟨_, .openVariable (cutClose_eq_none_iff.1 hc)⟩
      | some p =>
        obtain ⟨m, rest⟩ := p
        obtain ⟨rfl, hm⟩ := cutClose_eq_some_iff.1 hc
        refine Or.inl ⟨.variable m, rest, ?_⟩
        simpa [lexeme] using Cut.output rest hm
    · cases hc : cutClose '%' '}' u with
      | none => exact Or.inr ⟨_, .openTag (cutClose_eq_none_iff.1 hc)⟩
      | some p =>
        obtain ⟨m, rest⟩ := p
        obtain ⟨rfl, hm⟩ := cutClose_eq_some_iff.1 hc
        by_cases hn : nameOf m ∈ rawTags
        · cases hr : cutRaw (nameOf m).toList rest with
          | none =>
            refine Or.inr ⟨.openRaw (nameOf m), ?_⟩
            simpa [tagLexeme] using Stuck.openRaw hm hn (cutRaw_eq_none_iff.1 hr)
          | some q =>
            obtain ⟨body, close, after⟩ := q
            obtain ⟨rfl, ⟨n, hend, rfl⟩, hno⟩ := cutRaw_eq_some_iff.1 hr
            have hcut := Cut.rawBlock hm hn hend hno
            rw [lexeme, tagLexeme] at hcut
            exact Or.inl ⟨_, after, by simpa using hcut⟩
        · refine Or.inl ⟨.tag m, rest, ?_⟩
          simpa [lexeme, tagLexeme] using Cut.tag rest hm hn

/-! ### Cutting a whole text -/

/-- A text falls into `tokens`, up to a place with the given fault if there is one. -/
inductive Cuts : Text → List Token → Option Fault → Prop where
  /-- Nothing is left. -/
  | done : Cuts [] [] none
  /-- No token can be cut off what is left. -/
  | stuck {t : Text} {fault : Fault} : Stuck t fault → Cuts t [] (some fault)
  /-- One token is cut off. -/
  | cut {t rest : Text} {token : Token} {tokens : List Token} {fault : Option Fault} :
      Cut t token rest → Cuts rest tokens fault → Cuts t (token :: tokens) fault

theorem scan_nil : scan [] = ([], none) := by
  rw [scan]

theorem scan_of_cutFirst {c : Char} {cs rest : Text} {token : Token}
    (h : cutFirst c cs = .ok (token, rest)) :
    scan (c :: cs) = (token :: (scan rest).1, (scan rest).2) := by
  rw [scan]
  split
  · rename_i he
    rw [h] at he
    exact absurd he (by simp)
  · rename_i tk r he
    rw [h] at he
    simp only [Except.ok.injEq, Prod.mk.injEq] at he
    obtain ⟨rfl, rfl⟩ := he
    rfl

theorem scan_of_fault {c : Char} {cs : Text} {fault : Fault} (h : cutFirst c cs = .error fault) :
    scan (c :: cs) = ([], some fault) := by
  rw [scan]
  split
  · rename_i he
    rw [h] at he
    simp only [Except.error.injEq] at he
    rw [he]
  · rename_i he
    rw [h] at he
    exact absurd he (by simp)

/-- A token as it is cut off somewhere: its markup ends at the first closing delimiter, and a raw tag
comes with an end tag of its name. -/
def Whole : Token → Prop
  | .text chars => chars ≠ []
  | .variable m => ClosedBy '}' '}' m
  | .tag m => ClosedBy '%' '}' m ∧ nameOf m ∉ rawTags
  | .rawBlock name m _ close => ClosedBy '%' '}' m ∧ name = nameOf m ∧ nameOf m ∈ rawTags ∧
      ∃ n, IsRawEnd (nameOf m).toList n ∧ close = tagLexeme n

theorem Cut.whole {t rest : Text} {token : Token} (h : Cut t token rest) : token.Whole := by
  cases h with
  | text hne => exact hne
  | output _ hm => exact hm
  | tag _ hm hn => exact ⟨hm, hn⟩
  | rawBlock hm hn hend => exact ⟨hm, rfl, hn, _, hend, rfl⟩

theorem Cut.ne_nil {t rest : Text} {token : Token} (h : Cut t token rest) : t ≠ [] := by
  cases h with
  | text hne => simp [hne]
  | _ => simp [lexeme, tagLexeme]

theorem Stuck.ne_nil {t : Text} {fault : Fault} (h : Stuck t fault) : t ≠ [] := by
  cases h <;> simp [tagLexeme]

/-- The scanner finds the cuts of a text. -/
theorem cuts_scan (t : Text) : Cuts t (scan t).1 (scan t).2 := by
  induction hn : t.length using Nat.strongRecOn generalizing t with
  | ind n ih =>
    cases t with
    | nil => rw [scan_nil]; exact .done
    | cons c cs =>
      rcases cut_or_stuck c cs with ⟨token, rest, hcut⟩ | ⟨fault, hstuck⟩
      · have hfirst := cutFirst_of_cut hcut
        rw [scan_of_cutFirst hfirst]
        exact .cut hcut (ih rest.length (by rw [← hn]; exact length_cutFirst_lt hfirst) rest rfl)
      · rw [scan_of_fault (cutFirst_of_stuck hstuck)]
        exact .stuck hstuck

/-- **The cuts of a text are those that the scanner finds.** -/
theorem cuts_iff {t : Text} {tokens : List Token} {fault : Option Fault} :
    Cuts t tokens fault ↔ scan t = (tokens, fault) := by
  constructor
  · intro h
    induction h with
    | done => exact scan_nil
    | @stuck t fault hs =>
      obtain ⟨c, cs, rfl⟩ := List.exists_cons_of_ne_nil hs.ne_nil
      exact scan_of_fault (cutFirst_of_stuck hs)
    | @cut t rest token tokens fault hc _ ih =>
      obtain ⟨c, cs, rfl⟩ := List.exists_cons_of_ne_nil hc.ne_nil
      rw [scan_of_cutFirst (cutFirst_of_cut hc), ih]
  · intro h
    have := cuts_scan t
    rw [h] at this
    exact this

theorem Cuts.whole {t : Text} {tokens : List Token} {fault : Option Fault}
    (h : Cuts t tokens fault) : ∀ token ∈ tokens, token.Whole := by
  induction h with
  | done => simp
  | stuck => simp
  | cut hc _ ih => exact List.forall_mem_cons.2 ⟨hc.whole, ih⟩

/-- The lexemes of the tokens, and what could not be cut, make up the text. -/
theorem Cuts.exists_append {t : Text} {tokens : List Token} {fault : Option Fault}
    (h : Cuts t tokens fault) :
    ∃ rest, t = tokens.flatMap lexeme ++ rest ∧ (fault = none ↔ rest = []) := by
  induction h with
  | done => exact ⟨[], rfl, by simp⟩
  | @stuck t fault hs => exact ⟨t, rfl, by simp [hs.ne_nil]⟩
  | cut hc _ ih =>
    obtain ⟨rest, rfl, hrest⟩ := ih
    exact ⟨rest, by rw [hc.lexeme_append, List.flatMap_cons, List.append_assoc], hrest⟩

end Token

end LiquidLint.Liquid
