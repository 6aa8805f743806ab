import LiquidLint.Proofs.Liquid.Body
import LiquidLint.Proofs.Liquid.Name

/-!
# Where constructs meet

Whether a sequence of constructs reads back as itself is decided at each construct, up to one thing:
texts that stand next to each other are read as one. `Body.Sound` says of each construct what has to
hold, and `Body.glue` joins neighbouring texts. A derivation of a template is sound
(`Body.sound_of_cuts`), and a sound sequence of constructs, whatever it was made from, is cut into the
tokens of the sequence with its texts joined (`Body.cuts_glue`).
-/

namespace LiquidLint.Liquid

open Token (Cut Cuts ClosedBy IsGap IsRawEnd NoRawEnd StartsRawEnd NoOpener EndsText opensHere
  tagLexeme)

/-! ### Text before a delimiter -/

namespace Token

theorem opensHere_cons_cons (c d : Char) (s t : Text) :
    opensHere (c :: d :: s) = opensHere (c :: d :: t) := by
  cases hs : opensHere (c :: d :: s) with
  | true =>
    rcases eq_of_opensHere hs with ⟨u, hu⟩ | ⟨u, hu⟩ <;>
      simp only [List.cons.injEq] at hu <;> obtain ⟨rfl, rfl, -⟩ := hu <;> rfl
  | false =>
    cases ht : opensHere (c :: d :: t) with
    | false => rfl
    | true =>
      rcases eq_of_opensHere ht with ⟨u, hu⟩ | ⟨u, hu⟩ <;>
        simp only [List.cons.injEq] at hu <;> obtain ⟨rfl, rfl, -⟩ := hu <;> cases hs

theorem opensHere_of_ne {c : Char} (hc : c ≠ '{') (t : Text) : opensHere (c :: t) = false := by
  rw [Bool.eq_false_iff]
  intro h
  rcases eq_of_opensHere h with ⟨u, hu⟩ | ⟨u, hu⟩ <;> exact hc (List.cons.inj hu).1

/-- What follows some text matters only to a brace at its end. -/
theorem noOpener_iff {chars rest : Text} : NoOpener chars rest ↔ NoOpener chars [] ∧
    (chars.getLast? = some '{' → opensHere ('{' :: rest) = false) := by
  induction chars with
  | nil => simp [noOpener_nil]
  | cons c chars ih =>
    rw [noOpener_cons, noOpener_cons]
    cases chars with
    | nil =>
      by_cases hc : c = '{'
      · subst hc
        simp [noOpener_nil, opensHere]
      · simp [noOpener_nil, hc, opensHere_of_ne hc]
    | cons d chars =>
      rw [ih, List.getLast?_cons_cons, List.append_nil, List.cons_append,
        opensHere_cons_cons c d (chars ++ rest) chars, and_assoc]

theorem noOpener_append {s t rest : Text} (hs : NoOpener s (t ++ rest)) (ht : NoOpener t rest) :
    NoOpener (s ++ t) rest := by
  induction s with
  | nil => exact ht
  | cons c s ih =>
    rw [noOpener_cons] at hs
    rw [List.cons_append, noOpener_cons, List.append_assoc]
    exact ⟨hs.1, ih hs.2⟩

/-! ### Verbatim text before an end tag -/

theorem brace_not_mem_of_isRawEnd {w n : Text} (hw : IsWord w) (h : IsRawEnd w n) : '{' ∉ n := by
  obtain ⟨lead, front, back, trail, hlead, hfront, hback, htrail, rfl⟩ := h
  have hgap : ∀ {g : Text}, IsGap g → '{' ∉ g := fun hg hm => absurd (hg _ hm) (by decide)
  have hdash : ∀ {d : Text}, IsDash d → '{' ∉ d := by
    rintro d (rfl | rfl) <;> decide
  simp only [List.mem_append, List.mem_cons]
  rintro (h | h | h | h | h | h | h | h)
  · exact hdash hlead h
  · exact hgap hfront h
  · exact absurd h (by decide)
  · exact absurd h (by decide)
  · exact absurd h (by decide)
  · exact hw.ne rfl h
  · exact hgap hback h
  · exact hdash htrail h

/-- An end tag does not reach past the next brace. -/
theorem startsRawEnd_append_brace {w b x : Text} (hw : IsWord w) (hb : b ≠ []) :
    StartsRawEnd w (b ++ '{' :: x) ↔ StartsRawEnd w b := by
  constructor
  · rintro ⟨n, rest, hn, heq⟩
    -- the closing tag lies within `b`, or reaches past it, and then it would hold the brace
    rcases List.append_eq_append_iff.1 heq with ⟨u, hu, hrest⟩ | ⟨u, rfl, -⟩
    · cases u with
      | nil => exact ⟨n, [], hn, by simpa using hu.symm⟩
      | cons y u =>
        obtain rfl : '{' = y := (List.cons.inj hrest).1
        obtain ⟨c, b, rfl⟩ := List.exists_cons_of_ne_nil hb
        have hmem : '{' ∈ '%' :: (n ++ ['%', '}']) := by
          rw [(List.cons.inj hu).2]
          simp
        simp only [List.mem_cons, List.mem_append, List.not_mem_nil, or_false] at hmem
        rcases hmem with h | h | h | h
        · exact absurd h (by decide)
        · exact absurd h (brace_not_mem_of_isRawEnd hw hn)
        · exact absurd h (by decide)
        · exact absurd h (by decide)
    · exact ⟨n, u, hn, rfl⟩
  · rintro ⟨n, rest, hn, rfl⟩
    exact ⟨n, rest ++ '{' :: x, hn, by simp⟩

theorem noRawEnd_brace {w chars x : Text} (hw : IsWord w) :
    NoRawEnd w chars ('{' :: x) ↔ NoRawEnd w chars [] := by
  refine forall₄_congr fun a b _ hb => ?_
  rw [startsRawEnd_append_brace hw hb, List.append_nil]

/-! ### Tokens one by one -/

theorem cuts_cons_iff (token : Token) {rest : Text} {tokens : List Token} {fault : Option Fault} :
    Cuts (token.lexeme ++ rest) (token :: tokens) fault ↔
      Cut (token.lexeme ++ rest) token rest ∧ Cuts rest tokens fault := by
  constructor
  · intro h
    generalize ht : token.lexeme ++ rest = t at h
    cases h with
    | cut hcut hrest =>
      have heq := hcut.lexeme_append
      rw [← ht] at heq
      obtain rfl := List.append_cancel_left heq
      exact ⟨hcut, hrest⟩
  · rintro ⟨h1, h2⟩
    exact .cut h1 h2

theorem Cuts.of_append {ts us : List Token} {rest : Text} {fault : Option Fault}
    (h : Cuts (ts.flatMap lexeme ++ rest) (ts ++ us) fault) : Cuts rest us fault := by
  induction ts with
  | nil => exact h
  | cons token ts ih =>
    rw [List.flatMap_cons, List.append_assoc, List.cons_append, cuts_cons_iff] at h
    exact ih h.2

theorem Cut.text_iff {chars rest : Text} : Cut (chars ++ rest) (.text chars) rest ↔
    chars ≠ [] ∧ NoOpener chars rest ∧ EndsText rest := by
  constructor
  · intro h
    generalize ht : chars ++ rest = t at h
    cases h with
    | text h1 h2 h3 => exact ⟨h1, h2, h3⟩
  · rintro ⟨h1, h2, h3⟩
    exact .text h1 h2 h3

theorem Cut.raw_noRawEnd {m chars n rest t : Text}
    (h : Cut t (.rawBlock (nameOf m) m chars (tagLexeme n)) rest) :
    NoRawEnd (nameOf m).toList chars (tagLexeme n ++ rest) := by
  generalize hraw : Token.rawBlock (nameOf m) m chars (tagLexeme n) = token at h
  cases h with
  | rawBlock _ _ _ hno =>
    obtain ⟨-, rfl, rfl, hn⟩ := Token.rawBlock.inj hraw
    rwa [hn]
  | _ => cases hraw

theorem tagLexeme_inj {m n : Text} (h : tagLexeme m = tagLexeme n) : m = n := by
  simp only [tagLexeme, List.cons.injEq, true_and] at h
  exact List.append_cancel_right h

theorem Whole.isRawEnd {m chars n : Text}
    (h : (Token.rawBlock (nameOf m) m chars (tagLexeme n)).Whole) :
    IsRawEnd (nameOf m).toList n := by
  obtain ⟨-, -, -, n', hn', heq⟩ := h
  rwa [tagLexeme_inj heq]

end Token

/-! ### Sound bodies -/

namespace Body

/-- Every construct can be read as what it is. A brace at the end of a text is harmless only at the very
end; `followed` says whether something comes after the body. -/
def Sound (followed : Bool) : Body → Prop
  | nil => True
  | text chars rest => chars ≠ [] ∧ NoOpener chars [] ∧
      (chars.getLast? = some '{' → rest = nil ∧ followed = false) ∧ rest.Sound followed
  | output m rest => ClosedBy '}' '}' m ∧ rest.Sound followed
  | tag m rest => ClosedBy '%' '}' m ∧ nameOf m ∉ rawTags ∧ rest.Sound followed
  | raw m chars close rest => ClosedBy '%' '}' m ∧ nameOf m ∈ rawTags ∧
      IsRawEnd (nameOf m).toList close ∧ NoRawEnd (nameOf m).toList chars [] ∧ rest.Sound followed
  | block m inner close rest => ClosedBy '%' '}' m ∧ nameOf m ∉ rawTags ∧
      ClosedBy '%' '}' close ∧ nameOf close ∉ rawTags ∧ inner.Sound true ∧ rest.Sound followed

theorem Sound.eq_nil {followed : Bool} {b : Body} (h : b.Sound followed) (hs : b.spell = []) :
    b = nil := by
  cases b with
  | nil => rfl
  | text chars rest =>
    rw [spell_text, List.append_eq_nil_iff] at hs
    exact absurd hs.1 h.1
  | _ => simp [tagLexeme] at hs

section Constructs

variable {m chars close post : Text} {inner rest : Body} {ts : List Token} {fault : Option Fault}

theorem cuts_text_iff : Cuts ((text chars rest).spell ++ post) ((text chars rest).tokens ++ ts) fault ↔
    Token.Cut (chars ++ (rest.spell ++ post)) (.text chars) (rest.spell ++ post) ∧
      Cuts (rest.spell ++ post) (rest.tokens ++ ts) fault := by
  rw [spell_text, List.append_assoc]
  exact Token.cuts_cons_iff (.text chars)

theorem cuts_output_iff : Cuts ((output m rest).spell ++ post) ((output m rest).tokens ++ ts) fault ↔
    Token.Cut ((Token.variable m).lexeme ++ (rest.spell ++ post)) (.variable m) (rest.spell ++ post) ∧
      Cuts (rest.spell ++ post) (rest.tokens ++ ts) fault := by
  have hform : (output m rest).spell ++ post
      = (Token.variable m).lexeme ++ (rest.spell ++ post) := by simp [Token.lexeme]
  rw [hform]
  exact Token.cuts_cons_iff (.variable m)

theorem cuts_tag_iff : Cuts ((tag m rest).spell ++ post) ((tag m rest).tokens ++ ts) fault ↔
    Token.Cut ((Token.tag m).lexeme ++ (rest.spell ++ post)) (.tag m) (rest.spell ++ post) ∧
      Cuts (rest.spell ++ post) (rest.tokens ++ ts) fault := by
  rw [spell_tag, List.append_assoc]
  exact Token.cuts_cons_iff (.tag m)

theorem cuts_raw_iff :
    Cuts ((raw m chars close rest).spell ++ post) ((raw m chars close rest).tokens ++ ts) fault ↔
      Token.Cut ((Token.rawBlock (nameOf m) m chars (tagLexeme close)).lexeme ++ (rest.spell ++ post))
        (.rawBlock (nameOf m) m chars (tagLexeme close)) (rest.spell ++ post) ∧
      Cuts (rest.spell ++ post) (rest.tokens ++ ts) fault := by
  have hform : (raw m chars close rest).spell ++ post
      = (Token.rawBlock (nameOf m) m chars (tagLexeme close)).lexeme ++ (rest.spell ++ post) := by
    simp [Token.lexeme]
  rw [hform]
  exact Token.cuts_cons_iff _

/-- The body of a block is cut up in front of its end tag. -/
theorem cuts_block_iff :
    Cuts ((block m inner close rest).spell ++ post) ((block m inner close rest).tokens ++ ts) fault ↔
      Token.Cut ((Token.tag m).lexeme ++
          (inner.spell ++ ((Token.tag close).lexeme ++ (rest.spell ++ post))))
        (.tag m) (inner.spell ++ ((Token.tag close).lexeme ++ (rest.spell ++ post))) ∧
      Cuts (inner.spell ++ ((Token.tag close).lexeme ++ (rest.spell ++ post)))
        (inner.tokens ++ (.tag close :: (rest.tokens ++ ts))) fault := by
  have hform : (block m inner close rest).spell ++ post = (Token.tag m).lexeme ++
      (inner.spell ++ ((Token.tag close).lexeme ++ (rest.spell ++ post))) := by
    simp [Token.lexeme]
  have htokens : (block m inner close rest).tokens ++ ts =
      .tag m :: (inner.tokens ++ (.tag close :: (rest.tokens ++ ts))) := by simp [tokens]
  rw [hform, htokens]
  exact Token.cuts_cons_iff _

end Constructs

/-- **Derivations are sound.** -/
theorem sound_of_cuts {b : Body} {post : Text} {ts : List Token} {fault : Option Fault}
    (h : Cuts (b.spell ++ post) (b.tokens ++ ts) fault) : b.Sound (!post.isEmpty) := by
  induction b generalizing post ts with
  | nil => trivial
  | text chars rest ih =>
    obtain ⟨hcut, hrest⟩ := cuts_text_iff.1 h
    obtain ⟨hne, hno, hends⟩ := Token.Cut.text_iff.1 hcut
    have hsound := ih hrest
    rw [Token.noOpener_iff] at hno
    refine ⟨hne, hno.1, fun hlast => ?_, hsound⟩
    have hfree := hno.2 hlast
    rcases hends with hnil | hopens
    · rw [List.append_eq_nil_iff] at hnil
      exact ⟨hsound.eq_nil hnil.1, by rw [hnil.2]; rfl⟩
    · -- the brace and the one that opens what follows would make a delimiter
      cases hx : rest.spell ++ post with
      | nil => rw [hx] at hopens; cases hopens
      | cons c x =>
        rw [hx] at hopens hfree
        rcases Token.eq_of_opensHere hopens with ⟨u, hu⟩ | ⟨u, hu⟩ <;>
          rw [hu] at hfree <;> cases hfree
  | output m rest ih =>
    obtain ⟨hcut, hrest⟩ := cuts_output_iff.1 h
    exact ⟨hcut.whole, ih hrest⟩
  | tag m rest ih =>
    obtain ⟨hcut, hrest⟩ := cuts_tag_iff.1 h
    exact ⟨hcut.whole.1, hcut.whole.2, ih hrest⟩
  | raw m chars close rest ih =>
    obtain ⟨hcut, hrest⟩ := cuts_raw_iff.1 h
    have hw := isWord_of_mem_rawTags _ hcut.whole.2.2.1
    refine ⟨hcut.whole.1, hcut.whole.2.2.1, hcut.whole.isRawEnd, ?_, ih hrest⟩
    exact (Token.noRawEnd_brace hw).1 hcut.raw_noRawEnd
  | block m inner close rest ihi ih =>
    obtain ⟨hcut, hinner⟩ := cuts_block_iff.1 h
    obtain ⟨hclose, hrest⟩ := (Token.cuts_cons_iff _).1 hinner.of_append
    exact ⟨hcut.whole.1, hcut.whole.2, hclose.whole.1, hclose.whole.2, ihi hinner, ih hrest⟩

/-- The constructs of a whole template can be read as what they are. -/
theorem sound_of_source {source : Text} {b : Body} (h : Cuts source b.tokens none) :
    b.Sound false := by
  have hcuts : Cuts (b.spell ++ []) (b.tokens ++ []) none := by
    rw [List.append_nil, List.append_nil, spell_of_cuts h]
    exact h
  exact sound_of_cuts hcuts

/-! ### Joining texts -/

/-- The body with neighbouring texts joined. -/
def glue : Body → Body
  | nil => nil
  | text chars rest =>
    match rest.glue with
    | text more rest => text (chars ++ more) rest
    | rest => text chars rest
  | output m rest => output m rest.glue
  | tag m rest => tag m rest.glue
  | raw m chars close rest => raw m chars close rest.glue
  | block m inner close rest => block m inner.glue close rest.glue

/-- What joining does to a text depends on whether another one follows. -/
theorem glue_text (chars : Text) (rest : Body) :
    (∃ more after, rest.glue = text more after ∧
      (text chars rest).glue = text (chars ++ more) after) ∨
    (∀ more after, rest.glue ≠ text more after) ∧ (text chars rest).glue = text chars rest.glue := by
  rw [glue]
  split
  · rename_i more after h
    exact Or.inl ⟨more, after, h, rfl⟩
  · rename_i h
    exact Or.inr ⟨h, rfl⟩

@[simp] theorem spell_glue (b : Body) : b.glue.spell = b.spell := by
  induction b with
  | nil => rfl
  | text chars rest ih =>
    rcases glue_text chars rest with ⟨more, after, h, hglue⟩ | ⟨-, hglue⟩
    · rw [h] at ih
      rw [hglue, spell_text, spell_text, ← ih, spell_text, List.append_assoc]
    · rw [hglue, spell_text, spell_text, ih]
  | output m rest ih => rw [glue, spell_output, spell_output, ih]
  | tag m rest ih => rw [glue, spell_tag, spell_tag, ih]
  | raw m chars close rest ih => rw [glue, spell_raw, spell_raw, ih]
  | block m inner close rest ihi ih => rw [glue, spell_block, spell_block, ihi, ih]

theorem fits_glue {parent : Option String} {b : Body} (h : b.Fits parent) : b.glue.Fits parent := by
  induction b generalizing parent with
  | nil => trivial
  | text chars rest ih =>
    rcases glue_text chars rest with ⟨more, after, hr, hglue⟩ | ⟨-, hglue⟩
    · have := ih h
      rw [hr] at this
      rw [hglue]
      exact this
    · rw [hglue]
      exact ih h
  | output m rest ih => exact ih h
  | tag m rest ih => exact ⟨h.1, ih h.2⟩
  | raw m chars close rest ih => exact ⟨h.1, ih h.2⟩
  | block m inner close rest ihi ih => exact ⟨h.1, h.2.1, ihi h.2.2.1, ih h.2.2.2⟩

/-- A body that does not start with text starts with a delimiter. -/
theorem endsText_of_ne_text {b : Body} {post : Text} (h : ∀ more after, b ≠ text more after)
    (hpost : EndsText post) : EndsText (b.spell ++ post) := by
  cases b with
  | nil => exact hpost
  | text more after => exact absurd rfl (h more after)
  | output m rest => exact Or.inr (by rw [spell_output]; rfl)
  | _ => exact Or.inr (by simp [tagLexeme, opensHere])

/-- **Sound bodies read back** with neighbouring texts joined. -/
theorem cuts_glue {b : Body} {post : Text} {ts : List Token} (h : b.Sound (!post.isEmpty))
    (hends : EndsText post) (hpost : Cuts post ts none) :
    Cuts (b.spell ++ post) (b.glue.tokens ++ ts) none := by
  induction b generalizing post ts with
  | nil => exact hpost
  | text chars rest ih =>
    obtain ⟨hne, hno, hlast, hsound⟩ := h
    have hrest := ih hsound hends hpost
    rcases glue_text chars rest with ⟨more, after, hr, hglue⟩ | ⟨hnot, hglue⟩
    · have hspell : rest.spell = more ++ after.spell := by rw [← spell_glue, hr, spell_text]
      rw [hr, hspell, List.append_assoc] at hrest
      obtain ⟨hcut, hafter⟩ := (Token.cuts_cons_iff (.text more)).1 hrest
      obtain ⟨-, hno', hends'⟩ := Token.Cut.text_iff.1 hcut
      -- a text that another one follows does not end with a brace
      have hbefore : NoOpener chars (more ++ (after.spell ++ post)) := by
        refine Token.noOpener_iff.2 ⟨hno, fun hl => ?_⟩
        rw [(hlast hl).1] at hr
        cases hr
      rw [hglue, spell_text, hspell, ← List.append_assoc, List.append_assoc]
      exact .cut (.text (by simp [hne]) (Token.noOpener_append hbefore hno') hends') hafter
    · rw [hglue, spell_text, List.append_assoc]
      refine .cut (.text hne (Token.noOpener_iff.2 ⟨hno, fun hl => ?_⟩) ?_) hrest
      · obtain ⟨rfl, hfollowed⟩ := hlast hl
        obtain rfl : post = [] := by simpa using hfollowed
        rfl
      · rw [← spell_glue]
        exact endsText_of_ne_text hnot hends
  | output m rest ih =>
    have := Cuts.cut (.output (rest.spell ++ post) h.1) (ih h.2 hends hpost)
    simpa [Token.lexeme, glue, tokens] using this
  | tag m rest ih =>
    have := Cuts.cut (.tag (rest.spell ++ post) h.1 h.2.1) (ih h.2.2 hends hpost)
    simpa [Token.lexeme, glue, tokens] using this
  | raw m chars close rest ih =>
    obtain ⟨hm, hname, hclose, hno, hsound⟩ := h
    have hno' : NoRawEnd (nameOf m).toList chars (tagLexeme close ++ (rest.spell ++ post)) :=
      (Token.noRawEnd_brace (isWord_of_mem_rawTags _ hname)).2 hno
    have := Cuts.cut (.rawBlock hm hname hclose hno') (ih hsound hends hpost)
    simpa [Token.lexeme, glue, tokens] using this
  | block m inner close rest ihi ih =>
    obtain ⟨hm, hname, hclose, hname', hinner, hsound⟩ := h
    have hrest := Cuts.cut (.tag (rest.spell ++ post) hclose hname') (ih hsound hends hpost)
    have hbody : Cuts (inner.spell ++ ((Token.tag close).lexeme ++ (rest.spell ++ post)))
        (inner.glue.tokens ++ (.tag close :: (rest.glue.tokens ++ ts))) none :=
      ihi hinner (Or.inr rfl) hrest
    have := Cuts.cut (.tag _ hm hname) hbody
    simpa [Token.lexeme, glue, tokens] using this

/-- **A sound sequence of constructs that keeps the rules is a template**, and its tree is the
sequence with its texts joined. -/
theorem parse_spell {b : Body} (hsound : b.Sound false) (hfits : b.Fits none) :
    parse b.spell = .ok b.glue.document := by
  have h : Cuts (b.spell ++ []) (b.glue.tokens ++ []) none := cuts_glue hsound (Or.inl rfl) .done
  rw [List.append_nil, List.append_nil] at h
  exact parse_of_cuts (fits_glue hfits) h

end Body

end LiquidLint.Liquid
