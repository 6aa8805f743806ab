import LiquidLint.Proofs.Liquid.Body
import LiquidLint.Proofs.Liquid.Name

/-!
# Which templates are accepted, and which token is blamed

A string of tokens is `Viable` when some derivation starts with it. Every derivation under way is
viable, because its open blocks can be closed one after the other (`Spine.viable`), and a token that
`Rejects` describes makes it unviable (`Spine.not_viable`). So the first token at fault is the
leftmost one at which no derivation can go on. `Blames` collects the three ways in which a template
is refused, with the cause and the line that are reported, and `parse_eq_iff` says that templates are
accepted and refused exactly so.
-/

namespace LiquidLint.Liquid

open Token (tagLexeme Cuts)

/-! ### Derivations that can go on -/

/-- Some derivation of a template starts with these tokens. -/
def Viable (tokens : List Token) : Prop :=
  ∃ (rest : List Token) (b : Body), b.Fits none ∧ b.tokens = tokens ++ rest

/-- Markup of an end tag for the block `name`. -/
def endMarkup (name : String) : Text := ("end" ++ name).toList

theorem nameOf_endMarkup {name : String} (h : name ∈ blockTags) :
    nameOf (endMarkup name) = "end" ++ name := by
  rw [nameOf_eq_word_iff (isWord_end (isWord_of_mem_blockTags name h))]
  exact ⟨[], [], ⟨[], [], [], isGap_nil, Or.inl rfl, isGap_nil, rfl⟩, Or.inl rfl, by simp [endMarkup]⟩

theorem Spine.viable_push {s : Spine} (b : Body) (h : (s.push b).Fits) :
    Viable (s.push b).tokens := by
  -- the innermost block is closed and becomes a construct of the body around it
  induction s generalizing b with
  | top done => exact ⟨[], done.append b, h, by simp [push, tokens]⟩
  | within outer m done ih =>
    obtain ⟨houter, hm, hdone⟩ := h
    have hblock : (Body.block m (done.append b) (endMarkup (nameOf m)) .nil).Fits outer.parent :=
      ⟨hm, nameOf_endMarkup hm, hdone, trivial⟩
    obtain ⟨rest, c, hc, htok⟩ := ih _ (fits_push.2 ⟨houter, hblock⟩)
    refine ⟨.tag (endMarkup (nameOf m)) :: rest, c, hc, ?_⟩
    rw [htok, tokens_push]
    simp [push, tokens, Body.tokens]

/-- **Derivations under way can go on.** -/
theorem Spine.viable {s : Spine} (h : s.Fits) : Viable s.tokens := by
  have hnil : s.push .nil = s := by
    cases s with
    | top done => rw [push, Body.append_nil]
    | within outer m done => rw [push, Body.append_nil]
  have := viable_push .nil (hnil.symm ▸ h)
  rwa [hnil] at this

/-- **No derivation goes on** with a token at fault. -/
theorem Spine.not_viable {s : Spine} (h : s.Fits) {token : Token} {cause : Cause}
    (hr : Rejects s.parent token cause) : ¬ Viable (s.tokens ++ [token]) := by
  rintro ⟨rest, b, hb, htok⟩
  rw [List.append_assoc, List.singleton_append] at htok
  have hok := Builder.run_body (b := Builder.empty) rfl hb []
  have herror : Builder.empty.run b.tokens = .error ⟨cause, s.builder.line⟩ := by
    rw [htok, run_tokens h]
    exact Builder.run_cons_error (Builder.step_rejected (by rw [parent_builder]; exact hr))
  rw [List.append_nil, herror] at hok
  cases hok

/-! ### Blame -/

/-- Why and where a template is refused. -/
inductive Blames (source : Text) : ParseError → Prop where
  /-- The leftmost token at which no derivation can go on. -/
  | token {s : Spine} {token : Token} {later : List Token} {fault : Option Fault} {cause : Cause} :
      Cuts source (s.tokens ++ token :: later) fault → s.Fits → Viable s.tokens →
      ¬ Viable (s.tokens ++ [token]) → Rejects s.parent token cause →
      Blames source ⟨cause, 1 + s.spell.newlines⟩
  /-- The tokens can go on, but the next one is never closed. -/
  | fault {s : Spine} {fault : Fault} :
      Cuts source s.tokens (some fault) → s.Fits → Viable s.tokens →
      Blames source ⟨fault.cause, 1 + s.spell.newlines⟩
  /-- All tokens are read, and the innermost open block is never closed. -/
  | unclosed {outer : Spine} {m : Text} {done : Body} :
      Cuts source (outer.within m done).tokens none → (outer.within m done).Fits →
      Blames source ⟨.neverClosed (nameOf m), 1 + outer.spell.newlines⟩

/-- A template that is refused is refused for one of the three reasons. -/
theorem blames_of_parse {source : Text} {e : ParseError} (h : parse source = .error e) :
    Blames source e := by
  have hcuts := Token.cuts_scan source
  have hfits : (Spine.top .nil).Fits := trivial
  have hempty : (Spine.top .nil).builder = Builder.empty := Builder.after_nil _
  rw [parse_eq, ← hempty] at h
  -- either the builder takes every token and the fault or an open block is to blame, or it stops at
  -- a token it rejects
  rcases Spine.run hfits hcuts.whole with
    ⟨s, hs, htok, hrun⟩ | ⟨s, token, later, cause, hs, htok, hr, hrun⟩
  · rw [hrun] at h
    rw [show (Spine.top .nil).tokens = [] from rfl, List.nil_append] at htok
    rw [← htok] at hcuts
    generalize (Token.scan source).2 = fault at h hcuts
    cases fault with
    -- the scanner's own fault, after tokens the builder took
    | some fault =>
      obtain rfl : ⟨fault.cause, s.builder.line⟩ = e := Except.error.inj h
      rw [Spine.line_builder]
      exact .fault hcuts hs (Spine.viable hs)
    | none =>
      cases s with
      | top done =>
        simp [Except.bind, Builder.finish, Spine.builder, Builder.after, Builder.empty] at h
      | within outer m done =>
        obtain rfl : ⟨.neverClosed (nameOf m), outer.builder.line⟩ = e := Except.error.inj h
        rw [Spine.line_builder]
        exact .unclosed hcuts hs
  · -- the rejected token: what came before it can be continued, with it nothing can
    rw [hrun] at h
    obtain rfl : ⟨cause, 1 + s.spell.newlines⟩ = e := Except.error.inj h
    rw [show (Spine.top .nil).tokens = [] from rfl, List.nil_append] at htok
    rw [← htok] at hcuts
    exact .token hcuts hs (Spine.viable hs) (Spine.not_viable hs hr) hr

/-- Each of the three reasons is reported. -/
theorem parse_of_blames {source : Text} {e : ParseError} (h : Blames source e) :
    parse source = .error e := by
  cases h with
  | @token s token later fault cause hcuts hs _ _ hr =>
    have hstep : s.builder.step token = .error ⟨cause, s.builder.line⟩ :=
      Builder.step_rejected (by rw [Spine.parent_builder]; exact hr)
    rw [parse_eq, Token.cuts_iff.1 hcuts, Spine.run_tokens hs, Builder.run_cons_error hstep,
      Spine.line_builder]
    rfl
  | @fault s fault hcuts hs _ =>
    have hrun := Spine.run_tokens hs []
    rw [List.append_nil] at hrun
    rw [parse_eq, Token.cuts_iff.1 hcuts, hrun, ← Spine.line_builder]
    rfl
  | @unclosed outer m done hcuts hs =>
    have hrun := Spine.run_tokens hs []
    rw [List.append_nil] at hrun
    rw [parse_eq, Token.cuts_iff.1 hcuts, hrun, ← Spine.line_builder]
    rfl

/-! ### Lines -/

/-- The line of a character that is no newline is a line of the text. -/
theorem line_le_lineCount (p q : Text) {c : Char} (hc : c ≠ '\n') :
    1 + p.newlines ≤ Text.lineCount (p ++ c :: q) := by
  have hsum : Text.newlines (p ++ c :: q) = p.newlines + Text.newlines q := by
    rw [Text.newlines_append, Text.newlines, Text.newlines, List.count_cons_of_ne hc]
    rfl
  unfold Text.lineCount
  rw [hsum]
  cases hq : q.getLast? with
  | none =>
    obtain rfl : q = [] := List.getLast?_eq_none_iff.1 hq
    rw [List.getLast?_append_of_ne_nil _ (by simp), List.getLast?_singleton]
    split
    · simp_all
    · simp_all
    · omega
  | some d =>
    have hlast : (p ++ c :: q).getLast? = some d := by
      rw [List.getLast?_append_of_ne_nil _ (by simp), List.getLast?_cons, hq]
      rfl
    rw [hlast]
    split
    · simp_all
    · -- the last newline comes after `c`
      have hmem : '\n' ∈ q := List.mem_of_getLast? (by simp_all)
      have hpos : 0 < Text.newlines q := List.count_pos_iff.2 hmem
      omega
    · omega

/-- What could not be cut is what is stuck. -/
theorem Token.Cuts.exists_stuck {t : Text} {tokens : List Token} {fault : Fault}
    (h : Cuts t tokens (some fault)) :
    ∃ rest, t = tokens.flatMap Token.lexeme ++ rest ∧ Token.Stuck rest fault := by
  generalize hf : some fault = f at h
  induction h with
  | done => cases hf
  | @stuck t fault' hs => exact ⟨t, rfl, Option.some.inj hf ▸ hs⟩
  | cut hc _ ih =>
    obtain ⟨rest, rfl, hrest⟩ := ih hf
    exact ⟨rest, by rw [hc.lexeme_append, List.flatMap_cons, List.append_assoc], hrest⟩

/-- The line of a refusal is the line of an opening brace. -/
theorem Blames.exists_brace {source : Text} {e : ParseError} (h : Blames source e) :
    ∃ p q, source = p ++ '{' :: q ∧ e.line = 1 + p.newlines := by
  cases h with
  | @token s token later fault cause hcuts _ _ _ hr =>
    obtain ⟨rest, hsource, -⟩ := hcuts.exists_append
    obtain ⟨m, rfl⟩ : ∃ m, token = .tag m := by
      generalize s.parent = parent at hr
      cases hr <;> exact ⟨_, rfl⟩
    rw [List.flatMap_append, List.append_assoc] at hsource
    exact ⟨s.spell, _, hsource, rfl⟩
  | @fault s fault hcuts _ _ =>
    obtain ⟨rest, hsource, hstuck⟩ := hcuts.exists_stuck
    obtain ⟨u, rfl⟩ : ∃ u, rest = '{' :: u := by cases hstuck <;> exact ⟨_, rfl⟩
    exact ⟨s.spell, u, hsource, rfl⟩
  | @unclosed outer m done hcuts _ =>
    obtain ⟨rest, hsource, -⟩ := hcuts.exists_append
    rw [Spine.tokens, List.flatMap_append, List.append_assoc] at hsource
    exact ⟨outer.spell, _, hsource, rfl⟩

/-- **Accepted and refused templates**: a template is accepted exactly when it can be cut into tokens
to its end and these have a derivation, which is then its tree. Otherwise it is refused with the
cause and the line of the leftmost token at which no derivation can go on, or of the innermost open
block when there is no such token, and that line is one of the template's lines. -/
theorem parse_eq_iff (source : Text) :
    (∀ root, parse source = .ok root ↔
      ∃ b : Body, b.Fits none ∧ Cuts source b.tokens none ∧ root = b.document) ∧
    ∀ e, parse source = .error e ↔ Blames source e ∧ 1 ≤ e.line ∧ e.line ≤ source.lineCount := by
  refine ⟨fun root => parse_eq_ok_iff, fun e => ⟨fun h => ?_, fun h => parse_of_blames h.1⟩⟩
  have hb := blames_of_parse h
  obtain ⟨p, q, rfl, hline⟩ := hb.exists_brace
  refine ⟨hb, by omega, ?_⟩
  rw [hline]
  exact line_le_lineCount p q (by decide)

end LiquidLint.Liquid
