import LiquidLint.Proofs.Liquid.Glue

/-!
# Templates one after the other

Whatever is cut off a template is cut off by what stands in it, so text after the template changes
nothing, unless the template ends with a brace that could become half of a delimiter. The constructs
of two templates one after the other are those of the first followed by those of the second; only a
text at the end of the first and one at the start of the second become one.

In derivations this is `Body.append` followed by `Body.glue`. `Body.apart_of_cuts` says that the
derivation of a template has nothing to join by itself, `Body.layout_glue_append` that joining touches
the place where the two meet and no other, and `Body.layout_add` that what comes later is only moved.
Main statement: `parse_append`.
-/

namespace LiquidLint.Liquid

open Token (Cuts NoOpener EndsText opensHere tagLexeme)

/-! ### Nodes one after the other -/

namespace Node

mutual

/-- The node moved `k` bytes to the right, with everything inside it. -/
def shift (k : Nat) : Node → Node
  | ⟨kind, span, markup, children⟩ => ⟨kind, span.shift k, markup.shift k, shiftAll k children⟩

/-- The nodes moved `k` bytes to the right, with everything inside them. -/
def shiftAll (k : Nat) : List Node → List Node
  | [] => []
  | n :: ns => n.shift k :: shiftAll k ns

end

/-- The text that starts where `m` starts and stops where `n` stops. -/
def joinText (m n : Node) : Node :=
  ⟨.text, ⟨m.span.start, n.span.stop⟩, ⟨m.span.start, n.span.stop⟩, []⟩

/-- Nodes followed by nodes, where a text at the end of the first and one at the start of the second
become one. -/
def joinLists : List Node → List Node → List Node
  | [], ns => ns
  | [m], [] => [m]
  | [m], n :: ns => if m.isLiteral && n.isLiteral then m.joinText n :: ns else m :: n :: ns
  | m :: l :: ms, ns => m :: joinLists (l :: ms) ns

theorem joinLists_cons {ms : List Node} (hne : ms ≠ []) (m : Node) (ns : List Node) :
    joinLists (m :: ms) ns = m :: joinLists ms ns := by
  obtain ⟨l, ms, rfl⟩ := List.exists_cons_of_ne_nil hne
  rfl

/-- Only texts are joined. -/
theorem joinLists_cons_of_not_isLiteral {m : Node} (hm : m.isLiteral = false) (ms ns : List Node) :
    joinLists (m :: ms) ns = m :: joinLists ms ns := by
  cases ms with
  | cons l ms => rfl
  | nil =>
    cases ns with
    | nil => rfl
    | cons n ns =>
      show (if m.isLiteral && n.isLiteral then _ else _) = _
      rw [hm]
      rfl

end Node

open Node (shift shiftAll joinLists)

/-! ### Derivations one after the other -/

namespace Body

/-- A body ends as its last part ends. -/
theorem getLast?_rest {b : Body} (first : Body) {rest : Body} (hb : b = first.append rest)
    (h : b.spell.getLast? ≠ some '{') : rest.spell.getLast? ≠ some '{' := by
  intro hrest
  apply h
  rw [hb, spell_append, List.getLast?_append, hrest]
  rfl

/-- A brace at the end is all that minds what follows. -/
theorem Sound.followed {b : Body} (h : b.Sound false) (hlast : b.spell.getLast? ≠ some '{') :
    b.Sound true := by
  induction b with
  | nil => trivial
  | text chars rest ih =>
    obtain ⟨hne, hno, hbrace, hrest⟩ := h
    refine ⟨hne, hno, fun hl => ?_, ih hrest (getLast?_rest (text chars nil) rfl hlast)⟩
    -- the text would be the last construct, and its brace the last character
    rw [(hbrace hl).1, spell_text, spell_nil, List.append_nil] at hlast
    exact absurd hl hlast
  | output m rest ih => exact ⟨h.1, ih h.2 (getLast?_rest (output m nil) rfl hlast)⟩
  | tag m rest ih => exact ⟨h.1, h.2.1, ih h.2.2 (getLast?_rest (tag m nil) rfl hlast)⟩
  | raw m chars close rest ih =>
    obtain ⟨hm, hname, hclose, hno, hrest⟩ := h
    exact ⟨hm, hname, hclose, hno, ih hrest (getLast?_rest (raw m chars close nil) rfl hlast)⟩
  | block m inner close rest _ ih =>
    obtain ⟨hm, hname, hclose, hname', hinner, hrest⟩ := h
    exact ⟨hm, hname, hclose, hname', hinner,
      ih hrest (getLast?_rest (block m inner close nil) rfl hlast)⟩

/-- Bodies of constructs that can be read stay so one after the other. -/
theorem sound_append {followed : Bool} {b c : Body} (hb : b.Sound true) (hc : c.Sound followed) :
    (b.append c).Sound followed := by
  induction b with
  | nil => exact hc
  | text chars rest ih =>
    obtain ⟨hne, hno, hbrace, hrest⟩ := hb
    exact ⟨hne, hno, fun hl => absurd (hbrace hl).2 (by decide), ih hrest⟩
  | output m rest ih => exact ⟨hb.1, ih hb.2⟩
  | tag m rest ih => exact ⟨hb.1, hb.2.1, ih hb.2.2⟩
  | raw m chars close rest ih =>
    obtain ⟨hm, hname, hclose, hno, hrest⟩ := hb
    exact ⟨hm, hname, hclose, hno, ih hrest⟩
  | block m inner close rest _ ih =>
    obtain ⟨hm, hname, hclose, hname', hinner, hrest⟩ := hb
    exact ⟨hm, hname, hclose, hname', hinner, ih hrest⟩

/-- No text stands right behind a text. -/
def Apart : Body → Prop
  | nil => True
  | text _ rest => (∀ more after, rest ≠ text more after) ∧ rest.Apart
  | output _ rest => rest.Apart
  | tag _ rest => rest.Apart
  | raw _ _ _ rest => rest.Apart
  | block _ inner _ rest => inner.Apart ∧ rest.Apart

/-- **Texts of a derivation stand apart**: a text that is cut off ends where no other text starts. -/
theorem apart_of_cuts {b : Body} {post : Text} {ts : List Token} {fault : Option Fault}
    (h : Cuts (b.spell ++ post) (b.tokens ++ ts) fault) : b.Apart := by
  induction b generalizing post ts with
  | nil => trivial
  | text chars rest ih =>
    obtain ⟨hcut, hrest⟩ := cuts_text_iff.1 h
    obtain ⟨-, -, hends⟩ := Token.Cut.text_iff.1 hcut
    refine ⟨?_, ih hrest⟩
    rintro more after rfl
    -- the second text would have to start with a delimiter
    obtain ⟨hcut', -⟩ := cuts_text_iff.1 hrest
    obtain ⟨hne, hno, -⟩ := Token.Cut.text_iff.1 hcut'
    have hclosed := hno [] more rfl hne
    rw [spell_text, List.append_assoc] at hends
    rcases hends with hnil | hopens
    · exact hne (List.append_eq_nil_iff.1 hnil).1
    · rw [hopens] at hclosed
      cases hclosed
  | output m rest ih => exact ih (cuts_output_iff.1 h).2
  | tag m rest ih => exact ih (cuts_tag_iff.1 h).2
  | raw m chars close rest ih => exact ih (cuts_raw_iff.1 h).2
  | block m inner close rest ihi ih =>
    have hinner := (cuts_block_iff.1 h).2
    exact ⟨ihi hinner, ih ((Token.cuts_cons_iff _).1 hinner.of_append).2⟩

/-- Texts of a whole template stand apart. -/
theorem apart_of_source {source : Text} {b : Body} (h : Cuts source b.tokens none) : b.Apart := by
  have hcuts : Cuts (b.spell ++ []) (b.tokens ++ []) none := by
    rw [List.append_nil, List.append_nil, spell_of_cuts h]
    exact h
  exact apart_of_cuts hcuts

/-- Where texts stand apart there is nothing to join. -/
theorem Apart.glue {b : Body} (h : b.Apart) : b.glue = b := by
  induction b with
  | nil => rfl
  | text chars rest ih =>
    rcases glue_text chars rest with ⟨more, after, hr, -⟩ | ⟨-, hglue⟩
    · rw [ih h.2] at hr
      exact absurd hr (h.1 more after)
    · rw [hglue, ih h.2]
  | output m rest ih => rw [Body.glue, ih h]
  | tag m rest ih => rw [Body.glue, ih h]
  | raw m chars close rest ih => rw [Body.glue, ih h]
  | block m inner close rest ihi ih => rw [Body.glue, ihi h.1, ih h.2]

/-! ### Layouts one after the other -/

theorem layout_eq_nil_iff {b : Body} {offset : Nat} : b.layout offset = [] ↔ b = nil := by
  cases b <;> simp [layout]

/-- **What comes later is only moved.** -/
theorem layout_add (b : Body) (offset k : Nat) :
    b.layout (offset + k) = shiftAll k (b.layout offset) := by
  induction b generalizing offset with
  | nil => rfl
  | text chars rest ih =>
    have hstop : offset + k + chars.size = offset + chars.size + k := by omega
    simp only [layout, shiftAll, shift, Span.shift, hstop, ih]
  | output m rest ih =>
    have hstart : offset + k + 2 = offset + 2 + k := by omega
    have hmarkup : offset + 2 + k + m.size = offset + 2 + m.size + k := by omega
    have hstop : offset + 2 + m.size + k + 2 = offset + 2 + m.size + 2 + k := by omega
    simp only [layout, shiftAll, shift, Span.shift, hstart, hmarkup, hstop, ih]
  | tag m rest ih =>
    have hstart : offset + k + 2 = offset + 2 + k := by omega
    have hmarkup : offset + 2 + k + m.size = offset + 2 + m.size + k := by omega
    have hstop : offset + 2 + m.size + k + 2 = offset + 2 + m.size + 2 + k := by omega
    simp only [layout, shiftAll, shift, Span.shift, hstart, hmarkup, hstop, ih]
  | raw m chars close rest ih =>
    have hstart : offset + k + 2 = offset + 2 + k := by omega
    have hmarkup : offset + 2 + k + m.size = offset + 2 + m.size + k := by omega
    have hinside : offset + 2 + m.size + k + 2 = offset + 2 + m.size + 2 + k := by omega
    have hbody : offset + 2 + m.size + 2 + k + chars.size
        = offset + 2 + m.size + 2 + chars.size + k := by omega
    have hstop : offset + 2 + m.size + 2 + chars.size + k + (close.size + 4)
        = offset + 2 + m.size + 2 + chars.size + (close.size + 4) + k := by omega
    simp only [layout, shiftAll, shift, Span.shift, hstart, hmarkup, hinside, hbody, hstop, ih]
    -- a raw block has a text inside only if there is one
    cases chars <;> rfl
  | block m inner close rest ihi ih =>
    have hstart : offset + k + 2 = offset + 2 + k := by omega
    have hmarkup : offset + 2 + k + m.size = offset + 2 + m.size + k := by omega
    have hinside : offset + 2 + m.size + k + 2 = offset + 2 + m.size + 2 + k := by omega
    have hstop : offset + 2 + m.size + 2 + k + inner.spell.size + (close.size + 4)
        = offset + 2 + m.size + 2 + inner.spell.size + (close.size + 4) + k := by omega
    simp only [layout, shiftAll, shift, Span.shift, hstart, hmarkup, hinside, hstop, ihi, ih]

/-- What a text and the body behind it become depends on how that body starts. -/
theorem layout_glue_text (chars : Text) {c : Body} (hc : c.Apart) (offset : Nat) :
    (text chars c).glue.layout offset =
      joinLists ((text chars nil).layout offset) (c.layout (offset + chars.size)) := by
  rcases glue_text chars c with ⟨more, after, hr, hglue⟩ | ⟨hnot, hglue⟩
  · rw [hc.glue] at hr
    subst hr
    rw [hglue]
    have hstop : offset + (chars ++ more).size = offset + chars.size + more.size := by
      rw [Text.size_append, Nat.add_assoc]
    simp only [layout, hstop]
    rfl
  · rw [hglue, hc.glue]
    rw [hc.glue] at hnot
    cases c with
    | text more after => exact absurd rfl (hnot more after)
    | _ => rfl

/-- **Joining touches the place where two bodies meet**, if each of them has nothing to join. -/
theorem layout_glue_append {b c : Body} (hb : b.Apart) (hc : c.Apart) (offset : Nat) :
    (b.append c).glue.layout offset =
      joinLists (b.layout offset) (c.layout (offset + b.spell.size)) := by
  have h1 : ('{' : Char).utf8Size = 1 := rfl
  have h2 : ('}' : Char).utf8Size = 1 := rfl
  induction b generalizing offset with
  | nil => rw [append, hc.glue]; rfl
  | text chars rest ih =>
    by_cases hr : rest = nil
    · subst hr
      rw [append, append, layout_glue_text chars hc, spell_text, spell_nil, List.append_nil]
    · -- the text is followed by a construct of its own body, and that is no text
      have hnot : ∀ more after, (rest.append c).glue ≠ text more after := by
        intro more after heq
        cases rest with
        | nil => exact hr rfl
        | text more after => exact hb.1 more after rfl
        | _ => rw [append, glue] at heq; cases heq
      have hs : offset + (text chars rest).spell.size
          = offset + chars.size + rest.spell.size := by simp [Nat.add_assoc]
      have hglue : (text chars (rest.append c)).glue = text chars (rest.append c).glue := by
        rcases glue_text chars (rest.append c) with ⟨more, after, heq, -⟩ | ⟨-, hglue⟩
        · exact absurd heq (hnot more after)
        · exact hglue
      rw [append, hglue, layout, layout, hs, ih hb.2,
        Node.joinLists_cons fun hnil => hr (layout_eq_nil_iff.1 hnil)]
  | output m rest ih =>
    have hs : offset + (output m rest).spell.size
        = offset + 2 + m.size + 2 + rest.spell.size := by simp [h1, h2]; omega
    rw [append, glue, layout, layout, Node.joinLists_cons_of_not_isLiteral rfl, hs, ih hb]
  | tag m rest ih =>
    have hs : offset + (tag m rest).spell.size
        = offset + 2 + m.size + 2 + rest.spell.size := by simp; omega
    rw [append, glue, layout, layout, Node.joinLists_cons_of_not_isLiteral rfl, hs, ih hb]
  | raw m chars close rest ih =>
    have hs : offset + (raw m chars close rest).spell.size
        = offset + 2 + m.size + 2 + chars.size + (close.size + 4) + rest.spell.size := by
      simp; omega
    rw [append, glue, layout, layout, Node.joinLists_cons_of_not_isLiteral rfl, hs, ih hb]
  | block m inner close rest _ ih =>
    have hs : offset + (block m inner close rest).spell.size
        = offset + 2 + m.size + 2 + inner.spell.size + (close.size + 4) + rest.spell.size := by
      simp; omega
    -- what is inside the block is not touched: it has nothing to join
    rw [append, glue, hb.1.glue, layout, layout, Node.joinLists_cons_of_not_isLiteral rfl, hs,
      ih hb.2]

end Body

/-! ### Templates one after the other -/

/-- **Parsing is compositional**: two templates one after the other are a template, unless the first
ends with a brace. Its nodes are those of the first followed by those of the second, which are moved
by the size of the first, and where two texts meet they are one. -/
theorem parse_append {s t : Text} {m n : Node} (hs : parse s = .ok m) (ht : parse t = .ok n)
    (hlast : s.getLast? ≠ some '{') :
    parse (s ++ t) = .ok ⟨.document, ⟨0, s.size + t.size⟩, ⟨0, s.size + t.size⟩,
      joinLists m.children (shiftAll s.size n.children)⟩ := by
  obtain ⟨b, hbfits, hbcuts, rfl⟩ := exists_body_of_parse hs
  obtain ⟨c, hcfits, hccuts, rfl⟩ := exists_body_of_parse ht
  obtain rfl := Body.spell_of_cuts hbcuts
  obtain rfl := Body.spell_of_cuts hccuts
  -- nothing comes after either of the two
  have hb : Cuts (b.spell ++ []) (b.tokens ++ []) none := by simpa using hbcuts
  have hc : Cuts (c.spell ++ []) (c.tokens ++ []) none := by simpa using hccuts
  have hsound : (b.append c).Sound false :=
    Body.sound_append ((Body.sound_of_cuts hb).followed hlast) (Body.sound_of_cuts hc)
  have hfits : (b.append c).Fits none := (Body.fits_append b c).2 ⟨hbfits, hcfits⟩
  have hlayout : (b.append c).glue.layout 0 =
      joinLists (b.layout 0) (shiftAll b.spell.size (c.layout 0)) := by
    rw [Body.layout_glue_append (Body.apart_of_cuts hb) (Body.apart_of_cuts hc), Body.layout_add]
  have hparse := Body.parse_spell hsound hfits
  rw [Body.spell_append] at hparse
  rw [hparse, Body.document, Body.spell_glue, Body.spell_append, Text.size_append, hlayout]
  rfl

/-- A block and a text, then a text and a raw block full of braces. -/
theorem parse_append_texts :
    let s : Text := "\x7b% if a %\x7d\x7b\x7b b \x7d\x7d\x7b% endif %\x7dé\x7d".toList
    let t : Text := "%\x7d\x7b%raw%\x7d\x7b\x7b\x7b%endraw%\x7d\x7b\x7bc\x7d\x7d\x7b".toList
    ∃ m n, parse s = .ok m ∧ parse t = .ok n ∧ s.getLast? ≠ some '{' ∧
      parse (s ++ t) = .ok ⟨.document, ⟨0, s.size + t.size⟩, ⟨0, s.size + t.size⟩,
        joinLists m.children (shiftAll s.size n.children)⟩ ∧
      (joinLists m.children (shiftAll s.size n.children)).map (·.span) =
        [⟨0, 28⟩, ⟨28, 33⟩, ⟨33, 52⟩, ⟨52, 57⟩, ⟨57, 58⟩] := by
  intro s t
  obtain ⟨m, hs⟩ := exists_parse s (by decide +kernel)
  obtain ⟨n, ht⟩ := exists_parse t (by decide +kernel)
  have hlast : s.getLast? ≠ some '{' := by decide +kernel
  have hjoin := parse_append hs ht hlast
  refine ⟨m, n, hs, ht, hlast, hjoin, ?_⟩
  have hmap : (parse (s ++ t)).map (fun root => root.children.map (·.span)) =
      .ok [⟨0, 28⟩, ⟨28, 33⟩, ⟨33, 52⟩, ⟨52, 57⟩, ⟨57, 58⟩] := by decide +kernel
  obtain ⟨root, hroot, hspans⟩ := exists_parse_of_map hmap
  rw [hjoin] at hroot
  rw [← Except.ok.inj hroot] at hspans
  exact hspans

end LiquidLint.Liquid
