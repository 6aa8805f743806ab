import LiquidLint.Liquid.Parse
import LiquidLint.Proofs.Liquid.Cuts

/-!
# Derivations of templates

The grammar of templates: a body is a sequence of text, variables, inline tags, raw blocks, branch
tags and blocks, where a block is an opening tag, a body and the end tag of the same name, and a
branch tag stands only directly in the body of a block that it divides. A `Body` is a derivation: the
constructs of a body with the characters they were read from. `Body.tokens` is what it derives,
`Body.Fits` that it keeps the rules, and `Body.layout` are its nodes when it starts at a given offset.

A `Spine` is a derivation that has been read up to some token: the blocks that are still open, each
with the finished constructs before it. `Spine.step` says what a builder does with one more token:
it goes on to the builder of a longer spine, or the token is one that `Rejects` describes.
`parse_eq_ok_iff` follows: a template is accepted exactly when its tokens have a derivation, and then
the tree is the layout of that derivation.
-/

namespace LiquidLint.Liquid

open Token (tagLexeme Cuts)

/-! ### Roles of names -/

/-- **The roles of names**: what `TagRole.of` says is what the lists of names say, because no name is
on two lists and none that is on a list starts with `end`. -/
theorem role_cases (name : String) :
    (TagRole.of name = .raw ∧ name ∈ rawTags) ∨
    (TagRole.of name = .block ∧ name ∈ blockTags) ∨
    (∃ target, TagRole.of name = .closing target ∧ name = "end" ++ target) ∨
    (∃ parents, TagRole.of name = .branch parents ∧ branchParents? name = some parents) ∨
    (TagRole.of name = .inline ∧ name ∈ inlineTags) ∨
    (TagRole.of name = .unknown ∧ name ∉ inlineTags) := by
  unfold TagRole.of
  split
  · rename_i h
    exact Or.inl ⟨rfl, by simpa using h⟩
  · split
    · rename_i h
      exact Or.inr (Or.inl ⟨rfl, by simpa using h⟩)
    · split
      · rename_i target h
        refine Or.inr (Or.inr (Or.inl ⟨_, rfl, ?_⟩))
        apply String.toList_inj.1
        simp [h]
      · split
        · rename_i parents h
          exact Or.inr (Or.inr (Or.inr (Or.inl ⟨parents, rfl, h⟩)))
        · split
          · rename_i h
            exact Or.inr (Or.inr (Or.inr (Or.inr (Or.inl ⟨rfl, by simpa using h⟩))))
          · rename_i h
            exact Or.inr (Or.inr (Or.inr (Or.inr (Or.inr ⟨rfl, by simpa using h⟩))))

theorem role_of_mem_blockTags {name : String} (h : name ∈ blockTags) :
    TagRole.of name = .block := by
  simp only [blockTags, List.mem_cons, List.not_mem_nil, or_false] at h
  rcases h with rfl | rfl | rfl | rfl | rfl | rfl | rfl | rfl <;> rfl

theorem role_of_mem_inlineTags {name : String} (h : name ∈ inlineTags) :
    TagRole.of name = .inline := by
  simp only [inlineTags, List.mem_cons, List.not_mem_nil, or_false] at h
  rcases h with rfl | rfl | rfl | rfl | rfl | rfl | rfl | rfl | rfl | rfl | rfl | rfl | rfl | rfl <;>
    rfl

theorem role_of_branchParents {name : String} {parents : List String}
    (h : branchParents? name = some parents) : TagRole.of name = .branch parents := by
  unfold branchParents? at h
  split at h
  · obtain rfl := Option.some.inj h; rfl
  · obtain rfl := Option.some.inj h; rfl
  · obtain rfl := Option.some.inj h; rfl
  · exact absurd h (by simp)

/-- The tags that divide the body of a block. -/
def branchTags : List String := ["else", "elsif", "when"]

theorem mem_branchTags_of_branchParents {name : String} {parents : List String}
    (h : branchParents? name = some parents) : name ∈ branchTags := by
  unfold branchParents? at h
  split at h
  · decide
  · decide
  · decide
  · cases h

theorem isSome_branchParents : ∀ name ∈ branchTags, (branchParents? name).isSome = true := by
  decide

theorem role_of_end (target : String) : TagRole.of ("end" ++ target) = .closing target := by
  have htl : ("end" ++ target).toList = 'e' :: 'n' :: 'd' :: target.toList := by
    rw [String.toList_append]
    rfl
  -- no listed name starts with `end`
  have hlist : ∀ names : List String, (∀ n ∈ names, n.toList.take 3 ≠ ['e', 'n', 'd']) →
      names.contains ("end" ++ target) = false := by
    intro names h
    rw [List.contains_eq_mem, decide_eq_false_iff_not]
    intro hm
    exact h _ hm (by rw [htl]; rfl)
  have hraw := hlist rawTags (by decide)
  have hblock := hlist blockTags (by decide)
  unfold TagRole.of
  simp only [hraw, hblock, htl, Bool.false_eq_true, if_false, String.ofList_toList]

/-! ### Bodies -/

/-- A derivation of a body: constructs one after the other, each with its characters. The end tag of
a block or raw block is given by its markup. -/
inductive Body where
  /-- The end of the body. -/
  | nil
  /-- Characters outside delimiters. -/
  | text (chars : Text) (rest : Body)
  /-- A variable. -/
  | output (markup : Text) (rest : Body)
  /-- An inline tag or a branch tag. -/
  | tag (markup : Text) (rest : Body)
  /-- A raw block with its verbatim characters. -/
  | raw (markup chars close : Text) (rest : Body)
  /-- A block with the body inside it. -/
  | block (markup : Text) (inner : Body) (close : Text) (rest : Body)
deriving DecidableEq, Repr

namespace Body

/-- The tokens that a body derives. -/
def tokens : Body → List Token
  | nil => []
  | text chars rest => .text chars :: rest.tokens
  | output m rest => .variable m :: rest.tokens
  | tag m rest => .tag m :: rest.tokens
  | raw m chars close rest => .rawBlock (nameOf m) m chars (tagLexeme close) :: rest.tokens
  | block m inner close rest => .tag m :: (inner.tokens ++ .tag close :: rest.tokens)

/-- The characters of a body. -/
def spell (b : Body) : Text := b.tokens.flatMap Token.lexeme

/-- A tag without a body may stand directly in `parent`: it is inline, or a branch of `parent`. -/
def Allowed (parent : Option String) (name : String) : Prop :=
  name ∈ inlineTags ∨ ∃ parents block, branchParents? name = some parents ∧
    parent = some block ∧ block ∈ parents

/-- The names of tags without a body. -/
theorem Allowed.mem {parent : Option String} {name : String} (h : Allowed parent name) :
    name ∈ inlineTags ++ branchTags := by
  rcases h with h | ⟨parents, block, h, -⟩
  · exact List.mem_append_left _ h
  · exact List.mem_append_right _ (mem_branchTags_of_branchParents h)

/-- A body keeps the rules of the grammar when it stands directly in the block `parent`. -/
def Fits (parent : Option String) : Body → Prop
  | nil => True
  | text _ rest => rest.Fits parent
  | output _ rest => rest.Fits parent
  | tag m rest => Allowed parent (nameOf m) ∧ rest.Fits parent
  | raw m _ _ rest => nameOf m ∈ rawTags ∧ rest.Fits parent
  | block m inner close rest =>
    nameOf m ∈ blockTags ∧ nameOf close = "end" ++ nameOf m ∧ inner.Fits (some (nameOf m)) ∧
      rest.Fits parent

/-- The nodes of a body whose first character is at `offset`. -/
def layout : Body → Nat → List Node
  | nil, _ => []
  | text chars rest, offset =>
    let span : Span := ⟨offset, offset + chars.size⟩
    ⟨.text, span, span, []⟩ :: rest.layout span.stop
  | output m rest, offset =>
    let markup : Span := ⟨offset + 2, offset + 2 + m.size⟩
    ⟨.variable, ⟨offset, markup.stop + 2⟩, markup, []⟩ :: rest.layout (markup.stop + 2)
  | tag m rest, offset =>
    let markup : Span := ⟨offset + 2, offset + 2 + m.size⟩
    ⟨.tag (nameOf m) false, ⟨offset, markup.stop + 2⟩, markup, []⟩ :: rest.layout (markup.stop + 2)
  | raw m chars close rest, offset =>
    let markup : Span := ⟨offset + 2, offset + 2 + m.size⟩
    let inside : Span := ⟨markup.stop + 2, markup.stop + 2 + chars.size⟩
    let stop := inside.stop + (close.size + 4)
    ⟨.tag (nameOf m) true, ⟨offset, stop⟩, markup,
        if chars.isEmpty then [] else [⟨.text, inside, inside, []⟩]⟩ :: rest.layout stop
  | block m inner close rest, offset =>
    let markup : Span := ⟨offset + 2, offset + 2 + m.size⟩
    let stop := markup.stop + 2 + inner.spell.size + (close.size + 4)
    ⟨.tag (nameOf m) true, ⟨offset, stop⟩, markup, inner.layout (markup.stop + 2)⟩ ::
      rest.layout stop

/-- The document node of a whole template. -/
def document (b : Body) : Node :=
  ⟨.document, ⟨0, b.spell.size⟩, ⟨0, b.spell.size⟩, b.layout 0⟩

/-- One body after another. -/
def append : Body → Body → Body
  | nil, b => b
  | text chars rest, b => text chars (rest.append b)
  | output m rest, b => output m (rest.append b)
  | tag m rest, b => tag m (rest.append b)
  | raw m chars close rest, b => raw m chars close (rest.append b)
  | block m inner close rest, b => block m inner close (rest.append b)

@[simp] theorem spell_nil : nil.spell = [] := rfl

@[simp] theorem spell_text (chars : Text) (rest : Body) :
    (text chars rest).spell = chars ++ rest.spell := rfl

@[simp] theorem spell_output (m : Text) (rest : Body) :
    (output m rest).spell = '{' :: '{' :: (m ++ '}' :: '}' :: rest.spell) := by
  simp [spell, tokens, Token.lexeme]

@[simp] theorem spell_tag (m : Text) (rest : Body) :
    (tag m rest).spell = tagLexeme m ++ rest.spell := rfl

@[simp] theorem spell_raw (m chars close : Text) (rest : Body) :
    (raw m chars close rest).spell = tagLexeme m ++ (chars ++ (tagLexeme close ++ rest.spell)) := by
  simp [spell, tokens, Token.lexeme]

@[simp] theorem spell_block (m : Text) (inner : Body) (close : Text) (rest : Body) :
    (block m inner close rest).spell =
      tagLexeme m ++ (inner.spell ++ (tagLexeme close ++ rest.spell)) := by
  simp [spell, tokens, Token.lexeme]

theorem tokens_append (b c : Body) : (b.append c).tokens = b.tokens ++ c.tokens := by
  induction b with
  | nil => rfl
  | block m inner close rest _ ih => simp [append, tokens, ih]
  | _ => simp_all [append, tokens]

@[simp] theorem append_nil (b : Body) : b.append nil = b := by
  induction b with
  | nil => rfl
  | block m inner close rest _ ih => rw [append, ih]
  | _ => simp_all [append]

@[simp] theorem spell_append (b c : Body) : (b.append c).spell = b.spell ++ c.spell := by
  rw [spell, tokens_append, List.flatMap_append, spell, spell]

theorem fits_append {parent : Option String} (b c : Body) :
    (b.append c).Fits parent ↔ b.Fits parent ∧ c.Fits parent := by
  induction b with
  | nil => simp [append, Fits]
  | block m inner close rest _ ih => simp only [append, Fits, ih, and_assoc]
  | _ => simp_all [append, Fits, and_assoc]

@[simp] theorem size_tagLexeme (m : Text) : Text.size (tagLexeme m) = m.size + 4 := by
  have h1 : ('{' : Char).utf8Size = 1 := rfl
  have h2 : ('}' : Char).utf8Size = 1 := rfl
  have h3 : ('%' : Char).utf8Size = 1 := rfl
  simp only [tagLexeme, Text.size_cons, Text.size_append, Text.size_nil, h1, h2, h3]
  omega

theorem layout_append (b c : Body) (offset : Nat) :
    (b.append c).layout offset = b.layout offset ++ c.layout (offset + b.spell.size) := by
  have h1 : ('{' : Char).utf8Size = 1 := rfl
  have h2 : ('}' : Char).utf8Size = 1 := rfl
  -- only the offsets have to be matched: the rest starts where the first node's spelling ends
  induction b generalizing offset with
  | nil => simp [append, layout]
  | text chars rest ih => simp [append, layout, ih, Nat.add_assoc]
  | output m rest ih =>
    have hs : offset + 2 + m.size + 2 + rest.spell.size
        = offset + (output m rest).spell.size := by simp [h1, h2]; omega
    simp only [append, layout, ih, hs, List.cons_append]
  | tag m rest ih =>
    have hs : offset + 2 + m.size + 2 + rest.spell.size
        = offset + (tag m rest).spell.size := by simp; omega
    simp only [append, layout, ih, hs, List.cons_append]
  | raw m chars close rest ih =>
    have hs : offset + 2 + m.size + 2 + chars.size + (close.size + 4) + rest.spell.size
        = offset + (raw m chars close rest).spell.size := by simp; omega
    simp only [append, layout, ih, hs, List.cons_append]
  | block m inner close rest _ ih =>
    have hs : offset + 2 + m.size + 2 + inner.spell.size + (close.size + 4) + rest.spell.size
        = offset + (block m inner close rest).spell.size := by simp; omega
    simp only [append, layout, ih, hs, List.cons_append]

end Body

/-! ### What builders do with bodies -/

namespace Builder

/-- The name of the innermost open block. -/
def parent (b : Builder) : Option String := b.frames.head?.map (·.name)

/-- A builder that has read a whole body. -/
def after (b : Builder) (body : Body) : Builder :=
  { offset := b.offset + body.spell.size
    line := b.line + body.spell.newlines
    siblings := (body.layout b.offset).reverse ++ b.siblings
    frames := b.frames }

/-- A builder that has read the opening tag of a block. -/
def opened (b : Builder) (m : Text) : Builder :=
  { offset := b.offset + (tagLexeme m).size
    line := b.line + (tagLexeme m).newlines
    siblings := []
    frames := ⟨nameOf m, b.offset, ⟨b.offset + 2, b.offset + 2 + m.size⟩, b.line, b.siblings⟩ ::
      b.frames }

@[simp] theorem parent_after (b : Builder) (body : Body) : (b.after body).parent = b.parent := rfl

@[simp] theorem parent_opened (b : Builder) (m : Text) : (b.opened m).parent = some (nameOf m) :=
  rfl

@[simp] theorem after_nil (b : Builder) : b.after .nil = b := by
  simp [after, Body.layout, Text.newlines]

theorem after_append (b : Builder) (c d : Body) : b.after (c.append d) = (b.after c).after d := by
  simp [after, Body.layout_append, Nat.add_assoc]

theorem step_text (b : Builder) (chars : Text) :
    b.step (.text chars) = .ok (b.after (.text chars .nil)) := by
  simp [step, push, advance, after, Token.lexeme, Body.layout, bind, Except.bind, pure, Except.pure]

theorem step_output (b : Builder) (m : Text) :
    b.step (.variable m) = .ok (b.after (.output m .nil)) := by
  have hs : b.offset + 2 + m.size + 2 = b.offset + Text.size (Token.variable m).lexeme := by
    have h1 : ('{' : Char).utf8Size = 1 := rfl
    have h2 : ('}' : Char).utf8Size = 1 := rfl
    simp [Token.lexeme, h1, h2]
    omega
  have hl : Text.newlines (Token.variable m).lexeme = (Body.output m .nil).spell.newlines := by
    rw [Body.spell_output]
    rfl
  have hz : (Body.output m .nil).spell.size = Text.size (Token.variable m).lexeme := by
    rw [Body.spell_output]
    rfl
  simp only [step, push, advance, after, Body.layout, bind, Except.bind, pure, Except.pure, hs, hl,
    hz, List.reverse_cons, List.reverse_nil, List.nil_append, List.singleton_append]

/-- The node of a tag without a body is the layout of the tag. -/
theorem push_tag (b : Builder) (m : Text) :
    (b.push ⟨.tag (nameOf m) false, ⟨b.offset, b.offset + Text.size (tagLexeme m)⟩,
        ⟨b.offset + 2, b.offset + 2 + m.size⟩, []⟩).advance (tagLexeme m) =
      b.after (.tag m .nil) := by
  have hs : b.offset + 2 + m.size + 2 = b.offset + (m.size + 4) := by omega
  simp [push, advance, after, Body.layout, hs]

theorem step_raw (b : Builder) (m chars close : Text) :
    b.step (.rawBlock (nameOf m) m chars (tagLexeme close)) =
      .ok (b.after (.raw m chars close .nil)) := by
  have hl : (Token.rawBlock (nameOf m) m chars (tagLexeme close)).lexeme
      = (Body.raw m chars close .nil).spell := by
    simp [Token.lexeme]
  have hs : b.offset + (m.size + 4) = b.offset + 2 + m.size + 2 := by omega
  simp only [step, push, advance, after, Body.layout, rawNode, bind, Except.bind, pure, Except.pure,
    hl, Body.size_tagLexeme, hs, List.reverse_cons, List.reverse_nil, List.nil_append,
    List.singleton_append]

/-- Reading a tag is reading its name and markup and moving past it. -/
theorem step_tag (b : Builder) (m : Text) :
    b.step (.tag m) = (b.tag (nameOf m) m).map (·.advance (tagLexeme m)) := by
  simp only [step, Token.lexeme, bind, Except.bind, pure, Except.pure, nameOf]
  cases b.tag (String.ofList (tagName (trimMarkup m))) m <;> rfl

theorem isEmpty_eq_false_of_role {name : String} (h : TagRole.of name ≠ .unknown) :
    name.isEmpty = false := by
  cases he : name.isEmpty with
  | false => rfl
  | true =>
    rw [String.isEmpty_iff] at he
    subst he
    exact absurd rfl h

theorem step_open {b : Builder} {m : Text} (h : nameOf m ∈ blockTags) :
    b.step (.tag m) = .ok (b.opened m) := by
  have hr := role_of_mem_blockTags h
  have he : (nameOf m).isEmpty = false := isEmpty_eq_false_of_role (by rw [hr]; simp)
  rw [step_tag]
  simp [tag, hr, he, Except.map, advance, opened]

theorem step_leaf {b : Builder} {m : Text} (h : Body.Allowed b.parent (nameOf m)) :
    b.step (.tag m) = .ok (b.after (.tag m .nil)) := by
  rw [step_tag, ← push_tag]
  rcases h with h | ⟨parents, block, hp, hb, hm⟩
  · have hr := role_of_mem_inlineTags h
    have he : (nameOf m).isEmpty = false := isEmpty_eq_false_of_role (by rw [hr]; simp)
    simp [tag, hr, he, Except.map]
  · have hr := role_of_branchParents hp
    have he : (nameOf m).isEmpty = false := isEmpty_eq_false_of_role (by rw [hr]; simp)
    obtain ⟨f, frames, hf⟩ : ∃ f frames, b.frames = f :: frames := by
      cases hfr : b.frames with
      | nil => simp [parent, hfr] at hb
      | cons f frames => exact ⟨f, frames, rfl⟩
    have hfn : f.name = block := by simpa [parent, hf] using hb
    have hc : parents.contains f.name = true := by simpa [hfn] using hm
    simp only [tag, hr, he, hf, hc]
    rfl

/-- Reading the end tag of the innermost block finishes the block. -/
theorem step_close {b : Builder} {m close : Text} (inner : Body)
    (h : nameOf close = "end" ++ nameOf m) :
    ((b.opened m).after inner).step (.tag close) = .ok (b.after (.block m inner close .nil)) := by
  have hr : TagRole.of (nameOf close) = .closing (nameOf m) := by rw [h, role_of_end]
  have he : (nameOf close).isEmpty = false := isEmpty_eq_false_of_role (by rw [hr]; simp)
  have hs : b.offset + (m.size + 4) = b.offset + 2 + m.size + 2 := by omega
  have hz : b.offset + (m.size + 4 + (inner.spell.size + (close.size + 4)))
      = b.offset + 2 + m.size + 2 + inner.spell.size + (close.size + 4) := by omega
  have hl : b.line + (tagLexeme m).newlines + inner.spell.newlines + (tagLexeme close).newlines
      = b.line + ((tagLexeme m).newlines + (inner.spell.newlines + (tagLexeme close).newlines)) := by
    omega
  rw [step_tag]
  simp only [tag, hr, he, Bool.false_eq_true, if_false, Builder.close, opened, after, if_true,
    Except.map, advance, Body.layout, Body.spell_block, Body.spell_nil, Body.size_tagLexeme,
    Text.size_append, Text.newlines_append, List.append_nil, List.reverse_nil,
    List.reverse_reverse, List.reverse_cons, List.nil_append, List.singleton_append, hs, hz, hl]

theorem run_cons_ok {b c : Builder} {token : Token} {tokens : List Token}
    (h : b.step token = .ok c) : b.run (token :: tokens) = c.run tokens := by
  rw [run, h]

theorem run_cons_error {b : Builder} {e : ParseError} {token : Token} {tokens : List Token}
    (h : b.step token = .error e) : b.run (token :: tokens) = .error e := by
  rw [run, h]

/-- **Reading a derivation**: a builder reads a body that fits into it to the end. -/
theorem run_body {b : Builder} {p : Option String} {body : Body} (hp : b.parent = p)
    (h : body.Fits p) (rest : List Token) :
    b.run (body.tokens ++ rest) = (b.after body).run rest := by
  -- the induction goes over every builder whose innermost block is `p`, since the inner body of a
  -- block runs in the builder the block opened
  induction body generalizing b p rest with
  | nil => simp [Body.tokens]
  | text chars body ih =>
    rw [Body.tokens, List.cons_append, run_cons_ok (step_text b chars),
      ih ((parent_after b _).trans hp) h, ← after_append]
    rfl
  | output m body ih =>
    rw [Body.tokens, List.cons_append, run_cons_ok (step_output b m),
      ih ((parent_after b _).trans hp) h, ← after_append]
    rfl
  | tag m body ih =>
    rw [Body.tokens, List.cons_append, run_cons_ok (step_leaf (hp ▸ h.1)),
      ih ((parent_after b _).trans hp) h.2, ← after_append]
    rfl
  | raw m chars close body ih =>
    rw [Body.tokens, List.cons_append, run_cons_ok (step_raw b m chars close),
      ih ((parent_after b _).trans hp) h.2, ← after_append]
    rfl
  | block m inner close body ihi ihb =>
    obtain ⟨hm, hclose, hinner, hbody⟩ := h
    rw [Body.tokens, List.cons_append, run_cons_ok (step_open hm), List.append_assoc,
      -- the inner body leaves the block open with its nodes, the closing tag then makes one node of
      -- it
      ihi (parent_opened b m) hinner, List.cons_append, run_cons_ok (step_close inner hclose),
      ihb ((parent_after b _).trans hp) hbody, ← after_append]
    rfl

end Builder

/-! ### Derivations under way -/

/-- A derivation that has been read up to some token. -/
inductive Spine where
  /-- No block is open after `done`. -/
  | top (done : Body)
  /-- After `outer` the block with opening tag `markup` is open, and `done` is read inside it. -/
  | within (outer : Spine) (markup : Text) (done : Body)

namespace Spine

/-- The tokens read. -/
def tokens : Spine → List Token
  | top done => done.tokens
  | within outer m done => outer.tokens ++ .tag m :: done.tokens

/-- The characters read. -/
def spell (s : Spine) : Text := s.tokens.flatMap Token.lexeme

/-- The name of the innermost open block. -/
def parent : Spine → Option String
  | top _ => none
  | within _ m _ => some (nameOf m)

/-- A derivation under way keeps the rules of the grammar so far. -/
def Fits : Spine → Prop
  | top done => done.Fits none
  | within outer m done => outer.Fits ∧ nameOf m ∈ blockTags ∧ done.Fits (some (nameOf m))

/-- The builder that has read a derivation under way. -/
def builder : Spine → Builder
  | top done => Builder.empty.after done
  | within outer m done => (outer.builder.opened m).after done

/-- Adds finished constructs to the innermost open body. -/
def push : Spine → Body → Spine
  | top done, b => top (done.append b)
  | within outer m done, b => within outer m (done.append b)

theorem tokens_push (s : Spine) (b : Body) : (s.push b).tokens = s.tokens ++ b.tokens := by
  cases s <;> simp [push, tokens, Body.tokens_append]

theorem fits_push {s : Spine} {b : Body} : (s.push b).Fits ↔ s.Fits ∧ b.Fits s.parent := by
  cases s <;> simp [push, Fits, parent, Body.fits_append, and_assoc]

theorem builder_push (s : Spine) (b : Body) : (s.push b).builder = s.builder.after b := by
  cases s <;> simp [push, builder, Builder.after_append]

theorem parent_builder (s : Spine) : s.builder.parent = s.parent := by
  cases s <;> rfl

theorem spell_within (outer : Spine) (m : Text) (done : Body) :
    (within outer m done).spell = outer.spell ++ (tagLexeme m ++ done.spell) := by
  simp [spell, tokens, Token.lexeme, Body.spell]

/-- The line reached is one more than the number of newlines read. -/
theorem line_builder (s : Spine) : s.builder.line = 1 + s.spell.newlines := by
  induction s with
  | top done => rfl
  | within outer m done ih =>
    rw [spell_within, Text.newlines_append, Text.newlines_append]
    simp only [builder, Builder.after, Builder.opened, ih]
    omega

end Spine

/-- **Tokens at fault**: `token` cannot stand directly in the block `parent`, because of `cause`. -/
inductive Rejects : Option String → Token → Cause → Prop where
  /-- The tag has no name. -/
  | emptyTag (parent : Option String) {m : Text} : nameOf m = "" → Rejects parent (.tag m) .emptyTag
  /-- The name is on no list and closes nothing. -/
  | unknownTag (parent : Option String) {m : Text} : nameOf m ≠ "" →
      TagRole.of (nameOf m) = .unknown → Rejects parent (.tag m) (.unknownTag (nameOf m))
  /-- An end tag stands where no block is open. -/
  | strayClose {m : Text} {target : String} : nameOf m = "end" ++ target →
      Rejects none (.tag m) (.unknownTag (nameOf m))
  /-- An end tag stands in a block that it does not close. -/
  | wrongClose {m : Text} {block target : String} : nameOf m = "end" ++ target → target ≠ block →
      Rejects (some block) (.tag m) (.wrongClose (nameOf m) block)
  /-- A branch tag does not stand directly in a block that it divides. -/
  | misplacedBranch {parent : Option String} {m : Text} {parents : List String} :
      branchParents? (nameOf m) = some parents → (∀ block ∈ parents, parent ≠ some block) →
      Rejects parent (.tag m) (.misplacedBranch (nameOf m))

theorem Builder.step_rejected {b : Builder} {token : Token} {cause : Cause}
    (h : Rejects b.parent token cause) : b.step token = .error ⟨cause, b.line⟩ := by
  generalize hp : b.parent = p at h
  cases h with
  | emptyTag p hn => simp [step_tag, tag, hn, Except.map, fail]
  | unknownTag p hne hr =>
    rw [step_tag]
    simp [tag, hr, hne, Except.map, fail]
  -- a closing tag with no block open: there is no frame to close
  | strayClose hn =>
    have hr : TagRole.of _ = _ := (congrArg TagRole.of hn).trans (role_of_end _)
    have he := isEmpty_eq_false_of_role (by rw [hr]; simp)
    have hf : b.frames = [] := by
      cases hf : b.frames with
      | nil => rfl
      | cons f frames => simp [parent, hf] at hp
    rw [step_tag]
    simp [tag, hr, he, close, hf, Except.map, fail]
  | @wrongClose m block target hn hne =>
    have hr : TagRole.of _ = _ := (congrArg TagRole.of hn).trans (role_of_end _)
    have he := isEmpty_eq_false_of_role (by rw [hr]; simp)
    cases hf : b.frames with
    | nil => simp [parent, hf] at hp
    | cons f frames =>
      have hname : f.name = block := by simpa [parent, hf] using hp
      rw [step_tag]
      simp [tag, hr, he, close, hf, hname, hne.symm, Except.map, fail]
  | @misplacedBranch _ m parents hbr hno =>
    have hr := role_of_branchParents hbr
    have he := isEmpty_eq_false_of_role (by rw [hr]; simp)
    rw [step_tag]
    -- a branch tag is misplaced either at the top or under a block that is not one of its parents
    cases hf : b.frames with
    | nil => simp [tag, hr, he, hf, Except.map, fail]
    | cons f frames =>
      have hname : p = some f.name := by simpa [parent, hf] using hp.symm
      have hnot : f.name ∉ parents := fun hm => hno f.name hm hname
      simp [tag, hr, he, hf, hnot, Except.map, fail]

/-- **One more token**: it goes on with the derivation, or it is at fault. -/
theorem Spine.step {s : Spine} (hs : s.Fits) {token : Token} (ht : token.Whole) :
    (∃ s' : Spine, s'.Fits ∧ s'.tokens = s.tokens ++ [token] ∧
      s.builder.step token = .ok s'.builder) ∨
    ∃ cause, Rejects s.parent token cause := by
  -- the tokens that are a construct of their own go to the innermost open body
  have hpush : ∀ b : Body, b.Fits s.parent → b.tokens = [token] →
      s.builder.step token = .ok (s.builder.after b) →
      ∃ s' : Spine, s'.Fits ∧ s'.tokens = s.tokens ++ [token] ∧
        s.builder.step token = .ok s'.builder := by
    intro b hb htok hstep
    exact ⟨s.push b, fits_push.2 ⟨hs, hb⟩, by rw [tokens_push, htok],
      by rw [builder_push, hstep]⟩
  cases token with
  | text chars => exact Or.inl (hpush (.text chars .nil) trivial rfl (Builder.step_text _ _))
  | «variable» m => exact Or.inl (hpush (.output m .nil) trivial rfl (Builder.step_output _ _))
  | rawBlock name m chars close =>
    obtain ⟨-, rfl, hn, n, -, rfl⟩ := ht
    exact Or.inl (hpush (.raw m chars n .nil) ⟨hn, trivial⟩ rfl (Builder.step_raw _ _ _ _))
  | tag m =>
    have hleaf : Body.Allowed s.parent (nameOf m) → ∃ s' : Spine, s'.Fits ∧
        s'.tokens = s.tokens ++ [.tag m] ∧ s.builder.step (.tag m) = .ok s'.builder := by
      intro ha
      refine hpush (.tag m .nil) ⟨ha, trivial⟩ rfl (Builder.step_leaf ?_)
      rw [parent_builder]
      exact ha
    rcases role_cases (nameOf m) with
      ⟨_, h⟩ | ⟨_, h⟩ | ⟨target, _, h⟩ | ⟨parents, _, h⟩ | ⟨_, h⟩ | ⟨hr, _⟩
    · exact absurd h ht.2
    · exact Or.inl ⟨within s m .nil, ⟨hs, h, trivial⟩, rfl, by
        rw [Builder.step_open h, builder, Builder.after_nil]⟩
    · cases s with
      | top done => exact Or.inr ⟨_, .strayClose h⟩
      | within outer m' done =>
        by_cases hm : target = nameOf m'
        · subst hm
          refine Or.inl ⟨outer.push (.block m' done m .nil), ?_, ?_, ?_⟩
          · exact fits_push.2 ⟨hs.1, hs.2.1, h, hs.2.2, trivial⟩
          · rw [tokens_push]
            simp [tokens, Body.tokens]
          · rw [builder_push, builder, Builder.step_close done h]
        · exact Or.inr ⟨_, .wrongClose h hm⟩
    · by_cases hp : ∃ block ∈ parents, s.parent = some block
      · obtain ⟨block, hb, hp⟩ := hp
        exact Or.inl (hleaf (Or.inr ⟨parents, block, h, hp, hb⟩))
      · exact Or.inr ⟨_, .misplacedBranch h fun block hb hpb => hp ⟨block, hb, hpb⟩⟩
    · exact Or.inl (hleaf (Or.inl h))
    · by_cases he : nameOf m = ""
      · exact Or.inr ⟨_, .emptyTag _ he⟩
      · exact Or.inr ⟨_, .unknownTag _ he hr⟩

/-- **A run of tokens**: it is a derivation under way, or it holds a first token at fault. -/
theorem Spine.run {s : Spine} (hs : s.Fits) {tokens : List Token}
    (ht : ∀ token ∈ tokens, token.Whole) :
    (∃ s' : Spine, s'.Fits ∧ s'.tokens = s.tokens ++ tokens ∧
      s.builder.run tokens = .ok s'.builder) ∨
    ∃ (s' : Spine) (token : Token) (later : List Token) (cause : Cause), s'.Fits ∧
      s'.tokens ++ token :: later = s.tokens ++ tokens ∧ Rejects s'.parent token cause ∧
      s.builder.run tokens = .error ⟨cause, 1 + s'.spell.newlines⟩ := by
  induction tokens generalizing s with
  | nil => exact Or.inl ⟨s, hs, by simp, rfl⟩
  | cons token tokens ih =>
    obtain ⟨htoken, htokens⟩ := List.forall_mem_cons.1 ht
    rcases s.step hs htoken with ⟨s', hs', htok, hstep⟩ | ⟨cause, hr⟩
    · rw [Builder.run_cons_ok hstep]
      have happ : s'.tokens ++ tokens = s.tokens ++ token :: tokens := by rw [htok]; simp
      rw [← happ]
      exact ih hs' htokens
    · refine Or.inr ⟨s, token, tokens, cause, hs, rfl, hr, ?_⟩
      rw [Builder.run_cons_error (Builder.step_rejected (by rw [parent_builder]; exact hr)),
        line_builder]

/-- A builder that has read a whole derivation under way is its builder. -/
theorem Spine.run_tokens {s : Spine} (hs : s.Fits) (rest : List Token) :
    Builder.empty.run (s.tokens ++ rest) = s.builder.run rest := by
  induction s generalizing rest with
  | top done => exact Builder.run_body (p := none) rfl hs rest
  | within outer m done ih =>
    obtain ⟨houter, hm, hdone⟩ := hs
    rw [tokens, List.append_assoc, ih houter, List.cons_append,
      Builder.run_cons_ok (Builder.step_open hm), Builder.run_body (Builder.parent_opened _ m) hdone]
    rfl

/-! ### Parsing -/

theorem parse_eq (source : Text) :
    parse source = (Builder.empty.run (Token.scan source).1).bind (·.finish (Token.scan source).2) :=
  rfl

theorem exists_parse (source : Text) (h : (parse source).isOk = true) :
    ∃ root, parse source = .ok root := by
  cases hp : parse source with
  | ok root => exact ⟨root, rfl⟩
  | error e => rw [hp] at h; cases h

/-- What is computed from the document of a source shows that there is one. -/
theorem exists_parse_of_map {source : Text} {α : Type} {f : Node → α} {v : α}
    (h : (parse source).map f = .ok v) : ∃ root, parse source = .ok root ∧ f root = v := by
  cases hp : parse source with
  | error e => rw [hp] at h; cases h
  | ok root =>
    rw [hp] at h
    exact ⟨root, rfl, Except.ok.inj h⟩

/-- **Derivations are accepted** with their layout as the tree. -/
theorem parse_of_cuts {source : Text} {b : Body} (hb : b.Fits none)
    (h : Cuts source b.tokens none) : parse source = .ok b.document := by
  have hrun := Builder.run_body (b := Builder.empty) rfl hb []
  rw [List.append_nil] at hrun
  rw [parse_eq, Token.cuts_iff.1 h, hrun]
  simp [Builder.run, Except.bind, Builder.finish, Builder.after, Builder.empty, Body.document]

/-- **What is accepted is a derivation.** -/
theorem exists_body_of_parse {source : Text} {root : Node} (h : parse source = .ok root) :
    ∃ b : Body, b.Fits none ∧ Cuts source b.tokens none ∧ root = b.document := by
  have hcuts := Token.cuts_scan source
  have hfits : (Spine.top .nil).Fits := trivial
  have hempty : (Spine.top .nil).builder = Builder.empty := Builder.after_nil _
  -- a run over the scanned tokens ends in a spine of open blocks, or stops at a rejected token
  rcases Spine.run hfits hcuts.whole with ⟨s, hs, htok, hrun⟩ | ⟨_, _, _, _, _, _, _, hrun⟩
  · rw [hempty] at hrun
    rw [parse_eq, hrun] at h
    rw [show (Spine.top .nil).tokens = [] from rfl, List.nil_append] at htok
    rw [← htok] at hcuts
    generalize hf : (Token.scan source).2 = fault at h hcuts
    cases fault with
    | some fault => simp [Except.bind, Builder.finish] at h
    | none =>
      cases s with
      | within outer m done =>
        simp [Except.bind, Builder.finish, Spine.builder, Builder.after, Builder.opened] at h
      | top done =>
        refine ⟨done, hs, hcuts, ?_⟩
        have := parse_of_cuts hs hcuts
        rw [parse_eq, hf, hrun, h] at this
        exact Except.ok.inj this
  · rw [hempty] at hrun
    rw [parse_eq, hrun] at h
    simp [Except.bind] at h

/-- **Parsing is deriving**: a template is accepted exactly when its tokens have a derivation. -/
theorem parse_eq_ok_iff {source : Text} {root : Node} :
    parse source = .ok root ↔
      ∃ b : Body, b.Fits none ∧ Cuts source b.tokens none ∧ root = b.document := by
  constructor
  · exact exists_body_of_parse
  · rintro ⟨b, hfits, hcuts, rfl⟩
    exact parse_of_cuts hfits hcuts

/-- The characters of a derivation are the template. -/
theorem Body.spell_of_cuts {source : Text} {b : Body} (h : Cuts source b.tokens none) :
    b.spell = source := by
  obtain ⟨rest, hsource, hrest⟩ := h.exists_append
  rw [hsource, hrest.1 rfl, List.append_nil]
  rfl

end LiquidLint.Liquid
