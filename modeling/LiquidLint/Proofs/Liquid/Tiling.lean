import LiquidLint.Proofs.Liquid.Body
import LiquidLint.Proofs.Liquid.Name

/-!
# Trees tile their source

The nodes of a parse tree cover the source without gaps and without overlaps. `Tiles` says that a
list of nodes covers a range from left to right, `Node.Placed` what the span of one node covers:
text as it is, a variable or tag from its opening delimiter to the first closing one, a block
up to an end tag of its name, which comes right after the last of its children. The main result is
`parse_tiles`: the tree of every template that is accepted is placed in this way, down to the last
node, and all its offsets are boundaries of the template.

The proof goes along the derivation, which may stand anywhere in the source: the characters before it
give its offset and the characters after it do not matter.
-/

namespace LiquidLint.Liquid

open Token (tagLexeme ClosedBy Cuts)

/-! ### Where nodes stand -/

/-- The nodes cover `start .. stop` from left to right without gaps, and none of them is empty. -/
def Tiles : List Node → Nat → Nat → Prop
  | [], start, stop => start = stop
  | n :: ns, start, stop => n.span.start = start ∧ start < n.span.stop ∧ Tiles ns n.span.stop stop

/-- At `start` stands an opening delimiter made of a brace and `o`, then the markup, then the first
closing delimiter after it, made of `a` and a brace. -/
structure Delimited (source : Text) (o a : Char) (start : Nat) (markup : Span) : Prop where
  opener : source.slice? ⟨start, start + 2⟩ = some ['{', o]
  markup_start : markup.start = start + 2
  closed : ∃ m, source.slice? markup = some m ∧ ClosedBy a '}' m
  closer : source.slice? ⟨markup.stop, markup.stop + 2⟩ = some [a, '}']

/-- One tag, and nothing else, stands between two offsets: a tag named `name`. -/
def IsTagAt (source : Text) (span : Span) (name : String) : Prop :=
  ∃ m, source.slice? span = some (tagLexeme m) ∧ ClosedBy '%' '}' m ∧ nameOf m = name

namespace Node

/-- A node stands in the source as its kind asks for. -/
def Placed (source : Text) (n : Node) : Prop :=
  match n.kind with
  | .document => False
  | .text => n.children = [] ∧ n.markupSpan = n.span
  | .variable =>
    n.children = [] ∧ Delimited source '{' '}' n.span.start n.markupSpan ∧
      n.span.stop = n.markupSpan.stop + 2
  | .tag name false =>
    n.children = [] ∧ Delimited source '%' '%' n.span.start n.markupSpan ∧
      n.span.stop = n.markupSpan.stop + 2 ∧ IsTagAt source n.span name
  | .tag name true =>
    Delimited source '%' '%' n.span.start n.markupSpan ∧
      IsTagAt source ⟨n.span.start, n.markupSpan.stop + 2⟩ name ∧
      (∃ c, Tiles n.children (n.markupSpan.stop + 2) c ∧
        IsTagAt source ⟨c, n.span.stop⟩ ("end" ++ name)) ∧
      (name ∈ rawTags → n.children = [] ∨ ∃ child, n.children = [child] ∧ child.kind = .text)

/-- The offsets of a node are in order and lie between the characters of the source. -/
structure Bounded (source : Text) (n : Node) : Prop where
  start_le : n.span.start ≤ n.markupSpan.start
  markup_le : n.markupSpan.start ≤ n.markupSpan.stop
  le_stop : n.markupSpan.stop ≤ n.span.stop
  stop_le : n.span.stop ≤ source.size
  start : source.isBoundary n.span.start = true
  markup_start : source.isBoundary n.markupSpan.start = true
  markup_stop : source.isBoundary n.markupSpan.stop = true
  stop : source.isBoundary n.span.stop = true

end Node

/-! ### Delimiters in a text -/

/-- An offset between two parts of a text is a boundary. -/
theorem isBoundary_of_append {t l r : Text} {n : Nat} (h : t = l ++ r) (hn : n = l.size) :
    t.isBoundary n = true := by
  subst h hn
  exact Text.isBoundary_append l r

theorem size_brace : ('{' : Char).utf8Size = 1 ∧ ('}' : Char).utf8Size = 1 ∧
    ('%' : Char).utf8Size = 1 := ⟨rfl, rfl, rfl⟩

theorem delimited_append {o a : Char} {m : Text} (ho : o.utf8Size = 1) (ha : a.utf8Size = 1)
    (hm : ClosedBy a '}' m) (pre rest : Text) :
    Delimited (pre ++ ('{' :: o :: (m ++ a :: '}' :: rest))) o a pre.size
      ⟨pre.size + 2, pre.size + 2 + m.size⟩ where
  opener := Text.slice?_append pre ['{', o] (m ++ a :: '}' :: rest) rfl (by
    simp [size_brace, ho])
  markup_start := rfl
  closed := by
    refine ⟨m, ?_, hm⟩
    have h := Text.slice?_append (pre ++ ['{', o]) m (a :: '}' :: rest)
      (a := pre.size + 2) (b := pre.size + 2 + m.size)
      (by simp [size_brace, ho]) (by simp [size_brace, ho])
    simpa using h
  closer := by
    have h := Text.slice?_append (pre ++ '{' :: o :: m) [a, '}'] rest
      (a := pre.size + 2 + m.size) (b := pre.size + 2 + m.size + 2)
      (by simp [size_brace, ho]; omega) (by simp [size_brace, ho, ha]; omega)
    simpa using h

theorem delimited_tag {m : Text} (hm : ClosedBy '%' '}' m) (pre rest : Text) :
    Delimited (pre ++ (tagLexeme m ++ rest)) '%' '%' pre.size
      ⟨pre.size + 2, pre.size + 2 + m.size⟩ := by
  simpa [tagLexeme] using delimited_append rfl rfl hm pre rest

theorem isTagAt_append {m : Text} {name : String} (hm : ClosedBy '%' '}' m) (hn : nameOf m = name)
    (pre rest : Text) {a b : Nat} (ha : a = pre.size) (hb : b = pre.size + (m.size + 4)) :
    IsTagAt (pre ++ (tagLexeme m ++ rest)) ⟨a, b⟩ name :=
  ⟨m, Text.slice?_append pre (tagLexeme m) rest ha (by rw [hb, Body.size_tagLexeme]), hm, hn⟩

/-- The markup of an end tag of a raw tag holds no brace, so its tag ends where it should. -/
theorem closedBy_of_isRawEnd {w n : Text} (hw : IsWord w) (h : Token.IsRawEnd w n) :
    ClosedBy '%' '}' n := by
  obtain ⟨lead, front, back, trail, hlead, hfront, hback, htrail, rfl⟩ := h
  have hgap : ∀ g, Token.IsGap g → '}' ∉ g := by
    intro g hg hm
    exact absurd (hg _ hm) (by decide)
  have hdash : ∀ d, Token.IsDash d → '}' ∉ d := by
    rintro d (rfl | rfl) <;> decide
  intro hp
  have hmem : '}' ∈ lead ++ (front ++ ('e' :: 'n' :: 'd' :: (w ++ (back ++ trail)))) ++ ['%'] :=
    hp.subset (by simp)
  simp [hgap front hfront, hgap back hback, hdash lead hlead, hdash trail htrail, hw.ne] at hmem

/-! ### Derivations tile -/

theorem tiles_layout (b : Body) (h : ∀ token ∈ b.tokens, token.Whole) (offset : Nat) :
    Tiles (b.layout offset) offset (offset + b.spell.size) := by
  -- each node is a tile of its own length, and the rest tiles what follows it
  induction b generalizing offset with
  | nil => rfl
  | text chars rest ih =>
    obtain ⟨hne, hrest⟩ := List.forall_mem_cons.1 h
    refine ⟨rfl, Nat.lt_add_of_pos_right (Text.size_pos hne), ?_⟩
    rw [Body.spell_text, Text.size_append, ← Nat.add_assoc]
    exact ih hrest _
  | output m rest ih =>
    refine ⟨rfl, by simp only; omega, ?_⟩
    have hs : offset + (Body.output m rest).spell.size
        = offset + 2 + m.size + 2 + rest.spell.size := by simp [size_brace]; omega
    rw [hs]
    exact ih (List.forall_mem_cons.1 h).2 _
  | tag m rest ih =>
    refine ⟨rfl, by simp only; omega, ?_⟩
    have hs : offset + (Body.tag m rest).spell.size
        = offset + 2 + m.size + 2 + rest.spell.size := by simp; omega
    rw [hs]
    exact ih (List.forall_mem_cons.1 h).2 _
  | raw m chars close rest ih =>
    refine ⟨rfl, by simp only; omega, ?_⟩
    have hs : offset + (Body.raw m chars close rest).spell.size
        = offset + 2 + m.size + 2 + chars.size + (close.size + 4) + rest.spell.size := by
      simp; omega
    rw [hs]
    exact ih (List.forall_mem_cons.1 h).2 _
  | block m inner close rest _ ih =>
    refine ⟨rfl, by simp only; omega, ?_⟩
    have hs : offset + (Body.block m inner close rest).spell.size
        = offset + 2 + m.size + 2 + inner.spell.size + (close.size + 4) + rest.spell.size := by
      simp; omega
    rw [hs]
    exact ih (fun token ht => h token (by simp [Body.tokens, ht])) _

/-- The offsets of a node are boundaries when the source falls into the parts that they separate. -/
theorem bounded_of_append {source : Text} {n : Node} (pre a m b post : Text)
    (hsource : source = pre ++ (a ++ (m ++ (b ++ post))))
    (hstart : n.span.start = pre.size) (hmarkup : n.markupSpan.start = pre.size + a.size)
    (hstop : n.markupSpan.stop = pre.size + a.size + m.size)
    (hend : n.span.stop = pre.size + a.size + m.size + b.size) : n.Bounded source where
  start_le := by omega
  markup_le := by omega
  le_stop := by omega
  stop_le := by rw [hsource]; simp only [Text.size_append]; omega
  start := isBoundary_of_append hsource hstart
  markup_start := isBoundary_of_append (l := pre ++ a) (r := m ++ (b ++ post))
    (by rw [hsource]; simp) (by simpa using hmarkup)
  markup_stop := isBoundary_of_append (l := pre ++ a ++ m) (r := b ++ post)
    (by rw [hsource]; simp) (by rw [hstop]; simp only [Text.size_append])
  stop := isBoundary_of_append (l := pre ++ a ++ m ++ b) (r := post)
    (by rw [hsource]; simp) (by rw [hend]; simp only [Text.size_append])

/-- Text stands where its characters do. -/
theorem placed_text {source pre chars post : Text} {offset : Nat}
    (hsource : source = pre ++ (chars ++ post)) (hoffset : offset = pre.size) {n : Node}
    (hn : n = ⟨.text, ⟨offset, offset + chars.size⟩, ⟨offset, offset + chars.size⟩, []⟩) :
    n.Placed source ∧ n.Bounded source := by
  subst hn
  refine ⟨⟨rfl, rfl⟩, bounded_of_append pre [] chars [] post ?_ hoffset ?_ ?_ ?_⟩
  · rw [hsource]; simp
  all_goals simp [hoffset]

/-- A variable stands between its delimiters. -/
theorem placed_output {source pre m post : Text} {offset : Nat}
    (hsource : source = pre ++ ('{' :: '{' :: (m ++ '}' :: '}' :: post))) (hoffset : offset = pre.size)
    (hm : ClosedBy '}' '}' m) {n : Node}
    (hn : n = ⟨.variable, ⟨offset, offset + 2 + m.size + 2⟩, ⟨offset + 2, offset + 2 + m.size⟩, []⟩) :
    n.Placed source ∧ n.Bounded source := by
  subst hn
  refine ⟨⟨rfl, ?_, rfl⟩, bounded_of_append pre ['{', '{'] m ['}', '}'] post ?_ hoffset ?_ ?_ ?_⟩
  · rw [hsource, hoffset]
    exact delimited_append rfl rfl hm pre post
  · rw [hsource]; simp
  all_goals simp [hoffset, size_brace]

/-- A tag without a body stands between its delimiters. -/
theorem placed_tag {source pre m post : Text} {offset : Nat}
    (hsource : source = pre ++ (tagLexeme m ++ post)) (hoffset : offset = pre.size)
    (hm : ClosedBy '%' '}' m) {n : Node} (hn : n = ⟨.tag (nameOf m) false,
      ⟨offset, offset + 2 + m.size + 2⟩, ⟨offset + 2, offset + 2 + m.size⟩, []⟩) :
    n.Placed source ∧ n.Bounded source := by
  subst hn
  refine ⟨⟨rfl, ?_, rfl, ?_⟩, bounded_of_append pre ['{', '%'] m ['%', '}'] post ?_ hoffset ?_ ?_ ?_⟩
  · rw [hsource, hoffset]
    exact delimited_tag hm pre _
  · rw [hsource]
    exact isTagAt_append hm rfl pre _ hoffset (by omega)
  · rw [hsource]; simp [tagLexeme]
  all_goals simp [hoffset, size_brace]

/-- A tag with a body stands between its opening tag and its end tag. -/
theorem placed_bodied {source pre m body close post : Text} {offset : Nat} {children : List Node}
    (hsource : source = pre ++ (tagLexeme m ++ (body ++ (tagLexeme close ++ post))))
    (hoffset : offset = pre.size) (hm : ClosedBy '%' '}' m) (hclose : ClosedBy '%' '}' close)
    (hname : nameOf close = "end" ++ nameOf m)
    (htiles : Tiles children (offset + 2 + m.size + 2) (offset + 2 + m.size + 2 + body.size))
    (hraw : nameOf m ∈ rawTags → children = [] ∨ ∃ child, children = [child] ∧ child.kind = .text)
    {n : Node} (hn : n = ⟨.tag (nameOf m) true,
      ⟨offset, offset + 2 + m.size + 2 + body.size + (close.size + 4)⟩,
      ⟨offset + 2, offset + 2 + m.size⟩, children⟩) : n.Placed source ∧ n.Bounded source := by
  subst hn
  -- the opening tag, the closing tag, the children between them, and the bounds of both spans
  refine ⟨⟨?_, ?_, ⟨_, htiles, ?_⟩, hraw⟩, ?_⟩
  · rw [hsource, hoffset]
    exact delimited_tag hm pre _
  · rw [hsource]
    exact isTagAt_append hm rfl pre _ hoffset (by simp only; omega)
  · have hpre : (pre ++ tagLexeme m ++ body).size = offset + 2 + m.size + 2 + body.size := by
      simp only [Text.size_append, Body.size_tagLexeme]
      omega
    have h := isTagAt_append hclose hname (pre ++ tagLexeme m ++ body) post hpre.symm rfl
    rw [hpre] at h
    rw [hsource]
    simpa using h
  · refine bounded_of_append pre ['{', '%'] m ('%' :: '}' :: (body ++ tagLexeme close)) post
      ?_ hoffset ?_ ?_ ?_
    · rw [hsource]; simp [tagLexeme]
    · simp [hoffset, size_brace]
    · simp [hoffset, size_brace]
    · simp [hoffset, size_brace]; omega

/-- A raw block is placed, and so is the text in it, if there is any. -/
theorem placed_raw {source pre m chars close post : Text} {offset : Nat}
    (hsource : source = pre ++ (tagLexeme m ++ (chars ++ (tagLexeme close ++ post))))
    (hoffset : offset = pre.size) (hwhole : (Token.rawBlock (nameOf m) m chars (tagLexeme close)).Whole)
    {n : Node}
    (hn : n = ⟨.tag (nameOf m) true,
      ⟨offset, offset + 2 + m.size + 2 + chars.size + (close.size + 4)⟩,
      ⟨offset + 2, offset + 2 + m.size⟩,
      if chars.isEmpty then [] else [⟨.text,
        ⟨offset + 2 + m.size + 2, offset + 2 + m.size + 2 + chars.size⟩,
        ⟨offset + 2 + m.size + 2, offset + 2 + m.size + 2 + chars.size⟩, []⟩]⟩) :
    (n.Placed source ∧ n.Bounded source) ∧
      ∀ x ∈ Node.descendantsOf n.children, x.Placed source ∧ x.Bounded source := by
  -- the closing tag of a raw block names the block as any other closing tag does
  obtain ⟨hm, -, hraw, close', hend, hclose⟩ := hwhole
  obtain rfl : close = close' := by simpa [tagLexeme] using hclose
  have hword := isWord_of_mem_rawTags _ hraw
  have hbodied := fun children htiles hchildren =>
    @placed_bodied source pre m chars close post offset children hsource hoffset hm
      (closedBy_of_isRawEnd hword hend) (nameOf_of_isRawEnd hword hend) htiles hchildren _ rfl
  subst hn
  cases chars with
  | nil => exact ⟨hbodied [] rfl fun _ => Or.inl rfl, by simp [Node.descendantsOf]⟩
  | cons c chars =>
    refine ⟨hbodied _ ⟨rfl, Nat.lt_add_of_pos_right (Text.size_pos (by simp)), rfl⟩
      fun _ => Or.inr ⟨_, rfl, rfl⟩, ?_⟩
    simp only [List.isEmpty_cons, Bool.false_eq_true, if_false, Node.descendantsOf,
      Node.descendants, List.append_nil, List.forall_mem_singleton]
    have hinside : source = (pre ++ tagLexeme m) ++ ((c :: chars) ++ (tagLexeme close ++ post)) := by
      rw [hsource]; simp
    exact placed_text hinside (by simp [hoffset]; omega) rfl

/-- **Every node of a derivation is placed**, wherever in the source the derivation stands. -/
theorem placed_layout {parent : Option String} {b : Body} (hfits : b.Fits parent)
    (hwhole : ∀ token ∈ b.tokens, token.Whole) {source : Text} (pre post : Text) {offset : Nat}
    (hsource : source = pre ++ (b.spell ++ post)) (hoffset : offset = pre.size) :
    ∀ n ∈ Node.descendantsOf (b.layout offset), n.Placed source ∧ n.Bounded source := by
  -- what is laid out first becomes a part of what stands before the rest, and the body of a block has
  -- the end tag and the rest behind it
  induction b generalizing parent pre post offset with
  | nil => simp [Body.layout, Node.descendantsOf]
  | text chars rest ih =>
    obtain ⟨-, hrest⟩ := List.forall_mem_cons.1 hwhole
    have hsource' : source = pre ++ (chars ++ (rest.spell ++ post)) := by
      rw [hsource]; simp
    simp only [Body.layout, Node.descendantsOf, Node.descendants, List.singleton_append,
      List.forall_mem_cons]
    exact ⟨placed_text hsource' hoffset rfl,
      ih hfits hrest (pre ++ chars) post (by rw [hsource']; simp) (by simp [hoffset])⟩
  | output m rest ih =>
    obtain ⟨hm, hrest⟩ := List.forall_mem_cons.1 hwhole
    have hsource' : source = pre ++ ('{' :: '{' :: (m ++ '}' :: '}' :: (rest.spell ++ post))) := by
      rw [hsource]; simp
    simp only [Body.layout, Node.descendantsOf, Node.descendants, List.singleton_append,
      List.forall_mem_cons]
    refine ⟨placed_output hsource' hoffset hm rfl, ?_⟩
    exact ih hfits hrest (pre ++ (Token.variable m).lexeme) post
      (by rw [hsource']; simp [Token.lexeme]) (by simp [hoffset, size_brace, Token.lexeme]; omega)
  | tag m rest ih =>
    obtain ⟨⟨hm, -⟩, hrest⟩ := List.forall_mem_cons.1 hwhole
    have hsource' : source = pre ++ (tagLexeme m ++ (rest.spell ++ post)) := by
      rw [hsource]; simp
    simp only [Body.layout, Node.descendantsOf, Node.descendants, List.singleton_append,
      List.forall_mem_cons]
    exact ⟨placed_tag hsource' hoffset hm rfl, ih hfits.2 hrest (pre ++ tagLexeme m) post
      (by rw [hsource']; simp) (by simp [hoffset]; omega)⟩
  | raw m chars close rest ih =>
    obtain ⟨hraw, hrest⟩ := List.forall_mem_cons.1 hwhole
    have hsource' : source
        = pre ++ (tagLexeme m ++ (chars ++ (tagLexeme close ++ (rest.spell ++ post)))) := by
      rw [hsource]; simp
    simp only [Body.layout, Node.descendantsOf, Node.descendants, List.cons_append,
      List.forall_mem_cons, List.forall_mem_append]
    obtain ⟨hplaced, hinside⟩ := placed_raw hsource' hoffset hraw rfl
    refine ⟨hplaced, hinside, ih hfits.2 hrest
      (pre ++ (tagLexeme m ++ (chars ++ tagLexeme close))) post ?_ ?_⟩
    · rw [hsource']; simp
    · simp [hoffset]; omega
  | block m inner close rest ihi ih =>
    obtain ⟨-, hname, hfinner, hfrest⟩ := hfits
    have hm : (Token.tag m).Whole := hwhole _ (by simp [Body.tokens])
    have hc : (Token.tag close).Whole := hwhole _ (by simp [Body.tokens])
    have hinner : ∀ token ∈ inner.tokens, token.Whole :=
      fun token ht => hwhole token (by simp [Body.tokens, ht])
    have hrest : ∀ token ∈ rest.tokens, token.Whole :=
      fun token ht => hwhole token (by simp [Body.tokens, ht])
    have hsource' : source = pre ++
        (tagLexeme m ++ (inner.spell ++ (tagLexeme close ++ (rest.spell ++ post)))) := by
      rw [hsource]; simp
    simp only [Body.layout, Node.descendantsOf, Node.descendants, List.cons_append,
      List.forall_mem_cons, List.forall_mem_append]
    refine ⟨?_, ?_, ?_⟩
    · exact placed_bodied hsource' hoffset hm.1 hc.1 hname (tiles_layout inner hinner _)
        (fun hraw => absurd hraw hm.2) rfl
    · exact ihi hfinner hinner (pre ++ tagLexeme m) (tagLexeme close ++ (rest.spell ++ post))
        (by rw [hsource']; simp) (by simp [hoffset]; omega)
    · refine ih hfrest hrest (pre ++ (tagLexeme m ++ (inner.spell ++ tagLexeme close))) post ?_ ?_
      · rw [hsource']; simp
      · simp [hoffset]; omega

/-! ### Trees tile -/

/-- The tree of a template is a document. -/
theorem kind_of_parse {source : Text} {root : Node} (h : parse source = .ok root) :
    root.kind = .document := by
  obtain ⟨b, -, -, rfl⟩ := exists_body_of_parse h
  rfl

/-- The nodes inside a document are placed. -/
theorem placed_of_parse {source : Text} {root n : Node} (h : parse source = .ok root)
    (hn : n ∈ Node.descendantsOf root.children) : n.Placed source := by
  obtain ⟨b, hfits, hcuts, rfl⟩ := exists_body_of_parse h
  have hsource : source = [] ++ (b.spell ++ []) := by simp [Body.spell_of_cuts hcuts]
  exact (placed_layout hfits hcuts.whole [] [] hsource rfl n hn).1

/-- **Parse trees tile their source**: the children of the document cover the template from its start
to its end, and every node below the document is placed between characters of the template as its
kind asks for. -/
theorem parse_tiles {source : Text} {root : Node} (h : parse source = .ok root) :
    root.kind = .document ∧ root.span = ⟨0, source.size⟩ ∧
      Tiles root.children 0 source.size ∧
      ∀ n ∈ Node.descendantsOf root.children, n.Placed source ∧ n.Bounded source := by
  obtain ⟨b, hfits, hcuts, rfl⟩ := exists_body_of_parse h
  have hspell : b.spell = source := Body.spell_of_cuts hcuts
  refine ⟨rfl, by rw [← hspell]; rfl, ?_, ?_⟩
  · have := tiles_layout b hcuts.whole 0
    rwa [Nat.zero_add, hspell] at this
  · exact placed_layout hfits hcuts.whole [] [] (by simp [hspell]) rfl

/-- Braces in text and markup, a raw body full of them and a branch tag. -/
theorem parse_tiles_braces :
    let source : Text := ("é\x7b\x7b a\x7d\x7d\x7d\x7b% if x %\x7d\x7b%raw%\x7d\x7b\x7b" ++
      "\x7b%endraw -%\x7d\x7b%- else -%\x7d\x7b\x7b\x7bb\x7d\x7d\x7d\x7b% endif%\x7d").toList
    ∃ root, parse source = .ok root ∧ Tiles root.children 0 source.size ∧
      ∀ n ∈ Node.descendantsOf root.children, n.Placed source ∧ n.Bounded source := by
  intro source
  obtain ⟨root, h⟩ := exists_parse source (by decide +kernel)
  exact ⟨root, h, (parse_tiles h).2.2⟩

end LiquidLint.Liquid
