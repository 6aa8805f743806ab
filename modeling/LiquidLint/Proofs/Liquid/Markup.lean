import LiquidLint.Proofs.Liquid.Argument

/-!
# Names and markup of nodes

The name of a tag is read twice. The parser reads it from the trimmed markup and keeps it in the
node, and whoever asks a node for its markup has the name taken away again. `Node.Spells` says that
the two readings agree: the trimmed markup is the name followed by a rest, and the markup of the node
is that rest.

A node inside a document is `Listed`: its name, if it is a tag, is on one of the lists of names, and
it has a body when the tags of that list have one. So the name of a node tells its kind
(`NodeKind.ofName`). Main statement: `parse_names`.
-/

namespace LiquidLint.Liquid

variable {source : Text} {n : Node} {name : String} {block : Bool}

/-! ### Names of tags -/

/-- A tag that a node can stand for: a block, raw, inline or branch tag. -/
def IsTagName (name : String) : Prop :=
  name ∈ blockTags ∨ name ∈ rawTags ∨ name ∈ inlineTags ∨ (branchParents? name).isSome = true

/-- The kind of nodes with the given name. -/
def NodeKind.ofName (name : String) : NodeKind :=
  if name = "document" then .document
  else if name = "text" then .text
  else if name = "variable" then .variable
  else .tag name (blockTags.contains name || rawTags.contains name)

/-- A node inside a document: a tag has a listed name, and it has a body as the list says. -/
def Node.Listed (n : Node) : Prop :=
  match n.kind with
  | .document => False
  | .text | .variable => True
  | .tag name true => name ∈ blockTags ++ rawTags
  | .tag name false => name ∈ inlineTags ++ branchTags

theorem Node.Listed.mem (h : n.Listed) (hk : n.kind = .tag name block) :
    name ∈ (blockTags ++ rawTags) ++ (inlineTags ++ branchTags) := by
  unfold Node.Listed at h
  rw [hk] at h
  cases block with
  | true => exact List.mem_append_left _ h
  | false => exact List.mem_append_right _ h

theorem Node.Listed.isTagName (h : n.Listed) (hk : n.kind = .tag name block) : IsTagName name := by
  have hmem := h.mem hk
  simp only [List.mem_append] at hmem
  rcases hmem with (hblock | hraw) | hinline | hbranch
  · exact .inl hblock
  · exact .inr (.inl hraw)
  · exact .inr (.inr (.inl hinline))
  · exact .inr (.inr (.inr (isSome_branchParents name hbranch)))

/-- No tag is named like another kind of node. -/
theorem Node.Listed.ne (h : n.Listed) (hk : n.kind = .tag name block) :
    name ≠ "document" ∧ name ≠ "text" ∧ name ≠ "variable" := by
  have hnames : ∀ name ∈ (blockTags ++ rawTags) ++ (inlineTags ++ branchTags),
      name ≠ "document" ∧ name ≠ "text" ∧ name ≠ "variable" := by decide
  exact hnames name (h.mem hk)

/-- **The name tells the kind.** -/
theorem Node.Listed.kind_eq (h : n.Listed) : n.kind = .ofName n.typeName := by
  obtain ⟨kind, span, markup, children⟩ := n
  cases kind with
  | tag name block =>
    obtain ⟨hdocument, htext, hvariable⟩ := h.ne rfl
    have hbody : (blockTags.contains name || rawTags.contains name) = block := by
      cases block with
      | true =>
        have hbodied : ∀ name ∈ blockTags ++ rawTags,
            (blockTags.contains name || rawTags.contains name) = true := by decide
        exact hbodied name h
      | false =>
        have hbare : ∀ name ∈ inlineTags ++ branchTags,
            (blockTags.contains name || rawTags.contains name) = false := by decide
        exact hbare name h
    rw [Node.typeName, NodeKind.ofName, if_neg hdocument, if_neg htext, if_neg hvariable, hbody]
  | _ => rfl

/-- **Inside a document** all nodes are listed. -/
theorem listed_of_mem_layout {b : Body} {parent : Option String} (hfits : b.Fits parent)
    (offset : Nat) : ∀ n ∈ Node.descendantsOf (b.layout offset), n.Listed := by
  -- by induction on the body: each node's name is in the list its role demands
  induction b generalizing parent offset with
  | nil => exact List.forall_mem_nil _
  | text chars r ih =>
    simp only [Body.layout, Node.descendantsOf, Node.descendants, List.singleton_append,
      List.forall_mem_cons]
    exact ⟨trivial, ih hfits _⟩
  | output m r ih =>
    simp only [Body.layout, Node.descendantsOf, Node.descendants, List.singleton_append,
      List.forall_mem_cons]
    exact ⟨trivial, ih hfits _⟩
  | tag m r ih =>
    simp only [Body.layout, Node.descendantsOf, Node.descendants, List.singleton_append,
      List.forall_mem_cons]
    exact ⟨hfits.1.mem, ih hfits.2 _⟩
  | raw m chars close r ih =>
    simp only [Body.layout, Node.descendantsOf, Node.descendants, List.cons_append,
      List.forall_mem_cons, List.forall_mem_append]
    refine ⟨List.mem_append_right _ hfits.1, ?_, ih hfits.2 _⟩
    split
    · exact List.forall_mem_nil _
    · simp only [Node.descendantsOf, Node.descendants, List.append_nil, List.forall_mem_singleton]
      exact trivial
  | block m inner close r ihi ih =>
    obtain ⟨hblock, -, hinner, hrest⟩ := hfits
    simp only [Body.layout, Node.descendantsOf, Node.descendants, List.cons_append,
      List.forall_mem_cons, List.forall_mem_append]
    exact ⟨List.mem_append_left _ hblock, ihi hinner _, ih hrest _⟩

/-! ### Markup of tags -/

/-- The node of a tag spells its name: `raw` stands between the delimiters of the opening tag and is,
when trimmed, the name and `rest`. -/
structure Node.Spells (source : Text) (n : Node) (name : String) (raw rest : Text) : Prop where
  /-- The delimiters stand around the markup, which runs to the first closing one. -/
  delimited : Delimited source '%' '%' n.span.start n.markupSpan
  slice : source.slice? n.markupSpan = some raw
  trimmed : trimMarkup raw = name.toList ++ rest
  /-- Nothing but the number sign runs into what follows it. -/
  blank : name ≠ "#" → ∀ c ∈ rest.head?, isBlank c = true
  /-- The name can be taken away. -/
  dropStart : Text.dropStart? name.toList (trimMarkup raw) = some rest
  markup : n.markup source = rest.trimStart

/-- The delimiters of the opening tag stand at the start of the node. -/
theorem Node.Placed.delimited (h : n.Placed source) (hk : n.kind = .tag name block) :
    Delimited source '%' '%' n.span.start n.markupSpan := by
  unfold Node.Placed at h
  rw [hk] at h
  cases block with
  | false => exact h.2.1
  | true => exact h.1

/-- **Placed tags spell their names.** -/
theorem Node.Placed.exists_spells (h : n.Placed source) (hk : n.kind = .tag name block) :
    ∃ raw rest, n.Spells source name raw rest := by
  have htag : n.isTag = true := by simp only [Node.isTag, Node.tagName?, hk, Option.isSome_some]
  obtain ⟨raw, hstands, hspan, hname⟩ := h.exists_markup htag
  simp only [Node.typeName, hk] at hname
  have hread : tagName (trimMarkup raw) = name.toList := by
    rw [← hname, nameOf, String.toList_ofList]
  obtain ⟨rest, htrim, hblank⟩ := exists_append_tagName (trimMarkup raw)
  rw [hread] at htrim hblank
  have hdrop : Text.dropStart? name.toList (trimMarkup raw) = some rest :=
    Text.dropStart?_eq_some_iff.2 htrim
  refine ⟨raw, rest, h.delimited hk, by rw [hspan, hstands.slice?], htrim, fun hne => ?_, hdrop, ?_⟩
  · exact hblank fun he => hne (String.toList_inj.1 he)
  · simp only [Node.markup, hk, hspan, hstands.slice, tagArguments, hdrop]

/-! ### Trees -/

/-- **Names and markup agree**: in the tree of a template the name of every node tells its kind, and
every tag has one of the listed names, none of which names another kind of node, and spells it. -/
theorem parse_names {root : Node} (h : parse source = .ok root) :
    (∀ n ∈ root.descendants, n.kind = .ofName n.typeName) ∧
    ∀ n ∈ root.descendants, ∀ name block, n.kind = .tag name block →
      IsTagName name ∧ name ≠ "document" ∧ name ≠ "text" ∧ name ≠ "variable" ∧
        ∃ raw rest, n.Spells source name raw rest := by
  obtain ⟨b, hfits, -, rfl⟩ := exists_body_of_parse h
  have hdescendants : b.document.descendants = b.document :: Node.descendantsOf (b.layout 0) := rfl
  have hlisted := listed_of_mem_layout hfits 0
  rw [hdescendants]
  refine ⟨List.forall_mem_cons.2 ⟨rfl, fun n hn => (hlisted n hn).kind_eq⟩, ?_⟩
  refine List.forall_mem_cons.2 ⟨(by intro name block hk; cases hk), fun n hn name block hk => ?_⟩
  obtain ⟨hdocument, htext, hvariable⟩ := (hlisted n hn).ne hk
  exact ⟨(hlisted n hn).isTagName hk, hdocument, htext, hvariable,
    (placed_of_parse h hn).exists_spells hk⟩

/-- Dashes glued to names, a number sign without an end, and tags of all four lists. -/
theorem parse_names_dashes :
    let source : Text := ("\x7b%-if-%\x7d\x7b%-#b -%\x7d\x7b% else- %\x7d\x7b%\traw\n-%\x7d" ++
      "\x7b\x7b\x7b%endraw%\x7d\x7b% - echo -a- -%\x7d\x7b% endif%\x7d").toList
    ∃ root, parse source = .ok root ∧
      root.descendants.map (·.typeName) = ["document", "if", "#", "else", "raw", "text", "echo"] ∧
      (∀ n ∈ root.descendants, n.kind = .ofName n.typeName) ∧
      ∀ n ∈ root.descendants, ∀ name block, n.kind = .tag name block →
        IsTagName name ∧ name ≠ "document" ∧ name ≠ "text" ∧ name ≠ "variable" ∧
          ∃ raw rest, n.Spells source name raw rest := by
  intro source
  have hmap : (parse source).map (fun root => root.descendants.map (·.typeName)) =
      .ok ["document", "if", "#", "else", "raw", "text", "echo"] := by decide +kernel
  obtain ⟨root, h, hnames⟩ := exists_parse_of_map hmap
  exact ⟨root, h, hnames, parse_names h⟩

end LiquidLint.Liquid
