import LiquidLint.Proofs.Edit.Site

/-!
# What the checks see at a node

The checks look at the nodes of a tree, edits belong to the sites of a derivation. For the layout of a
derivation the two say the same: the white space found wrong at some node is that of some site
(`mem_faults_iff`), the names found outdated are those of the `include` tags (`mem_outdated_iff`), and
the nodes of `assign` tags are sites that can be taken away (`exists_drop`).
-/

namespace LiquidLint.Edit

open Liquid (Body Node nameOf)
open Liquid.Token (tagLexeme)
open Spacing (Amends AmendsEnd checkDelimiters checkSeparators endMarkup? faults rename)

/-! ### Nodes and hooks -/

mutual

/-- Hooks are called for the nodes of a tree. -/
theorem mem_hooks_iff (hook : NodeHook) (x : Node) : ∀ n : Node,
    (hook, x) ∈ n.hooks ↔ x ∈ n.descendants ∧ (hook ∈ x.opening ∨ hook ∈ x.closing)
  | ⟨kind, span, markup, children⟩ => by
    simp only [Node.hooks, Node.descendants, List.mem_append, List.mem_map, Prod.mk.injEq,
      List.mem_cons, mem_hooksOf_iff hook x children]
    constructor
    · rintro ((⟨h, hmem, rfl, rfl⟩ | h) | ⟨h, hmem, rfl, rfl⟩)
      · exact ⟨Or.inl rfl, Or.inl hmem⟩
      · exact ⟨Or.inr h.1, h.2⟩
      · exact ⟨Or.inl rfl, Or.inr hmem⟩
    · rintro ⟨rfl | h, hmem⟩
      · rcases hmem with hmem | hmem
        · exact Or.inl (Or.inl ⟨hook, hmem, rfl, rfl⟩)
        · exact Or.inr ⟨hook, hmem, rfl, rfl⟩
      · exact Or.inl (Or.inr ⟨h, hmem⟩)

theorem mem_hooksOf_iff (hook : NodeHook) (x : Node) : ∀ ns : List Node,
    (hook, x) ∈ Node.hooksOf ns ↔
      x ∈ Node.descendantsOf ns ∧ (hook ∈ x.opening ∨ hook ∈ x.closing)
  | [] => by simp [Node.hooksOf, Node.descendantsOf]
  | n :: ns => by
    simp only [Node.hooksOf, Node.descendantsOf, List.mem_append, mem_hooks_iff hook x n,
      mem_hooksOf_iff hook x ns, or_and_right]

end

/-- Something holds of a node of a list of trees: of the first root, inside it, or further on. -/
theorem exists_descendantsOf_cons {P : Node → Prop} (n : Node) (ns : List Node) :
    (∃ x ∈ Node.descendantsOf (n :: ns), P x) ↔
      P n ∨ (∃ x ∈ Node.descendantsOf n.children, P x) ∨ ∃ x ∈ Node.descendantsOf ns, P x := by
  obtain ⟨kind, span, markup, children⟩ := n
  simp only [Node.descendantsOf, Node.descendants, List.cons_append, List.mem_cons, List.mem_append]
  constructor
  · rintro ⟨x, rfl | hx | hx, h⟩
    · exact Or.inl h
    · exact Or.inr (Or.inl ⟨x, hx, h⟩)
    · exact Or.inr (Or.inr ⟨x, hx, h⟩)
  · rintro (h | ⟨x, hx, h⟩ | ⟨x, hx, h⟩)
    · exact ⟨_, Or.inl rfl, h⟩
    · exact ⟨x, Or.inr (Or.inl hx), h⟩
    · exact ⟨x, Or.inr (Or.inr hx), h⟩

theorem not_exists_descendantsOf_nil {P : Node → Prop} :
    ¬ ∃ x ∈ Node.descendantsOf [], P x := by
  rintro ⟨x, hx, -⟩
  cases hx

/-! ### White space -/

variable {source m : Text} {offset : Nat} {c : Correction}

theorem mem_faults_output {span : Span} {children : List Node}
    (hm : Text.Stands source (offset + 2) m) :
    c ∈ (faults ⟨.variable, span, ⟨offset + 2, offset + 2 + m.size⟩, children⟩ source).map
      (·.correction) ↔ Amends true (offset + 2) m c := by
  rw [Amends, ← Spacing.mem_checks_iff false]
  simp [faults, Node.typeName, Node.isTag, Node.tagName?, Node.isBlock, hm.slice]

theorem mem_faults_tag {name : String} {span : Span} {children : List Node}
    (hm : Text.Stands source (offset + 2) m) :
    c ∈ (faults ⟨.tag name false, span, ⟨offset + 2, offset + 2 + m.size⟩, children⟩ source).map
      (·.correction) ↔ name ≠ "liquid" ∧ Amends true (offset + 2) m c := by
  rw [Amends, ← Spacing.mem_checks_iff true]
  by_cases hname : name = "liquid"
  · simp [faults, Node.typeName, Node.isTag, Node.tagName?, hname]
  · simp [faults, Node.typeName, Node.isTag, Node.tagName?, Node.isBlock, hname, hm.slice]

theorem mem_faults_block {name : String} {body close : Text} {stop : Nat} {children : List Node}
    (hname : name ≠ "liquid")
    (hsource : Text.Stands source offset ((tagLexeme m ++ body) ++ tagLexeme close))
    (hstop : stop = offset + Text.size ((tagLexeme m ++ body) ++ tagLexeme close)) :
    c ∈ (faults ⟨.tag name true, ⟨offset, stop⟩, ⟨offset + 2, offset + 2 + m.size⟩, children⟩
      source).map (·.correction) ↔
      Amends true (offset + 2) m c ∨ AmendsEnd (offset + (m.size + 4) + body.size + 2) close c := by
  obtain ⟨a, q, hpiece⟩ := Spacing.exists_lastPiece close
  have hm : Text.Stands source (offset + 2) m :=
    (Text.Stands.right (s := ['{', '%']) hsource.left.left).left
  have hsize : offset + Text.size (tagLexeme m ++ body) = offset + (m.size + 4) + body.size := by
    rw [Text.size_append, Body.size_tagLexeme]
    omega
  have hend := Spacing.endMarkup?_eq (n := ⟨.tag name true, ⟨offset, stop⟩,
    ⟨offset + 2, offset + 2 + m.size⟩, children⟩) hpiece hsource (by rw [hstop])
    (by rw [hsize]; simp only; omega)
  rw [hsize] at hend
  have hq : Text.Stands source (offset + (m.size + 4) + body.size + 2 + a.size) q := by
    have hclose := Text.Stands.right (s := ['{', '%']) hsource.right
    rw [hsize, hpiece.eq_append] at hclose
    exact hclose.left.right
  -- only the last piece of the end tag is looked at
  have hamends : AmendsEnd (offset + (m.size + 4) + body.size + 2) close c ↔
      Spacing.startsEnd q = true ∧
        Amends false (offset + (m.size + 4) + body.size + 2 + a.size) q c := by
    constructor
    · rintro ⟨_, _, hpiece', h⟩
      obtain ⟨rfl, rfl⟩ := hpiece.unique hpiece'
      exact h
    · rintro ⟨h1, h2⟩
      exact ⟨a, q, hpiece, h1, h2⟩
  have hown : c ∈ (checkDelimiters (offset + 2) m true ++ checkSeparators (offset + 2) m).map
      (·.correction) ↔ Amends true (offset + 2) m c := Spacing.mem_checks_iff true
  rw [hamends, ← hown]
  by_cases hstarts : Spacing.startsEnd q = true
  · rw [if_pos hstarts] at hend
    have hlast : c ∈ (checkDelimiters (offset + (m.size + 4) + body.size + 2 + a.size) q true).map
        (·.correction) ↔ Amends false (offset + (m.size + 4) + body.size + 2 + a.size) q c :=
      Spacing.mem_checkDelimiters_iff
    simp only [faults, Node.typeName, Node.isTag, Node.tagName?, Node.isBlock, hend, hm.slice,
      hq.slice, hstarts, ← hlast, bne_iff_ne, ne_eq, hname, not_false_eq_true, Option.isSome_some,
      Bool.true_and, Bool.or_eq_true, or_true, if_true, List.map_append, List.mem_append, true_and]
  · rw [if_neg hstarts] at hend
    simp only [faults, Node.typeName, Node.isTag, Node.tagName?, Node.isBlock, hend, hm.slice,
      hstarts, bne_iff_ne, ne_eq, hname, not_false_eq_true, Option.isSome_some, Bool.true_and,
      Bool.or_eq_true, or_true, if_true, List.append_nil, Bool.false_eq_true, false_and, or_false]

theorem faults_text {span markup : Span} {children : List Node} :
    faults ⟨.text, span, markup, children⟩ source = [] := by
  simp [faults, Node.typeName, Node.isTag, Node.tagName?]

/-! ### Parts of a body -/

theorem stop_eq (offset : Nat) (m : Text) : offset + 2 + m.size + 2 = offset + (m.size + 4) := by
  omega

theorem Stands.output {r : Body} (h : Text.Stands source offset (Body.output m r).spell) :
    Text.Stands source (offset + 2) m ∧ Text.Stands source (offset + (m.size + 4)) r.spell := by
  have h1 : Text.Stands source (offset + 2) (m ++ (['}', '}'] ++ r.spell)) :=
    Text.Stands.right (s := ['{', '{']) (by simpa using h)
  refine ⟨h1.left, ?_⟩
  have h2 : Text.Stands source (offset + 2 + m.size + 2) r.spell :=
    Text.Stands.right (s := ['}', '}']) h1.right
  rwa [stop_eq] at h2

theorem Stands.tag {rest : Text} (h : Text.Stands source offset (tagLexeme m ++ rest)) :
    Text.Stands source (offset + 2) m ∧ Text.Stands source (offset + (m.size + 4)) rest := by
  refine ⟨(Text.Stands.right (s := ['{', '%']) h.left).left, ?_⟩
  rw [← Body.size_tagLexeme]
  exact h.right

theorem Stands.closed {body close rest : Text}
    (h : Text.Stands source offset (tagLexeme m ++ (body ++ (tagLexeme close ++ rest)))) :
    Text.Stands source offset ((tagLexeme m ++ body) ++ tagLexeme close) ∧
      Text.Stands source (offset + (m.size + 4)) body ∧
      Text.Stands source (offset + (m.size + 4) + body.size + (close.size + 4)) rest := by
  refine ⟨Text.Stands.left (t := rest) (by simpa using h), (Stands.tag h).2.left, ?_⟩
  rw [← Body.size_tagLexeme, ← Body.size_tagLexeme]
  exact h.right.right.right

/-- **White space found wrong** at the nodes of a body is that of its sites. -/
theorem mem_faults_iff {b : Body} {parent : Option String} (off : Off) (hfits : b.Fits parent)
    (hsource : Text.Stands source offset b.spell) :
    (∃ n ∈ Node.descendantsOf (b.layout offset), c ∈ (faults n source).map (·.correction)) ↔
      ∃ s ∈ sites off offset b, s.Spaces c := by
  -- node by node and site by site, in the order of the body
  induction b generalizing parent off offset with
  | nil => simp [Body.layout, sites, Node.descendantsOf]
  | text chars r ih =>
    rw [Body.layout, exists_descendantsOf_cons, faults_text, sites]
    simp only [List.map_nil, List.not_mem_nil, false_or]
    rw [iff_false_intro not_exists_descendantsOf_nil, false_or]
    exact ih off hfits hsource.right
  | output m r ih =>
    obtain ⟨hm, hr⟩ := Stands.output hsource
    rw [Body.layout, exists_descendantsOf_cons, mem_faults_output hm,
      iff_false_intro not_exists_descendantsOf_nil, false_or]
    simp only [stop_eq]
    rw [ih off hfits hr, sites, List.exists_mem_cons_iff]
    rfl
  | tag m r ih =>
    obtain ⟨hm, hr⟩ := Stands.tag hsource
    rw [Body.layout, exists_descendantsOf_cons, mem_faults_tag hm,
      iff_false_intro not_exists_descendantsOf_nil, false_or]
    simp only [stop_eq]
    rw [ih off hfits.2 hr, sites, List.exists_mem_cons_iff]
    rfl
  | raw m chars close r ih =>
    have hname : nameOf m ≠ "liquid" := by
      intro h
      exact absurd (h ▸ hfits.1) (by decide)
    rw [Body.spell_raw] at hsource
    obtain ⟨hnode, -, hr⟩ := Stands.closed hsource
    -- the characters of a raw block have no delimiters, and so no faults
    have htext : ¬ ∃ n ∈ Node.descendantsOf (if chars.isEmpty then [] else
        [⟨.text, ⟨offset + 2 + m.size + 2, offset + 2 + m.size + 2 + chars.size⟩,
          ⟨offset + 2 + m.size + 2, offset + 2 + m.size + 2 + chars.size⟩, []⟩]),
        c ∈ (faults n source).map (·.correction) := by
      split
      · exact not_exists_descendantsOf_nil
      · rw [exists_descendantsOf_cons, faults_text]
        simp [Node.descendantsOf]
    rw [Body.layout, exists_descendantsOf_cons, mem_faults_block hname hnode
      (by simp only [Text.size_append, Body.size_tagLexeme]; omega),
      iff_false_intro htext, false_or]
    simp only [stop_eq]
    rw [ih (afterRaw off m chars) hfits.2 hr, sites, List.exists_mem_cons_iff,
      List.exists_mem_cons_iff, or_assoc]
    simp only [Site.Spaces, ne_eq, hname, not_false_eq_true, true_and]
  | block m inner close r ihi ih =>
    obtain ⟨hblock, -, hinner, hrest⟩ := hfits
    have hname : nameOf m ≠ "liquid" := by
      intro h
      exact absurd (h ▸ hblock) (by decide)
    rw [Body.spell_block] at hsource
    obtain ⟨hnode, hi, hr⟩ := Stands.closed hsource
    rw [Body.layout, exists_descendantsOf_cons, mem_faults_block hname hnode
      (by simp only [Text.size_append, Body.size_tagLexeme]; omega)]
    simp only [stop_eq]
    rw [ihi off hinner hi, ih (after off inner) hrest hr, sites, List.exists_mem_cons_iff]
    simp only [List.mem_append, or_and_right, exists_or, List.exists_mem_cons_iff]
    simp only [Site.Spaces, ne_eq, hname, not_false_eq_true, true_and]
    -- the end tag is a site behind those inside, and a node lists its own faults first
    constructor
    · rintro ((h | h) | h | h)
      · exact Or.inl h
      · exact Or.inr (Or.inr (Or.inl h))
      · exact Or.inr (Or.inl h)
      · exact Or.inr (Or.inr (Or.inr h))
    · rintro (h | h | h | h)
      · exact Or.inl (Or.inl h)
      · exact Or.inr (Or.inl h)
      · exact Or.inl (Or.inr h)
      · exact Or.inr (Or.inr h)

/-! ### Tags by name -/

/-- The node of a tag without a body. -/
def tagNode (offset : Nat) (m : Text) : Node :=
  ⟨.tag (nameOf m) false, ⟨offset, offset + (m.size + 4)⟩, ⟨offset + 2, offset + 2 + m.size⟩, []⟩

theorem exists_named_cons_of_ne {w : String} {P : Node → Prop} {n : Node} {ns : List Node}
    (h : n.typeName ≠ w) :
    (∃ x ∈ Node.descendantsOf (n :: ns), x.typeName = w ∧ P x) ↔
      (∃ x ∈ Node.descendantsOf n.children, x.typeName = w ∧ P x) ∨
        ∃ x ∈ Node.descendantsOf ns, x.typeName = w ∧ P x := by
  rw [exists_descendantsOf_cons]
  exact or_iff_right fun h' => h h'.1

theorem exists_named_leaf_of_ne {w : String} {P : Node → Prop} {n : Node} {ns : List Node}
    (h : n.typeName ≠ w) (hleaf : n.children = []) :
    (∃ x ∈ Node.descendantsOf (n :: ns), x.typeName = w ∧ P x) ↔
      ∃ x ∈ Node.descendantsOf ns, x.typeName = w ∧ P x := by
  rw [exists_named_cons_of_ne h, hleaf]
  exact or_iff_right not_exists_descendantsOf_nil

/-- **Nodes with the name of an inline tag** are the tags of that name. -/
theorem exists_named_iff {w : String} (hraw : w ∉ Liquid.rawTags) (hblock : w ∉ Liquid.blockTags)
    (hkind : "text" ≠ w ∧ "variable" ≠ w) {P : Node → Prop} {b : Body} {parent : Option String}
    (off : Off) (offset : Nat) (hfits : b.Fits parent) :
    (∃ n ∈ Node.descendantsOf (b.layout offset), n.typeName = w ∧ P n) ↔
      ∃ s ∈ sites off offset b, ∃ m, s.piece = .tag m ∧ nameOf m = w ∧ P (tagNode s.start m) := by
  -- along the body; a node named `w` can only be an inline tag
  induction b generalizing parent off offset with
  | nil => simp [Body.layout, sites, Node.descendantsOf]
  | text chars r ih =>
    refine (exists_named_leaf_of_ne (by exact hkind.1) (by rfl)).trans ?_
    exact ih off _ hfits
  | output m r ih =>
    refine (exists_named_leaf_of_ne (by exact hkind.2) (by rfl)).trans ?_
    simp only [stop_eq]
    rw [ih off _ hfits, sites, List.exists_mem_cons_iff]
    simp
  | tag m r ih =>
    rw [Body.layout, exists_descendantsOf_cons, iff_false_intro not_exists_descendantsOf_nil,
      false_or]
    simp only [stop_eq]
    rw [ih off _ hfits.2, sites, List.exists_mem_cons_iff]
    refine or_congr_left ⟨fun h => ⟨m, rfl, h⟩, ?_⟩
    rintro ⟨_, hm, h⟩
    obtain rfl := Piece.tag.inj hm
    exact h
  | raw m chars close r ih =>
    have hname : nameOf m ≠ w := fun h => hraw (h ▸ hfits.1)
    have htext : ¬ ∃ n ∈ Node.descendantsOf (if chars.isEmpty then [] else
        [⟨.text, ⟨offset + 2 + m.size + 2, offset + 2 + m.size + 2 + chars.size⟩,
          ⟨offset + 2 + m.size + 2, offset + 2 + m.size + 2 + chars.size⟩, []⟩]),
        n.typeName = w ∧ P n := by
      split
      · exact not_exists_descendantsOf_nil
      · exact fun h => not_exists_descendantsOf_nil
          ((exists_named_leaf_of_ne (by exact hkind.1) (by rfl)).1 h)
    refine (exists_named_cons_of_ne (by exact hname)).trans ((or_iff_right htext).trans ?_)
    simp only [stop_eq]
    rw [ih (afterRaw off m chars) _ hfits.2, sites, List.exists_mem_cons_iff,
      List.exists_mem_cons_iff]
    simp [hname]
  | block m inner close r ihi ih =>
    obtain ⟨hb, -, hinner, hrest⟩ := hfits
    have hname : nameOf m ≠ w := fun h => hblock (h ▸ hb)
    refine (exists_named_cons_of_ne (by exact hname)).trans ?_
    simp only [stop_eq]
    rw [ihi off _ hinner, ih (after off inner) _ hrest, sites, List.exists_mem_cons_iff]
    simp only [List.mem_append, or_and_right, exists_or, List.exists_mem_cons_iff]
    simp [hname]

/-- A tag of a body stands in the source where its site says. -/
theorem stands_of_mem_sites {b : Body} {off : Off} {s : Site} (hs : s ∈ sites off offset b)
    (hm : s.piece = .tag m) (hsource : Text.Stands source offset b.spell) :
    Text.Stands source s.start (tagLexeme m) := by
  induction b generalizing off offset with
  | nil => cases hs
  | text chars r ih => exact ih hs hsource.right
  | output m' r ih =>
    rcases List.mem_cons.1 hs with rfl | hs
    · cases hm
    · exact ih hs (Stands.output hsource).2
  | tag m' r ih =>
    rcases List.mem_cons.1 hs with rfl | hs
    · obtain rfl := Piece.tag.inj hm
      exact hsource.left
    · exact ih hs (Stands.tag hsource).2
  | raw m' chars close r ih =>
    rw [Body.spell_raw] at hsource
    rcases List.mem_cons.1 hs with rfl | hs
    · obtain rfl := Piece.tag.inj hm
      exact hsource.left
    · rcases List.mem_cons.1 hs with rfl | hs
      · cases hm
      · exact ih hs (Stands.closed hsource).2.2
  | block m' inner close r ihi ih =>
    rw [Body.spell_block] at hsource
    rcases List.mem_cons.1 hs with rfl | hs
    · obtain rfl := Piece.tag.inj hm
      exact hsource.left
    · rcases List.mem_append.1 hs with hs | hs
      · exact ihi hs (Stands.closed hsource).2.1
      · rcases List.mem_cons.1 hs with rfl | hs
        · cases hm
        · exact ih hs (Stands.closed hsource).2.2

theorem includeKeyword?_eq (hname : nameOf m = "include")
    (hsource : Text.Stands source offset (tagLexeme m)) :
    (References.includeKeyword? (tagNode offset m) source).map (Correction.replace · "render") =
      some (rename (offset + 2) m) := by
  have hslice : source.slice (tagNode offset m).markupSpan = m :=
    (Text.Stands.right (s := ['{', '%']) hsource).left.slice
  obtain ⟨lead, tail, hl, -, hm⟩ := (Liquid.nameOf_eq_word_iff Spacing.isWord_include).1 hname
  have hdrop : m.dropWhile (fun c => c == '-' || isBlank c) = "include".toList ++ tail := by
    rw [hm]
    exact Spacing.dropWhile_lead hl Spacing.isWord_include tail
  simp only [References.includeKeyword?, hslice, hdrop, Text.dropStart?_append, Option.isSome_some,
    if_true, Option.map_some, rename]
  rfl

/-- **Outdated names** are those of the `include` tags of a body. -/
theorem mem_outdated_iff {b : Body} {parent : Option String} (off : Off) (hfits : b.Fits parent)
    (hsource : Text.Stands source offset b.spell) {x : Nat} :
    (∃ n ∈ Node.descendantsOf (b.layout offset), n.typeName = "include" ∧
      ((References.includeKeyword? n source).map (Correction.replace · "render") = some c ∧
        n.span.start = x)) ↔
      ∃ s ∈ sites off offset b, s.Renames c ∧ s.start = x := by
  rw [exists_named_iff (by decide) (by decide) (by decide) off offset hfits]
  constructor
  · -- the keyword found in the tag is the one that its site renames
    rintro ⟨s, hs, m, hm, hname, hkey, hx⟩
    rw [includeKeyword?_eq hname (stands_of_mem_sites hs hm hsource)] at hkey
    refine ⟨s, hs, ?_, hx⟩
    rw [Site.Renames, hm]
    exact ⟨hname, (Option.some.inj hkey).symm⟩
  · rintro ⟨s, hs, hren, hx⟩
    obtain ⟨off', start, piece⟩ := s
    cases piece with
    | output m => cases hren
    | ending m => cases hren
    | tag m =>
      refine ⟨_, hs, m, rfl, hren.1, ?_, hx⟩
      rw [includeKeyword?_eq hren.1 (stands_of_mem_sites hs rfl hsource), hren.2]

/-- The node of an `assign` tag is a site that can be taken away. -/
theorem exists_drop {b : Body} {parent : Option String} (off : Off) (hfits : b.Fits parent) {n : Node}
    (hn : n ∈ Node.descendantsOf (b.layout offset)) (hname : n.typeName = "assign") :
    ∃ s ∈ sites off offset b, s.Drop (.delete n.span) := by
  obtain ⟨s, hs, m, hm, hassign, hspan⟩ :=
    (exists_named_iff (P := fun x => x.span = n.span) (by decide) (by decide) (by decide) off
      offset hfits).1 ⟨n, hn, hname, rfl⟩
  refine ⟨s, hs, ?_⟩
  rw [Site.Drop, hm]
  refine ⟨hassign, ?_⟩
  rw [← hspan, tagNode, Site.stop, hm, Piece.size]

end LiquidLint.Edit
