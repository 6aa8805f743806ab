import LiquidLint.Proofs.Edit.Nodes

/-!
# What is off at a site

A site carries what comments have turned off before it. `isDisabled_of_mem_sites` says that this is
what the disabled ranges of the template say inside the site. It is put together from

* `directives_layout`: the directives of the tree are those of the comments of the body;
* `leads_of_mem_sites`: following the directives further left than a place in a site gives what the
  site carries, since directives of earlier constructs are all further left and those of later ones
  are not.
-/

namespace LiquidLint.Edit

open Directive (stateAt)
open DisabledRanges (bodyText directives)
open Liquid (Body Node nameOf)
open Liquid.Token (tagLexeme)

/-! ### Directives of a body -/

/-- The directive of a raw block, if it is a comment that holds one. -/
def directiveOf (m chars : Text) : Option Directive :=
  if nameOf m = "comment" then Directive.parse chars else none

/-- The directives of a body that starts at `offset`, with the offsets of their comments. -/
def directivesOf (offset : Nat) : Body → List (Nat × Directive)
  | .nil => []
  | .text chars r => directivesOf (offset + chars.size) r
  | .output m r => directivesOf (offset + (m.size + 4)) r
  | .tag m r => directivesOf (offset + (m.size + 4)) r
  | .raw m chars close r =>
    (directiveOf m chars).toList.map (offset, ·) ++
      directivesOf (offset + (m.size + 4) + chars.size + (close.size + 4)) r
  | .block m inner close r =>
    directivesOf (offset + (m.size + 4)) inner ++
      directivesOf (offset + (m.size + 4) + inner.spell.size + (close.size + 4)) r

theorem afterRaw_eq (off : Off) (m chars : Text) :
    afterRaw off m chars = ((directiveOf m chars).map (·.follow off)).getD off := by
  unfold afterRaw directiveOf
  split
  · rfl
  · rfl

theorem eq_of_mem_own {offset : Nat} {d : Option Directive} {p : Nat × Directive}
    (hp : p ∈ d.toList.map (offset, ·)) : p.1 = offset := by
  obtain ⟨d, -, rfl⟩ := List.mem_map.1 hp
  rfl

/-- Directives stand inside the body. -/
theorem mem_directivesOf_bounds {b : Body} {offset : Nat} {p : Nat × Directive}
    (hp : p ∈ directivesOf offset b) : offset ≤ p.1 ∧ p.1 < offset + b.spell.size := by
  induction b generalizing offset with
  | nil => cases hp
  | text chars r ih =>
    have := ih hp
    simp only [Body.spell_text, Text.size_append]
    omega
  | output m r ih =>
    have := ih hp
    rw [size_output]
    omega
  | tag m r ih =>
    have := ih hp
    simp only [Body.spell_tag, Text.size_append, Body.size_tagLexeme]
    omega
  | raw m chars close r ih =>
    simp only [Body.spell_raw, Text.size_append, Body.size_tagLexeme]
    rcases List.mem_append.1 hp with hp | hp
    · have := eq_of_mem_own hp
      omega
    · have := ih hp
      omega
  | block m inner close r ihi ih =>
    simp only [Body.spell_block, Text.size_append, Body.size_tagLexeme]
    rcases List.mem_append.1 hp with hp | hp
    · have := ihi hp
      omega
    · have := ih hp
      omega

theorem pairwise_directivesOf (b : Body) (offset : Nat) :
    (directivesOf offset b).Pairwise fun p q => p.1 < q.1 := by
  -- what is inside a block comes before what follows it
  induction b generalizing offset with
  | nil => exact List.Pairwise.nil
  | text chars r ih => exact ih _
  | output m r ih => exact ih _
  | tag m r ih => exact ih _
  | raw m chars close r ih =>
    refine List.pairwise_append.2 ⟨?_, ih _, fun p hp q hq => ?_⟩
    · cases directiveOf m chars with
      | none => exact List.Pairwise.nil
      | some d => exact List.pairwise_singleton _ _
    · have h1 := eq_of_mem_own hp
      have h2 := (mem_directivesOf_bounds hq).1
      omega
  | block m inner close r ihi ih =>
    refine List.pairwise_append.2 ⟨ihi _, ih _, fun p hp q hq => ?_⟩
    have h1 := (mem_directivesOf_bounds hp).2
    have h2 := (mem_directivesOf_bounds hq).1
    omega

/-! ### Directives of a tree -/

/-- The directives among some nodes. -/
def gather (source : Text) (ns : List Node) : List (Nat × Directive) :=
  (ns.filter (·.typeName == "comment")).filterMap fun n =>
    (Directive.parse (bodyText n source)).map fun d => (n.span.start, d)

variable {source : Text}

theorem gather_append (ns ms : List Node) :
    gather source (ns ++ ms) = gather source ns ++ gather source ms := by
  unfold gather
  rw [List.filter_append, List.filterMap_append]

theorem gather_cons_of_ne {n : Node} (h : n.typeName ≠ "comment") (ns : List Node) :
    gather source (n :: ns) = gather source ns := by
  unfold gather
  rw [List.filter_cons_of_neg (by simpa using h)]

/-- A tree whose root is no comment holds the directives below the root. -/
theorem gather_descendantsOf_cons {n : Node} (h : n.typeName ≠ "comment") (ns : List Node) :
    gather source (Node.descendantsOf (n :: ns)) =
      gather source (Node.descendantsOf n.children) ++ gather source (Node.descendantsOf ns) := by
  obtain ⟨kind, span, markup, children⟩ := n
  rw [Node.descendantsOf, Node.descendants, List.cons_append, gather_cons_of_ne h, gather_append]

/-- The text inside a raw block, as its children: none when it is empty. -/
theorem gather_verbatim {chars : Text} {offset : Nat} (hchars : Text.Stands source offset chars) :
    let children : List Node := if chars.isEmpty then [] else
      [⟨.text, ⟨offset, offset + chars.size⟩, ⟨offset, offset + chars.size⟩, []⟩]
    gather source (Node.descendantsOf children) = [] ∧
      children.flatMap (·.source source) = chars := by
  intro children
  by_cases hempty : chars = []
  · subst hempty
    exact ⟨rfl, rfl⟩
  · have hchildren : children =
        [⟨.text, ⟨offset, offset + chars.size⟩, ⟨offset, offset + chars.size⟩, []⟩] :=
      if_neg (by simpa using hempty)
    rw [hchildren]
    refine ⟨gather_descendantsOf_cons (by exact (by decide : "text" ≠ "comment")) [], ?_⟩
    rw [List.flatMap_cons, List.flatMap_nil, List.append_nil]
    exact hchars.slice

/-- A raw block holds at most its own directive. -/
theorem gather_raw {m chars : Text} {offset stop : Nat} {markup : Span} {children : List Node}
    (ns : List Node) (hinside : gather source (Node.descendantsOf children) = [])
    (hbody : children.flatMap (·.source source) = chars) :
    gather source (Node.descendantsOf
      (⟨.tag (nameOf m) true, ⟨offset, stop⟩, markup, children⟩ :: ns)) =
      (directiveOf m chars).toList.map (offset, ·) ++ gather source (Node.descendantsOf ns) := by
  unfold directiveOf
  split
  · -- a comment holds its directive in the text between its tags
    rename_i hname
    have hown : gather source [⟨.tag (nameOf m) true, ⟨offset, stop⟩, markup, children⟩] =
        (Directive.parse chars).toList.map (offset, ·) := by
      unfold gather bodyText
      rw [List.filter_cons_of_pos (by simpa [Node.typeName] using hname), List.filter_nil,
        List.filterMap_cons, hbody]
      cases Directive.parse chars with
      | none => rfl
      | some d => rfl
    rw [Node.descendantsOf, Node.descendants, List.cons_append, ← List.singleton_append,
      gather_append, gather_append, hinside, hown, List.nil_append]
  · rename_i hname
    rw [gather_descendantsOf_cons (by exact hname), hinside]
    rfl

/-- **Directives of the tree** are those of the comments of the body. -/
theorem directives_layout {b : Body} {parent : Option String} {offset : Nat} (hfits : b.Fits parent)
    (hsource : Text.Stands source offset b.spell) :
    gather source (Node.descendantsOf (b.layout offset)) = directivesOf offset b := by
  induction b generalizing parent offset with
  | nil => rfl
  | text chars r ih =>
    rw [Body.layout, gather_descendantsOf_cons (by exact (by decide : "text" ≠ "comment"))]
    exact ih hfits hsource.right
  | output m r ih =>
    rw [Body.layout, gather_descendantsOf_cons (by exact (by decide : "variable" ≠ "comment"))]
    simp only [stop_eq]
    exact ih hfits (Stands.output hsource).2
  | tag m r ih =>
    -- an inline tag is no comment, since comments have an end tag
    have hname : nameOf m ≠ "comment" := by
      intro h
      rcases hfits.1 with hin | ⟨parents, _, hbranch, -⟩
      · rw [h] at hin
        exact absurd hin (by decide)
      · rw [h] at hbranch
        cases hbranch
    rw [Body.layout, gather_descendantsOf_cons (by exact hname)]
    simp only [stop_eq]
    exact ih hfits.2 (Stands.tag hsource).2
  | raw m chars close r ih =>
    rw [Body.spell_raw] at hsource
    obtain ⟨-, hchars, hr⟩ := Stands.closed hsource
    rw [← stop_eq] at hchars
    obtain ⟨hinside, hbody⟩ := gather_verbatim hchars
    rw [Body.layout, gather_raw _ hinside hbody]
    simp only [stop_eq]
    rw [ih hfits.2 hr, directivesOf]
  | block m inner close r ihi ih =>
    obtain ⟨hblock, -, hinner, hrest⟩ := hfits
    have hname : nameOf m ≠ "comment" := by
      intro h
      rw [h] at hblock
      exact absurd hblock (by decide)
    rw [Body.spell_block] at hsource
    obtain ⟨-, hi, hr⟩ := Stands.closed hsource
    rw [Body.layout, gather_descendantsOf_cons (by exact hname)]
    simp only [stop_eq]
    rw [ihi hinner hi, ih hrest hr, directivesOf]

theorem directives_document {b : Body} (hfits : b.Fits none) :
    directives b.document b.spell = directivesOf 0 b := by
  have hdoc : directives b.document b.spell = gather b.spell (Node.descendantsOf (b.layout 0)) :=
    gather_cons_of_ne (by exact (by decide : "document" ≠ "comment")) _
  rw [hdoc]
  exact directives_layout hfits (Text.stands_self b.spell)

/-! ### Following directives to a site -/

/-- Directives lead from `off` to `off'` on the way to the offset `x`, where none of them stands. -/
def Leads (x : Nat) (off : Off) (ds : List (Nat × Directive)) (off' : Off) : Prop :=
  stateAt x off ds = off' ∧ ∀ p ∈ ds, p.1 ≠ x

variable {x : Nat} {off off' : Off} {ds es : List (Nat × Directive)}

theorem Leads.append {off'' : Off} (hds : Leads x off ds off') (hes : Leads x off' es off'') :
    Leads x off (ds ++ es) off'' := by
  refine ⟨?_, fun p hp => ?_⟩
  · have hsplit : stateAt x off (ds ++ es) = stateAt x (stateAt x off ds) es := by
      unfold stateAt
      rw [List.filter_append, List.foldl_append]
    rw [hsplit, hds.1, hes.1]
  · rcases List.mem_append.1 hp with hp | hp
    · exact hds.2 p hp
    · exact hes.2 p hp

/-- Directives further right do not matter. -/
theorem leads_of_lt (b : Body) {offset : Nat} (h : x < offset) :
    Leads x off (directivesOf offset b) off := by
  have hlater : ∀ p ∈ directivesOf offset b, x < p.1 := by
    intro p hp
    have := (mem_directivesOf_bounds hp).1
    omega
  have hnone : (directivesOf offset b).filter (·.1 < x) = [] := by
    rw [List.filter_eq_nil_iff]
    intro p hp
    have := hlater p hp
    simp only [decide_eq_true_eq]
    omega
  refine ⟨?_, fun p hp => ?_⟩
  · unfold stateAt
    rw [hnone]
    rfl
  · have := hlater p hp
    omega

theorem leads_own {offset : Nat} {m chars : Text} (h : nameOf m = "comment" → offset < x) :
    Leads x off ((directiveOf m chars).toList.map (offset, ·)) (afterRaw off m chars) := by
  rw [afterRaw_eq]
  by_cases hname : nameOf m = "comment"
  · refine ⟨?_, fun p hp => ?_⟩
    · cases directiveOf m chars with
      | none => rfl
      | some d => simp [stateAt, h hname]
    · have h1 := eq_of_mem_own hp
      have h2 := h hname
      omega
  · have hnone : directiveOf m chars = none := by
      unfold directiveOf
      rw [if_neg hname]
    rw [hnone]
    refine ⟨rfl, fun p hp => ?_⟩
    cases hp

/-- Behind a body, its directives say what is off after it. -/
theorem leads_of_le (b : Body) {offset : Nat} (h : offset + b.spell.size ≤ x) :
    Leads x off (directivesOf offset b) (after off b) := by
  -- all directives of the body stand further left than `x`, so the state behind it is reached
  induction b generalizing off offset with
  | nil => exact ⟨rfl, fun p hp => by cases hp⟩
  | text chars r ih =>
    simp only [Body.spell_text, Text.size_append] at h
    exact ih (by omega)
  | output m r ih =>
    rw [size_output] at h
    exact ih (by omega)
  | tag m r ih =>
    simp only [Body.spell_tag, Text.size_append, Body.size_tagLexeme] at h
    exact ih (by omega)
  | raw m chars close r ih =>
    simp only [Body.spell_raw, Text.size_append, Body.size_tagLexeme] at h
    have hown : Leads x off ((directiveOf m chars).toList.map (offset, ·)) (afterRaw off m chars) :=
      leads_own fun _ => by omega
    rw [directivesOf, after]
    exact hown.append (ih (by omega))
  | block m inner close r ihi ih =>
    simp only [Body.spell_block, Text.size_append, Body.size_tagLexeme] at h
    have hinner : Leads x off (directivesOf (offset + (m.size + 4)) inner) (after off inner) :=
      ihi (by omega)
    rw [directivesOf, after]
    exact hinner.append (ih (by omega))

/-- **What a site carries** is what the directives further left than a place in it leave off, and no
directive stands at that place. A comment speaks of itself only behind its first byte. -/
theorem leads_of_mem_sites {b : Body} {offset : Nat} {s : Site} (hs : s ∈ sites off offset b)
    (hstart : s.start ≤ x) (hstop : x < s.stop)
    (hown : ∀ m, s.piece = .tag m → nameOf m = "comment" → s.start < x) :
    Leads x off (directivesOf offset b) s.off := by
  induction b generalizing off offset with
  | nil => cases hs
  | text chars r ih => exact ih hs
  | output m r ih =>
    rcases List.mem_cons.1 hs with rfl | hs
    · exact leads_of_lt r hstop
    · exact ih hs
  | tag m r ih =>
    rcases List.mem_cons.1 hs with rfl | hs
    · exact leads_of_lt r hstop
    · exact ih hs
  | raw m chars close r ih =>
    rw [directivesOf]
    rcases List.mem_cons.1 hs with rfl | hs
    · dsimp only [Site.stop, Piece.size] at hstop ⊢
      refine (leads_own (hown m rfl)).append ?_
      exact leads_of_lt r (by omega)
    · have hbehind : offset < x := by
        rcases List.mem_cons.1 hs with rfl | hs
        · have hle : offset + (m.size + 4) + chars.size ≤ x := hstart
          omega
        · have := (mem_sites_bounds hs).1
          omega
      refine (leads_own fun _ => hbehind).append ?_
      rcases List.mem_cons.1 hs with rfl | hs
      · dsimp only [Site.stop, Piece.size] at hstop ⊢
        exact leads_of_lt r hstop
      · exact ih hs
  | block m inner close r ihi ih =>
    rw [directivesOf]
    rcases List.mem_cons.1 hs with rfl | hs
    · dsimp only [Site.stop, Piece.size] at hstop ⊢
      exact (leads_of_lt inner hstop).append (leads_of_lt r (by omega))
    · rcases List.mem_append.1 hs with hs | hs
      · have hle := (mem_sites_bounds hs).2
        exact (ihi hs).append (leads_of_lt r (by omega))
      · -- all directives inside are further left
        have hleft : offset + (m.size + 4) + inner.spell.size ≤ x := by
          rcases List.mem_cons.1 hs with rfl | hs
          · exact hstart
          · have := (mem_sites_bounds hs).1
            omega
        refine (leads_of_le inner hleft).append ?_
        rcases List.mem_cons.1 hs with rfl | hs
        · dsimp only [Site.stop, Piece.size] at hstop ⊢
          exact leads_of_lt r hstop
        · exact ih hs

/-- **Sites and disabled ranges** agree on what is off inside a site. -/
theorem isDisabled_of_mem_sites {b : Body} {s : Site} (hfits : b.Fits none)
    (hs : s ∈ sites (fun _ => false) 0 b) (hstart : s.start ≤ x) (hstop : x < s.stop)
    (hown : ∀ m, s.piece = .tag m → nameOf m = "comment" → s.start < x) (check : String) :
    (DisabledRanges.ofTemplate b.document b.spell).isDisabled check x =
      (s.off none || s.off (some check)) := by
  obtain ⟨hstate, hne⟩ := leads_of_mem_sites hs hstart hstop hown
  have hds := directives_document hfits
  have hbounds := (mem_sites_bounds hs).2
  rw [DisabledRanges.isDisabled_iff_stateAt check, hds, hstate]
  · rw [hds]
    exact (pairwise_directivesOf b 0).imp Nat.le_of_lt
  · intro d hd
    rw [hds] at hd
    have := (mem_directivesOf_bounds hd).2
    omega
  · omega
  · rw [hds]
    exact hne

end LiquidLint.Edit
