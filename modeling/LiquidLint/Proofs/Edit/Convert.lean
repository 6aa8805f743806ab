import LiquidLint.Proofs.Edit.Disabled
import LiquidLint.Proofs.Edit.Safety
import LiquidLint.Proofs.Liquid.Argument
import LiquidLint.Proofs.Liquid.Concatenation
import Mathlib.Data.List.Forall2

/-!
# Turning `include` into `render`

`convert` gives the name `render` to the `include` tags of a body and changes nothing else. The
edits for this are `renames`, one for each of these tags, from the last to the first. They are a run
over the body (`runs_renames`) and do not touch each other, so a round applies all of them
(`applyAll_renames`).

A converted body is read as what it is (`parse_convert`), with the same comments in it. Its nodes
are those of the old body one by one, with the same markup behind the names (`forall₂_converted`),
because arguments are what is left behind a name, whatever that is.
-/

namespace LiquidLint.Edit

open Correction (Before Runs)
open Liquid (Body IsLead IsTail Node nameOf tagArguments trimMarkup)
open Liquid.Token (tagLexeme)
open Spacing (isWord_include isWord_render rename)

/-! ### Names -/

/-- The name of a tag after names have been converted. -/
def newName (name : String) : String := if name = "include" then "render" else name

/-- Markup of a tag with the name `include` turned into `render`. -/
def newMarkup (m : Text) : Text :=
  if nameOf m = "include" then
    let lead := m.takeWhile fun c => c == '-' || isBlank c
    lead ++ ("render".toList ++ m.drop (lead ++ "include".toList).length)
  else m

variable {m : Text}

theorem newMarkup_of_ne (h : nameOf m ≠ "include") : newMarkup m = m := if_neg h

theorem exists_newMarkup (h : nameOf m = "include") : ∃ lead tail, IsLead lead ∧ IsTail tail ∧
    m = lead ++ ("include".toList ++ tail) ∧ newMarkup m = lead ++ ("render".toList ++ tail) := by
  obtain ⟨lead, tail, hl, ht, rfl⟩ := (Liquid.nameOf_eq_word_iff isWord_include).1 h
  refine ⟨lead, tail, hl, ht, rfl, ?_⟩
  have hdrop : (lead ++ ("include".toList ++ tail)).drop (lead ++ "include".toList).length =
      tail := by
    rw [← List.append_assoc, List.drop_left]
  unfold newMarkup
  rw [if_pos h, Spacing.takeWhile_lead hl isWord_include]
  dsimp only
  rw [hdrop]

theorem nameOf_newMarkup (m : Text) : nameOf (newMarkup m) = newName (nameOf m) := by
  unfold newName
  by_cases h : nameOf m = "include"
  · obtain ⟨lead, tail, hl, ht, -, hnew⟩ := exists_newMarkup h
    rw [if_pos h, hnew]
    exact (Liquid.nameOf_eq_word_iff isWord_render).2 ⟨lead, tail, hl, ht, rfl⟩
  · rw [if_neg h, newMarkup_of_ne h]

theorem ne_include_of_raw (h : nameOf m ∈ Liquid.rawTags) : nameOf m ≠ "include" := by
  intro hname
  exact absurd (hname ▸ h) (by decide)

theorem ne_include_of_block (h : nameOf m ∈ Liquid.blockTags) : nameOf m ≠ "include" := by
  intro hname
  exact absurd (hname ▸ h) (by decide)

/-- **Arguments stay** when the name is converted. -/
theorem tagArguments_newMarkup (m : Text) :
    tagArguments (newName (nameOf m)).toList (trimMarkup (newMarkup m)) =
      tagArguments (nameOf m).toList (trimMarkup m) := by
  by_cases h : nameOf m = "include"
  · obtain ⟨lead, tail, hl, -, hm, hnew⟩ := exists_newMarkup h
    have hrender : newName (nameOf m) = "render" := if_pos h
    rw [hrender, hnew, h, hm, Liquid.tagArguments_lead hl isWord_render.solid,
      Liquid.tagArguments_lead hl isWord_include.solid]
  · have hsame : newName (nameOf m) = nameOf m := if_neg h
    rw [hsame, newMarkup_of_ne h]

/-! ### Bodies -/

/-- A body with its `include` tags turned into `render` tags. -/
def convert : Body → Body
  | .nil => .nil
  | .text chars r => .text chars (convert r)
  | .output m r => .output m (convert r)
  | .tag m r => .tag (newMarkup m) (convert r)
  | .raw m chars close r => .raw m chars close (convert r)
  | .block m inner close r => .block m (convert inner) close (convert r)

theorem mends_convert (b : Body) : Mends b (convert b) := by
  induction b with
  | nil => exact .nil
  | text chars r ih => exact .text ih
  | output m r ih => exact .output .refl ih
  | tag m r ih =>
    by_cases h : nameOf m = "include"
    · obtain ⟨lead, tail, hl, ht, hm, hnew⟩ := exists_newMarkup h
      refine .rename h ⟨lead, tail, hl, ht, ?_, ?_⟩ ih
      · rw [hm]
        exact .refl
      · rw [hnew]
        exact .refl
    · rw [convert, newMarkup_of_ne h]
      exact .tag .refl rfl ih
  | raw m chars close r ih => exact .raw .refl rfl .refl ih
  | block m inner close r ihi ih => exact .block .refl rfl ihi .refl rfl ih

/-- Texts that are no neighbours do not become neighbours. -/
theorem apart_convert {b : Body} (h : b.Apart) : (convert b).Apart := by
  induction b with
  | nil => trivial
  | text chars r ih =>
    refine ⟨fun more after heq => ?_, ih h.2⟩
    cases r with
    | text more after => exact h.1 more after rfl
    | _ => cases heq
  | output m r ih => exact ih h
  | tag m r ih => exact ih h
  | raw m chars close r ih => exact ih h
  | block m inner close r ihi ih => exact ⟨ihi h.1, ih h.2⟩

/-- **A converted template** is read as what it is. -/
theorem parse_convert {b : Body} (hsound : b.Sound false) (hfits : b.Fits none) (hapart : b.Apart) :
    Liquid.parse (convert b).spell = .ok (convert b).document := by
  have hmends := mends_convert b
  rw [Body.parse_spell (hmends.sound hsound) (hmends.fits hfits), (apart_convert hapart).glue]

/-- Comments say what they said before. -/
theorem directivesOf_convert (b : Body) (offset offset' : Nat) :
    (directivesOf offset' (convert b)).map (·.2) = (directivesOf offset b).map (·.2) := by
  induction b generalizing offset offset' with
  | nil => rfl
  | text chars r ih => exact ih _ _
  | output m r ih => exact ih _ _
  | tag m r ih => exact ih _ _
  | raw m chars close r ih =>
    simp only [convert, directivesOf, List.map_append, List.map_map]
    exact congrArg₂ _ (List.map_congr_left fun _ _ => rfl) (ih _ _)
  | block m inner close r ihi ih =>
    simp only [convert, directivesOf, List.map_append]
    exact congrArg₂ _ (ihi _ _) (ih _ _)

/-! ### Edits -/

/-- The edits of the names of the `include` tags of a body that starts at `offset`, from the last to
the first. -/
def renames (offset : Nat) : Body → List Correction
  | .nil => []
  | .text chars r => renames (offset + chars.size) r
  | .output m r => renames (offset + (m.size + 4)) r
  | .tag m r => renames (offset + (m.size + 4)) r ++
      if nameOf m = "include" then [rename (offset + 2) m] else []
  | .raw m chars close r => renames (offset + (m.size + 4) + chars.size + (close.size + 4)) r
  | .block m inner close r =>
    renames (offset + (m.size + 4) + inner.spell.size + (close.size + 4)) r ++
      renames (offset + (m.size + 4)) inner

variable {source source' : Text} {offset offset' : Nat} {c : Correction} {b : Body}

theorem mem_rename_iff : c ∈ (if nameOf m = "include" then [rename (offset + 2) m] else []) ↔
    nameOf m = "include" ∧ c = rename (offset + 2) m := by
  by_cases h : nameOf m = "include" <;> simp [h]

/-- The edits belong to the sites of the body. -/
theorem mem_renames_iff {parent : Option String} (off : Off) (hfits : b.Fits parent) :
    c ∈ renames offset b ↔ ∃ s ∈ sites off offset b, s.Renames c := by
  -- along the body; only inline tags can be called `include`
  induction b generalizing parent off offset with
  | nil => simp [renames, sites]
  | text chars r ih => exact ih off hfits
  | output m r ih =>
    rw [renames, ih off hfits, sites, List.exists_mem_cons_iff]
    exact (or_iff_right id).symm
  | tag m r ih =>
    rw [renames, List.mem_append, ih off hfits.2, mem_rename_iff, sites, List.exists_mem_cons_iff]
    exact or_comm
  | raw m chars close r ih =>
    have hname : nameOf m ≠ "include" := ne_include_of_raw hfits.1
    rw [renames, ih (afterRaw off m chars) hfits.2, sites, List.exists_mem_cons_iff,
      List.exists_mem_cons_iff]
    simp [Site.Renames, hname]
  | block m inner close r ihi ih =>
    obtain ⟨hblock, -, hinner, hrest⟩ := hfits
    have hname : nameOf m ≠ "include" := ne_include_of_block hblock
    rw [renames, List.mem_append, ihi off hinner, ih (after off inner) hrest, sites,
      List.exists_mem_cons_iff]
    simp only [List.mem_append, or_and_right, exists_or, List.exists_mem_cons_iff]
    simp [Site.Renames, hname, or_comm]

theorem tidy_of_mem_renames (h : c ∈ renames offset b) : c.Tidy := by
  induction b generalizing offset with
  | nil => cases h
  | text chars r ih => exact ih h
  | output m r ih => exact ih h
  | tag m r ih =>
    rcases List.mem_append.1 h with h | h
    · exact ih h
    · rw [(mem_rename_iff.1 h).2]
      exact Spacing.tidy_rename _ m
  | raw m chars close r ih => exact ih h
  | block m inner close r ihi ih => exact (List.mem_append.1 h).elim ih ihi

/-- The edits lie in the body. -/
theorem bounds_of_mem_renames (h : c ∈ renames offset b) :
    offset ≤ c.range.start ∧ c.range.start < c.range.stop ∧
      c.range.stop ≤ offset + b.spell.size := by
  induction b generalizing offset with
  | nil => cases h
  | text chars r ih =>
    have := ih h
    simp only [Body.spell_text, Text.size_append]
    omega
  | output m r ih =>
    have := ih h
    rw [size_output]
    omega
  | tag m r ih =>
    -- the tag's own edit comes last in the list and first in the text
    simp only [Body.spell_tag, Text.size_append, Body.size_tagLexeme]
    rcases List.mem_append.1 h with h | h
    · have := ih h
      omega
    · obtain ⟨hname, rfl⟩ := mem_rename_iff.1 h
      have := Spacing.rename_bounds (offset + 2) hname
      omega
  | raw m chars close r ih =>
    have := ih h
    simp only [Body.spell_raw, Text.size_append, Body.size_tagLexeme]
    omega
  | block m inner close r ihi ih =>
    simp only [Body.spell_block, Text.size_append, Body.size_tagLexeme]
    rcases List.mem_append.1 h with h | h
    · have := ih h
      omega
    · have := ihi h
      omega

/-- **The edits stand one before the other**, the last one first. -/
theorem pairwise_renames (b : Body) (offset : Nat) :
    (renames offset b).Pairwise fun c d => d.range.stop < c.range.start := by
  -- edits are listed from the end of the body to its start
  induction b generalizing offset with
  | nil => exact List.Pairwise.nil
  | text chars r ih => exact ih _
  | output m r ih => exact ih _
  | tag m r ih =>
    refine List.pairwise_append.2 ⟨ih _, ?_, fun c hc d hd => ?_⟩
    · split
      · exact List.pairwise_singleton _ _
      · exact List.Pairwise.nil
    · obtain ⟨hname, rfl⟩ := mem_rename_iff.1 hd
      have h1 := bounds_of_mem_renames hc
      have h2 := Spacing.rename_bounds (offset + 2) hname
      omega
  | raw m chars close r ih => exact ih _
  | block m inner close r ihi ih =>
    refine List.pairwise_append.2 ⟨ih _, ihi _, fun c hc d hd => ?_⟩
    have h1 := bounds_of_mem_renames hc
    have h2 := bounds_of_mem_renames hd
    omega

/-- The edit of a tag turns its markup into what it is to be. -/
theorem runs_newMarkup (h : Text.Stands source (offset + 2) m) :
    Runs source (if nameOf m = "include" then [rename (offset + 2) m] else []) (offset + 2) m
      (newMarkup m) := by
  by_cases hname : nameOf m = "include"
  · obtain ⟨lead, tail, hl, -, hm, hnew⟩ := exists_newMarkup hname
    rw [if_pos hname, hnew]
    rw [hm] at h ⊢
    refine Runs.frame (Runs.single h.right.left ?_ ?_)
    · rw [Spacing.range_rename hl]
    · rw [Spacing.range_rename hl, Spacing.size_include]
  · rw [if_neg hname, newMarkup_of_ne hname]
    exact Runs.nil

theorem runs_tagLexeme (h : Text.Stands source (offset + 2) m) :
    Runs source (if nameOf m = "include" then [rename (offset + 2) m] else []) offset (tagLexeme m)
      (tagLexeme (newMarkup m)) := by
  have hrun := runs_newMarkup h
  generalize newMarkup m = m' at *
  exact Runs.frame (a := ['{', '%']) hrun

/-- **The edits convert the body.** -/
theorem runs_renames (h : Text.Stands source offset b.spell) :
    Runs source (renames offset b) offset b.spell (convert b).spell := by
  -- the run goes from the end to the start as well, so what is kept stands behind a part to be
  -- changed
  induction b generalizing offset with
  | nil => exact Runs.nil
  | text chars r ih =>
    have hrun : Runs source (renames (offset + chars.size) r) (offset + chars.size) r.spell
        (convert r).spell := ih h.right
    exact hrun.behind
  | output m r ih =>
    rw [convert, spell_output_append, spell_output_append]
    refine Runs.behind ?_
    rw [size_output_chars]
    exact ih (Stands.output h).2
  | tag m r ih =>
    obtain ⟨hm, hr⟩ := Stands.tag h
    rw [convert, Body.spell_tag, Body.spell_tag]
    refine Runs.append ?_ (runs_tagLexeme hm)
    rw [Body.size_tagLexeme]
    exact ih hr
  | raw m chars close r ih =>
    rw [Body.spell_raw] at h
    rw [convert, Body.spell_raw, Body.spell_raw]
    refine Runs.behind (Runs.behind (Runs.behind ?_))
    rw [Body.size_tagLexeme, Body.size_tagLexeme]
    exact ih (Stands.closed h).2.2
  | block m inner close r ihi ih =>
    rw [Body.spell_block] at h
    obtain ⟨-, hi, hr⟩ := Stands.closed h
    rw [convert, Body.spell_block, Body.spell_block]
    refine Runs.behind (Runs.append (Runs.behind ?_) ?_)
    · rw [Body.size_tagLexeme, Body.size_tagLexeme]
      exact ih hr
    · rw [Body.size_tagLexeme]
      exact ihi hi

/-- **A round of the edits** converts the template, and applies all of them. -/
theorem applyAll_renames (hsound : b.Sound false) (hfits : b.Fits none) {cs : List Correction}
    (hcs : ∀ c, c ∈ cs ↔ c ∈ renames 0 b) :
    (Correction.applyAll b.spell cs).text = (convert b).spell ∧
      (Correction.applyAll b.spell cs).skipped = 0 ∧
      (Correction.applyAll b.spell cs).applied = (renames 0 b).length := by
  have hpairs := pairwise_renames b 0
  have htidy : ∀ c ∈ cs, c.Tidy := fun c hc => tidy_of_mem_renames ((hcs c).1 hc)
  have hordered : (renames 0 b).Pairwise Before := hpairs.imp_of_mem fun hc hd h => by
    have hstart := (bounds_of_mem_renames hd).2.1
    exact Before.of_start_lt (by omega)
  -- the edits are in the order of the schedule as they are
  have hschedule : Correction.schedule cs = renames 0 b := by
    rw [(Correction.noTwins_of_tidy htidy).schedule_of_mem_iff hcs,
      Correction.schedule_of_pairwise hordered]
  have hskipped : (Correction.applyAll b.spell cs).skipped = 0 := by
    refine Correction.skipped_of_apart htidy (fun c hc => ?_) fun c hc d hd hne => ?_
    · obtain ⟨s, hs, h⟩ := (mem_renames_iff (fun _ => false) hfits).1 ((hcs c).1 hc)
      have howns : s.Owns always c := Or.inl (Or.inr ⟨rfl, h⟩)
      exact fits_of_owns hfits hsound hs howns
    · have hsymm : Std.Symm Correction.Apart := ⟨fun _ _ => Or.symm⟩
      have hapart : (renames 0 b).Pairwise Correction.Apart := hpairs.imp Or.inr
      exact List.Pairwise.forall hapart ((hcs c).1 hc) ((hcs d).1 hd) hne
  have hrun : Runs b.spell (renames 0 b) 0 b.spell (convert b).spell :=
    runs_renames (Text.stands_self _)
  refine ⟨(Runs.applyAll (hschedule ▸ hrun)).1, hskipped, ?_⟩
  rw [Correction.applied_applyAll, (Correction.skipped_applyAll _ _).1 hskipped, hschedule]

/-! ### Nodes -/

/-- A node and what it has become: `include` tags have become `render` tags, and what is said behind
the name is the same. -/
structure Converted (source source' : Text) (n n' : Node) : Prop where
  isTag : n'.isTag = n.isTag
  typeName : n'.typeName = newName n.typeName
  markup : n'.markup source' = n.markup source

theorem forall₂_converted_cons {n n' : Node} {ns ns' : List Node}
    (h : Converted source source' n n')
    (hinside : List.Forall₂ (Converted source source') (Node.descendantsOf n.children)
      (Node.descendantsOf n'.children))
    (hlater : List.Forall₂ (Converted source source') (Node.descendantsOf ns)
      (Node.descendantsOf ns')) :
    List.Forall₂ (Converted source source') (Node.descendantsOf (n :: ns))
      (Node.descendantsOf (n' :: ns')) := by
  obtain ⟨kind, span, markup, children⟩ := n
  obtain ⟨kind', span', markup', children'⟩ := n'
  rw [Node.descendantsOf, Node.descendants, Node.descendantsOf, Node.descendants]
  exact List.rel_append (.cons h hinside) hlater

/-- Text stays. -/
theorem converted_text {chars : Text} (h : Text.Stands source offset chars)
    (h' : Text.Stands source' offset' chars) :
    Converted source source'
      ⟨.text, ⟨offset, offset + chars.size⟩, ⟨offset, offset + chars.size⟩, []⟩
      ⟨.text, ⟨offset', offset' + chars.size⟩, ⟨offset', offset' + chars.size⟩, []⟩ :=
  ⟨rfl, rfl, h'.slice.trans h.slice.symm⟩

/-- A tag has its new name, and says what it said. -/
theorem converted_tag {m' : Text} {block : Bool} {span span' : Span}
    {children children' : List Node} (hname : nameOf m' = newName (nameOf m))
    (harguments : tagArguments (newName (nameOf m)).toList (trimMarkup m') =
      tagArguments (nameOf m).toList (trimMarkup m))
    (h : Text.Stands source (offset + 2) m) (h' : Text.Stands source' (offset' + 2) m') :
    Converted source source'
      ⟨.tag (nameOf m) block, span, ⟨offset + 2, offset + 2 + m.size⟩, children⟩
      ⟨.tag (nameOf m') block, span', ⟨offset' + 2, offset' + 2 + m'.size⟩, children'⟩ := by
  refine ⟨rfl, hname, ?_⟩
  simp only [Node.markup]
  rw [h.slice, h'.slice, hname, harguments]

/-- A block stays. -/
theorem converted_block {span span' : Span} {children children' : List Node}
    (hname : nameOf m ≠ "include") (h : Text.Stands source (offset + 2) m)
    (h' : Text.Stands source' (offset' + 2) m) :
    Converted source source'
      ⟨.tag (nameOf m) true, span, ⟨offset + 2, offset + 2 + m.size⟩, children⟩
      ⟨.tag (nameOf m) true, span', ⟨offset' + 2, offset' + 2 + m.size⟩, children'⟩ := by
  have hsame : newName (nameOf m) = nameOf m := if_neg hname
  exact converted_tag hsame.symm (by rw [hsame]) h h'

/-- The text inside a raw block stays. -/
theorem forall₂_converted_verbatim {chars : Text} (h : Text.Stands source offset chars)
    (h' : Text.Stands source' offset' chars) :
    List.Forall₂ (Converted source source')
      (Node.descendantsOf (if chars.isEmpty then [] else
        [⟨.text, ⟨offset, offset + chars.size⟩, ⟨offset, offset + chars.size⟩, []⟩]))
      (Node.descendantsOf (if chars.isEmpty then [] else
        [⟨.text, ⟨offset', offset' + chars.size⟩, ⟨offset', offset' + chars.size⟩, []⟩])) := by
  split
  · exact .nil
  · exact forall₂_converted_cons (converted_text h h') .nil .nil

/-- **Nodes correspond** one by one. -/
theorem forall₂_converted {parent : Option String} (hfits : b.Fits parent)
    (h : Text.Stands source offset b.spell) (h' : Text.Stands source' offset' (convert b).spell) :
    List.Forall₂ (Converted source source') (Node.descendantsOf (b.layout offset))
      (Node.descendantsOf ((convert b).layout offset')) := by
  -- the two bodies are laid out in step, from offsets of their own
  induction b generalizing parent offset offset' with
  | nil => exact .nil
  | text chars r ih =>
    rw [convert, Body.layout, Body.layout]
    exact forall₂_converted_cons (converted_text h.left h'.left) .nil (ih hfits h.right h'.right)
  | output m r ih =>
    obtain ⟨hm, hr⟩ := Stands.output h
    obtain ⟨hm', hr'⟩ := Stands.output h'
    rw [convert, Body.layout, Body.layout]
    simp only [stop_eq]
    refine forall₂_converted_cons ⟨rfl, rfl, ?_⟩ .nil (ih hfits hr hr')
    show trimMarkup (source'.slice _) = trimMarkup (source.slice _)
    rw [hm.slice, hm'.slice]
  | tag m r ih =>
    obtain ⟨hm, hr⟩ := Stands.tag h
    obtain ⟨hm', hr'⟩ := Stands.tag h'
    rw [convert, Body.layout, Body.layout]
    simp only [stop_eq]
    exact forall₂_converted_cons
      (converted_tag (nameOf_newMarkup m) (tagArguments_newMarkup m) hm hm') .nil
      (ih hfits.2 hr hr')
  | raw m chars close r ih =>
    have hname : nameOf m ≠ "include" := ne_include_of_raw hfits.1
    rw [convert, Body.spell_raw] at h'
    rw [Body.spell_raw] at h
    obtain ⟨hnode, hchars, hr⟩ := Stands.closed h
    obtain ⟨hnode', hchars', hr'⟩ := Stands.closed h'
    rw [convert, Body.layout, Body.layout]
    simp only [stop_eq]
    exact forall₂_converted_cons
      (converted_block hname (Stands.tag hnode.left).1 (Stands.tag hnode'.left).1)
      (forall₂_converted_verbatim hchars hchars') (ih hfits.2 hr hr')
  | block m inner close r ihi ih =>
    obtain ⟨hblock, -, hinner, hrest⟩ := hfits
    have hname : nameOf m ≠ "include" := ne_include_of_block hblock
    rw [convert, Body.spell_block] at h'
    rw [Body.spell_block] at h
    obtain ⟨hnode, hi, hr⟩ := Stands.closed h
    obtain ⟨hnode', hi', hr'⟩ := Stands.closed h'
    rw [convert, Body.layout, Body.layout]
    simp only [stop_eq]
    exact forall₂_converted_cons
      (converted_block hname (Stands.tag hnode.left).1 (Stands.tag hnode'.left).1)
      (ihi hinner hi hi') (ih hrest hr hr')

/-- There is one edit for each `include` tag. -/
theorem length_renames {parent : Option String} (hfits : b.Fits parent) :
    (renames offset b).length =
      (Node.descendantsOf (b.layout offset)).countP (·.typeName == "include") := by
  have hne : ∀ (n : Node) (ns : List Node), n.typeName ≠ "include" →
      (Node.descendantsOf (n :: ns)).countP (·.typeName == "include") =
        (Node.descendantsOf n.children).countP (·.typeName == "include") +
          (Node.descendantsOf ns).countP (·.typeName == "include") := by
    rintro ⟨kind, span, markup, children⟩ ns h
    rw [Node.descendantsOf, Node.descendants, List.cons_append,
      List.countP_cons_of_neg (by simpa using h), List.countP_append]
  -- one edit for each node that counts
  induction b generalizing parent offset with
  | nil => rfl
  | text chars r ih =>
    rw [Body.layout, hne _ _ (by exact (by decide : "text" ≠ "include"))]
    exact (ih hfits).trans (Nat.zero_add _).symm
  | output m r ih =>
    rw [Body.layout, hne _ _ (by exact (by decide : "variable" ≠ "include"))]
    simp only [stop_eq]
    exact (ih hfits).trans (Nat.zero_add _).symm
  | tag m r ih =>
    rw [renames, List.length_append, ih hfits.2, Body.layout, Node.descendantsOf, Node.descendants,
      Node.descendantsOf, List.singleton_append, List.countP_cons]
    simp only [stop_eq]
    refine congrArg _ ?_
    by_cases h : nameOf m = "include"
    · simp [h, Node.typeName]
    · simp [h, Node.typeName]
  | raw m chars close r ih =>
    have hname : nameOf m ≠ "include" := ne_include_of_raw hfits.1
    have hinside : (Node.descendantsOf (if chars.isEmpty then [] else
        [⟨.text, ⟨offset + 2 + m.size + 2, offset + 2 + m.size + 2 + chars.size⟩,
          ⟨offset + 2 + m.size + 2, offset + 2 + m.size + 2 + chars.size⟩, []⟩])).countP
        (·.typeName == "include") = 0 := by
      split
      · rfl
      · rfl
    rw [renames, ih hfits.2, Body.layout, hne _ _ (by exact hname)]
    simp only [stop_eq] at hinside ⊢
    rw [hinside, Nat.zero_add]
  | block m inner close r ihi ih =>
    obtain ⟨hblock, -, hinner, hrest⟩ := hfits
    have hname : nameOf m ≠ "include" := ne_include_of_block hblock
    rw [renames, List.length_append, ihi hinner, ih hrest, Body.layout, hne _ _ (by exact hname)]
    simp only [stop_eq]
    exact Nat.add_comm _ _

end LiquidLint.Edit
