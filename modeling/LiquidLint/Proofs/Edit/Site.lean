import LiquidLint.Check.Basic
import LiquidLint.Proofs.Directive.Ranges
import LiquidLint.Proofs.Edit.Mends
import LiquidLint.Proofs.Spacing.Ending
import Mathlib.Data.List.Pairwise

/-!
# Where a template can be edited

The sites of a body are its outputs, its tags and the end tags of its blocks, each with the offset
where it starts and with what comments have turned off before it. An edit belongs to one site: it
changes white space or the name `include` inside it (`Site.Fix`), or takes a whole `assign` tag away
(`Site.Drop`). Sites do not overlap, so a schedule of edits falls into those of an earlier and a later
part of a body (`exists_parts_sites`).
-/

namespace LiquidLint

namespace Edit

open Correction (Before)
open Liquid (Body nameOf)
open Liquid.Token (tagLexeme)
open Spacing (Amends AmendsEnd rename)

/-! ### Sites -/

/-- What is off after a raw block, which may be a comment with a directive. -/
def afterRaw (off : Off) (m chars : Text) : Off :=
  if nameOf m = "comment" then ((Directive.parse chars).map (·.follow off)).getD off else off

/-- What is off after a body. -/
def after (off : Off) : Body → Off
  | .nil => off
  | .text _ r => after off r
  | .output _ r => after off r
  | .tag _ r => after off r
  | .raw m chars _ r => after (afterRaw off m chars) r
  | .block _ inner _ r => after (after off inner) r

/-- A construct with markup of its own. -/
inductive Piece where
  | output (markup : Text)
  /-- An inline tag, a branch tag or the opening tag of a block or raw block. -/
  | tag (markup : Text)
  /-- The end tag of a block or raw block. -/
  | ending (markup : Text)

/-- The number of bytes of a construct with its delimiters. -/
def Piece.size : Piece → Nat
  | .output m => m.size + 4
  | .tag m => m.size + 4
  | .ending m => m.size + 4

/-- A construct, where it starts and what is off there. -/
structure Site where
  off : Off
  start : Nat
  piece : Piece

/-- One past the last byte of a site. -/
def Site.stop (s : Site) : Nat := s.start + s.piece.size

/-- The sites of a body that starts at `offset`, when `off` is turned off before it. A comment speaks
of itself too. -/
def sites (off : Off) (offset : Nat) : Body → List Site
  | .nil => []
  | .text chars r => sites off (offset + chars.size) r
  | .output m r => ⟨off, offset, .output m⟩ :: sites off (offset + (m.size + 4)) r
  | .tag m r => ⟨off, offset, .tag m⟩ :: sites off (offset + (m.size + 4)) r
  | .raw m chars close r =>
    let off := afterRaw off m chars
    let stop := offset + (m.size + 4) + chars.size
    ⟨off, offset, .tag m⟩ :: ⟨off, stop, .ending close⟩ :: sites off (stop + (close.size + 4)) r
  | .block m inner close r =>
    let stop := offset + (m.size + 4) + inner.spell.size
    ⟨off, offset, .tag m⟩ :: (sites off (offset + (m.size + 4)) inner ++
      ⟨after off inner, stop, .ending close⟩ :: sites (after off inner) (stop + (close.size + 4)) r)

theorem size_output (m : Text) (r : Body) :
    (Body.output m r).spell.size = m.size + 4 + r.spell.size := by
  have h1 : ('{' : Char).utf8Size = 1 := rfl
  have h2 : ('}' : Char).utf8Size = 1 := rfl
  simp [h1, h2]
  omega

/-- The characters of an output stand before those of the rest. -/
theorem spell_output_append (m : Text) (r : Body) :
    (Body.output m r).spell = ('{' :: '{' :: (m ++ ['}', '}'])) ++ r.spell := by simp

theorem size_output_chars (m : Text) :
    Text.size ('{' :: '{' :: (m ++ ['}', '}'])) = m.size + 4 := by
  have hsize := size_output m .nil
  rwa [spell_output_append, Body.spell_nil, List.append_nil] at hsize

/-- The sites of a body lie in it. -/
theorem mem_sites_bounds {b : Body} {off : Off} {offset : Nat} {s : Site}
    (hs : s ∈ sites off offset b) : offset ≤ s.start ∧ s.stop ≤ offset + b.spell.size := by
  -- the sites of a construct are its tags, in order, and those of the body inside
  induction b generalizing off offset with
  | nil => cases hs
  | text chars r ih =>
    have := ih hs
    simp only [Body.spell_text, Text.size_append]
    omega
  | output m r ih =>
    rw [size_output]
    rcases List.mem_cons.1 hs with rfl | hs
    · simp only [Site.stop, Piece.size]
      omega
    · have := ih hs
      omega
  | tag m r ih =>
    simp only [Body.spell_tag, Text.size_append, Body.size_tagLexeme]
    rcases List.mem_cons.1 hs with rfl | hs
    · simp only [Site.stop, Piece.size]
      omega
    · have := ih hs
      omega
  | raw m chars close r ih =>
    simp only [Body.spell_raw, Text.size_append, Body.size_tagLexeme]
    rcases List.mem_cons.1 hs with rfl | hs
    · simp only [Site.stop, Piece.size]
      omega
    · rcases List.mem_cons.1 hs with rfl | hs
      · simp only [Site.stop, Piece.size]
        omega
      · have := ih hs
        omega
  | block m inner close r ihi ih =>
    simp only [Body.spell_block, Text.size_append, Body.size_tagLexeme]
    rcases List.mem_cons.1 hs with rfl | hs
    · simp only [Site.stop, Piece.size]
      omega
    · rcases List.mem_append.1 hs with hs | hs
      · have := ihi hs
        omega
      · rcases List.mem_cons.1 hs with rfl | hs
        · simp only [Site.stop, Piece.size]
          omega
        · have := ih hs
          omega

/-- Sites stand one after the other. -/
theorem pairwise_sites (b : Body) (off : Off) (offset : Nat) :
    (sites off offset b).Pairwise fun s s' => s.stop ≤ s'.start := by
  -- sites do not overlap, and each one ends before what follows it
  induction b generalizing off offset with
  | nil => exact List.Pairwise.nil
  | text chars r ih => exact ih _ _
  | output m r ih => exact List.pairwise_cons.2 ⟨fun s hs => (mem_sites_bounds hs).1, ih _ _⟩
  | tag m r ih => exact List.pairwise_cons.2 ⟨fun s hs => (mem_sites_bounds hs).1, ih _ _⟩
  | raw m chars close r ih =>
    refine List.pairwise_cons.2 ⟨fun s hs => ?_, List.pairwise_cons.2 ⟨fun s hs => ?_, ih _ _⟩⟩
    · simp only [Site.stop, Piece.size]
      rcases List.mem_cons.1 hs with rfl | hs
      · exact Nat.le_add_right _ _
      · have := (mem_sites_bounds hs).1
        omega
    · exact (mem_sites_bounds hs).1
  | block m inner close r ihi ih =>
    -- the end tag of a block and all that follows it come behind what is inside
    have hclose : ∀ s ∈ (⟨after off inner, offset + (m.size + 4) + inner.spell.size, .ending close⟩ ::
        sites (after off inner) (offset + (m.size + 4) + inner.spell.size + (close.size + 4)) r :
        List Site), offset + (m.size + 4) + inner.spell.size ≤ s.start := by
      intro s hs
      rcases List.mem_cons.1 hs with rfl | hs
      · exact Nat.le_refl _
      · have := (mem_sites_bounds hs).1
        omega
    refine List.pairwise_cons.2 ⟨fun s hs => ?_, List.pairwise_append.2
      ⟨ihi _ _, List.pairwise_cons.2 ⟨fun s hs => (mem_sites_bounds hs).1, ih _ _⟩,
        fun s hs s' hs' => Nat.le_trans (mem_sites_bounds hs).2 (hclose s' hs')⟩⟩
    simp only [Site.stop, Piece.size]
    rcases List.mem_append.1 hs with hs | hs
    · exact (mem_sites_bounds hs).1
    · have := hclose s hs
      omega

/-! ### Edits of a site -/

/-- A correction changes white space of a site. The markup of a `liquid` tag is free. -/
def Site.Spaces (s : Site) (c : Correction) : Prop :=
  match s.piece with
  | .output m => Amends true (s.start + 2) m c
  | .tag m => nameOf m ≠ "liquid" ∧ Amends true (s.start + 2) m c
  | .ending m => AmendsEnd (s.start + 2) m c

/-- A correction changes the name of the `include` tag at a site. -/
def Site.Renames (s : Site) (c : Correction) : Prop :=
  match s.piece with
  | .tag m => nameOf m = "include" ∧ c = rename (s.start + 2) m
  | _ => False

/-- A correction changes something inside a site. `on` says which checks are on when some are turned
off. -/
def Site.Fix (on : Off → String → Bool) (s : Site) (c : Correction) : Prop :=
  on s.off Check.spaceInsideBraces.name = true ∧ s.Spaces c ∨
    on s.off Check.convertIncludeToRender.name = true ∧ s.Renames c

/-- A correction takes away the `assign` tag at a site. -/
def Site.Drop (s : Site) (c : Correction) : Prop :=
  match s.piece with
  | .tag m => nameOf m = "assign" ∧ c = .delete ⟨s.start, s.stop⟩
  | _ => False

/-- A correction belongs to a site. -/
def Site.Owns (on : Off → String → Bool) (s : Site) (c : Correction) : Prop :=
  s.Fix on c ∨ s.Drop c

variable {on : Off → String → Bool} {s : Site} {c : Correction}

theorem Site.Spaces.bounds (h : s.Spaces c) :
    s.start + 2 ≤ c.range.start ∧ c.range.start ≤ c.range.stop ∧ c.range.stop + 2 ≤ s.stop := by
  obtain ⟨off, start, piece⟩ := s
  simp only [Site.stop]
  cases piece with
  | output m =>
    have := Amends.bounds h
    simp only [Piece.size] at this ⊢
    omega
  | tag m =>
    have := h.2.bounds
    simp only [Piece.size] at this ⊢
    omega
  | ending m =>
    have := AmendsEnd.bounds h
    simp only [Piece.size] at this ⊢
    omega

theorem Site.Spaces.text_eq (h : s.Spaces c) : c.text = " " := by
  obtain ⟨off, start, piece⟩ := s
  cases piece with
  | output m => exact Amends.text_eq h
  | tag m => exact h.2.text_eq
  | ending m =>
    obtain ⟨a, q, -, -, h⟩ := h
    exact h.text_eq

/-- Different changes of white space are apart, in one site and in two. -/
theorem Site.Spaces.apart {off : Off} {offset : Nat} {b : Body} {s' : Site} {d : Correction}
    (hs : s ∈ sites off offset b) (hs' : s' ∈ sites off offset b) (hc : s.Spaces c)
    (hd : s'.Spaces d) (hne : c ≠ d) : c.Apart d := by
  have hbounds := hc.bounds
  have hbounds' := hd.bounds
  unfold Correction.Apart
  rcases eq_or_ne s s' with rfl | hsite
  · obtain ⟨off, start, piece⟩ := s
    cases piece with
    | output m => exact Amends.apart hc hd hne
    | tag m => exact hc.2.apart hd.2 hne
    | ending m => exact AmendsEnd.apart hc hd hne
  · have hsymm : Std.Symm fun s s' : Site => s.stop ≤ s'.start ∨ s'.stop ≤ s.start :=
      ⟨fun _ _ => Or.symm⟩
    have hpairs : (sites off offset b).Pairwise fun s s' =>
        s.stop ≤ s'.start ∨ s'.stop ≤ s.start := (pairwise_sites b off offset).imp Or.inl
    rcases List.Pairwise.forall hpairs hs hs' hsite with h | h
    · omega
    · omega

theorem Site.Renames.bounds (h : s.Renames c) :
    s.start + 2 ≤ c.range.start ∧ c.range.start ≤ c.range.stop ∧ c.range.stop + 2 ≤ s.stop := by
  obtain ⟨off, start, piece⟩ := s
  simp only [Site.stop]
  cases piece with
  | output m => cases h
  | tag m =>
    obtain ⟨hname, rfl⟩ := h
    have := Spacing.rename_bounds (start + 2) hname
    simp only [Piece.size] at this ⊢
    omega
  | ending m => cases h

/-- What changes inside a site leaves its delimiters alone. -/
theorem Site.Fix.bounds (h : s.Fix on c) :
    s.start + 2 ≤ c.range.start ∧ c.range.start ≤ c.range.stop ∧ c.range.stop + 2 ≤ s.stop :=
  h.elim (fun h => h.2.bounds) fun h => h.2.bounds

theorem Site.Drop.range (h : s.Drop c) : c.range = ⟨s.start, s.stop⟩ := by
  obtain ⟨off, start, piece⟩ := s
  cases piece with
  | tag m => rw [h.2, Correction.range]
  | output m => cases h
  | ending m => cases h

theorem Site.Owns.bounds (h : s.Owns on c) : s.start ≤ c.range.start ∧ c.range.start < s.stop := by
  rcases h with h | h
  · have := h.bounds
    omega
  · rw [h.range]
    have : 0 < s.piece.size := by cases s.piece <;> simp [Piece.size]
    simp only [Site.stop]
    omega

theorem Site.Owns.tidy (h : s.Owns on c) : c.Tidy := by
  obtain ⟨off, start, piece⟩ := s
  rcases h with (⟨-, h⟩ | ⟨-, h⟩) | h
  · cases piece with
    | output m => exact Amends.tidy h
    | tag m => exact h.2.tidy
    | ending m => exact AmendsEnd.tidy h
  · cases piece with
    | tag m => exact h.2 ▸ Spacing.tidy_rename _ m
    | output m => cases h
    | ending m => cases h
  · cases piece with
    | tag m => rw [h.2]; trivial
    | output m => cases h
    | ending m => cases h

theorem Site.Fix.not_drop (h : s.Fix on c) : ¬ s.Drop c := by
  intro hd
  have := h.bounds
  rw [hd.range] at this
  simp only at this
  omega

/-! ### Schedules of edits -/

variable {S R : List Site} {L : List Correction}

/-- Every edit belongs to one of some sites. -/
def Edited (on : Off → String → Bool) (S : List Site) (L : List Correction) : Prop :=
  ∀ c ∈ L, ∃ s ∈ S, s.Owns on c

/-- All fixes of some sites are there. -/
def Complete (on : Off → String → Bool) (S : List Site) (L : List Correction) : Prop :=
  ∀ c, ∀ s ∈ S, s.Fix on c → c ∈ L

/-- Every edit takes away one of some sites. -/
def Dropping (S : List Site) (L : List Correction) : Prop := ∀ c ∈ L, ∃ s ∈ S, s.Drop c

/-- Every edit puts one space in place of something. -/
def OnlySpaces (L : List Correction) : Prop := ∀ c ∈ L, c.text = " "

theorem onlySpaces_append {L₁ L₂ : List Correction} :
    OnlySpaces (L₁ ++ L₂) ↔ OnlySpaces L₁ ∧ OnlySpaces L₂ := List.forall_mem_append

/-- **Edits of an earlier and a later part**: those of the later part come first. -/
theorem exists_parts_sites {x : Nat} (hS : ∀ s ∈ S, s.stop ≤ x) (hR : ∀ s ∈ R, x ≤ s.start)
    (hL : L.Pairwise Before) (hmem : Edited on (S ++ R) L) :
    ∃ L₁ L₂, L = L₁ ++ L₂ ∧ (L₁.Pairwise Before ∧ Edited on R L₁) ∧
      (L₂.Pairwise Before ∧ Edited on S L₂) ∧
      (Complete on (S ++ R) L → Complete on R L₁ ∧ Complete on S L₂) ∧
      (Dropping (S ++ R) L → Dropping R L₁ ∧ Dropping S L₂) := by
  -- the offset tells the edits of the two kinds apart
  have hbefore : ∀ c, (∃ s ∈ S, s.Owns on c) → c.range.start < x := by
    rintro c ⟨s, hs, h⟩
    have := h.bounds
    have := hS s hs
    omega
  have hbehind : ∀ c, (∃ s ∈ R, s.Owns on c) → x ≤ c.range.start := by
    rintro c ⟨s, hs, h⟩
    have := h.bounds
    have := hR s hs
    omega
  have hclass : ∀ c ∈ L, (∃ s ∈ S, s.Owns on c) ∨ ∃ s ∈ R, s.Owns on c := by
    intro c hc
    obtain ⟨s, hs, h⟩ := hmem c hc
    exact (List.mem_append.1 hs).imp (fun hs => ⟨s, hs, h⟩) fun hs => ⟨s, hs, h⟩
  obtain ⟨L₁, L₂, rfl, hL₁, hL₂, hmem₁, hmem₂⟩ :=
    Correction.exists_parts hL hclass hbefore hbehind
  refine ⟨L₁, L₂, rfl, ⟨hL₁, fun c hc => ((hmem₁ c).1 hc).2⟩,
    ⟨hL₂, fun c hc => ((hmem₂ c).1 hc).2⟩, fun hall => ⟨fun c s hs h => ?_, fun c s hs h => ?_⟩,
    fun hdrop => ⟨fun c hc => ?_, fun c hc => ?_⟩⟩
  · exact (hmem₁ c).2 ⟨hall c s (List.mem_append_right _ hs) h, s, hs, Or.inl h⟩
  · exact (hmem₂ c).2 ⟨hall c s (List.mem_append_left _ hs) h, s, hs, Or.inl h⟩
  · -- an edit that drops something in `R` cannot start in front of it
    obtain ⟨s, hs, h⟩ := hdrop c (List.mem_append_left _ hc)
    refine ⟨s, (List.mem_append.1 hs).resolve_left fun hs => ?_, h⟩
    have := hbefore c ⟨s, hs, Or.inr h⟩
    have := hbehind c ((hmem₁ c).1 hc).2
    omega
  · obtain ⟨s, hs, h⟩ := hdrop c (List.mem_append_right _ hc)
    refine ⟨s, (List.mem_append.1 hs).resolve_right fun hs => ?_, h⟩
    have := hbehind c ⟨s, hs, Or.inr h⟩
    have := hbefore c ((hmem₂ c).1 hc).2
    omega

end Edit

end LiquidLint
