import LiquidLint.Proofs.Liquid.Glue
import LiquidLint.Proofs.Spacing.Outside
import LiquidLint.Proofs.Spacing.Rename

/-!
# What edits make of a body

`Mends b b'` says how `b'` may differ from `b`: white space of markup has changed, names `include` have
become `render`, and `assign` tags are gone. Texts, verbatim text and the nesting of constructs are
the same, and so are the names of all other tags. Such a body can be read as what it is
(`Mends.sound`) and keeps the rules of the grammar (`Mends.fits`) because the one it comes from did.

`Respaces b b'` is what edits of white space alone make of a body: it has the same constructs in the
same order, and spaces of markup have changed.
-/

namespace LiquidLint.Edit

open Liquid (Body nameOf IsWord)
open Spacing (DiffersBySpaces Respaced Renamed unspaced)

/-! ### Names of tags outlive edits -/

theorem isWord_or_sign_of_allowed {parent : Option String} {name : String}
    (h : Body.Allowed parent name) : IsWord name.toList ∨ name = "#" := by
  have hnames : ∀ name ∈ Liquid.inlineTags ++ Liquid.branchTags, IsWord name.toList ∨ name = "#" := by
    decide
  exact hnames name h.mem

/-! ### Mended bodies -/

/-- `b'` is `b` with changed white space in markup, `include` tags renamed and `assign` tags left out. -/
inductive Mends : Body → Body → Prop where
  | nil : Mends .nil .nil
  /-- Text stays. -/
  | text {chars : Text} {r r' : Body} : Mends r r' → Mends (.text chars r) (.text chars r')
  /-- White space of an output has changed. -/
  | output {m m' : Text} {r r' : Body} : Respaced m m' → Mends r r' →
      Mends (.output m r) (.output m' r')
  /-- White space of a tag has changed. -/
  | tag {m m' : Text} {r r' : Body} : Respaced m m' → nameOf m' = nameOf m → Mends r r' →
      Mends (.tag m r) (.tag m' r')
  /-- An `include` tag has become a `render` tag. -/
  | rename {m m' : Text} {r r' : Body} : nameOf m = "include" → Renamed m m' → Mends r r' →
      Mends (.tag m r) (.tag m' r')
  /-- An `assign` tag is gone. -/
  | drop {m : Text} {r r' : Body} : nameOf m = "assign" → Mends r r' → Mends (.tag m r) r'
  /-- White space of the tags of a raw block has changed. -/
  | raw {m m' chars close close' : Text} {r r' : Body} : Respaced m m' → nameOf m' = nameOf m →
      Respaced close close' → Mends r r' → Mends (.raw m chars close r) (.raw m' chars close' r')
  /-- White space of the tags of a block has changed, and its body as `Mends` allows. -/
  | block {m m' close close' : Text} {inner inner' r r' : Body} : Respaced m m' →
      nameOf m' = nameOf m → Mends inner inner' → Respaced close close' →
      nameOf close' = nameOf close → Mends r r' →
      Mends (.block m inner close r) (.block m' inner' close' r')

variable {b b' : Body}

/-- **Mended bodies can be read as what they are.** -/
theorem Mends.sound {followed : Bool} (h : Mends b b') (hs : b.Sound followed) :
    b'.Sound followed := by
  -- the characters of closing delimiters are no spaces, so spaces do not bring one in
  have hpercent : '%' ≠ ' ' ∧ '}' ≠ ' ' := by decide
  induction h generalizing followed with
  | nil => trivial
  | text hr ih =>
    refine ⟨hs.1, hs.2.1, fun hlast => ?_, ih hs.2.2.2⟩
    -- behind a text nothing is mended that could start with a brace
    obtain ⟨rfl, hf⟩ := hs.2.2.1 hlast
    cases hr
    exact ⟨rfl, hf⟩
  | output hm _ ih => exact ⟨hm.closedBy (by decide) (by decide) hs.1, ih hs.2⟩
  | tag hm hname _ ih =>
    refine ⟨hm.closedBy hpercent.1 hpercent.2 hs.1, ?_, ih hs.2.2⟩
    rw [hname]
    exact hs.2.1
  | rename hname hm _ ih =>
    refine ⟨hm.closedBy hpercent.1 hpercent.2 rfl rfl hs.1, ?_, ih hs.2.2⟩
    rw [hm.nameOf]
    decide
  | drop _ _ ih => exact ih hs.2.2
  -- a raw block ends with the same name, and it held no end tag before
  | raw hm hname hclose _ ih =>
    obtain ⟨h1, h2, h3, h4, h5⟩ := hs
    refine ⟨hm.closedBy hpercent.1 hpercent.2 h1, ?_, ?_, ?_, ih h5⟩
    · rw [hname]
      exact h2
    · rw [hname]
      exact hclose.isRawEnd (Liquid.isWord_of_mem_rawTags _ h2) h3
    · rw [hname]
      exact h4
  | block hm hname _ hclose hname' _ ihi ih =>
    obtain ⟨h1, h2, h3, h4, h5, h6⟩ := hs
    refine ⟨hm.closedBy hpercent.1 hpercent.2 h1, ?_, hclose.closedBy hpercent.1 hpercent.2 h3, ?_,
      ihi h5, ih h6⟩
    · rw [hname]
      exact h2
    · rw [hname']
      exact h4

/-- **Mended bodies keep the rules** of the grammar. -/
theorem Mends.fits {parent : Option String} (h : Mends b b') (hf : b.Fits parent) :
    b'.Fits parent := by
  -- what may stand in a body goes by names, which are kept or exchanged for one that fits as well
  induction h generalizing parent with
  | nil => trivial
  | text _ ih => exact ih hf
  | output _ _ ih => exact ih hf
  | tag _ hname _ ih =>
    refine ⟨?_, ih hf.2⟩
    rw [hname]
    exact hf.1
  | rename _ hm _ ih =>
    refine ⟨Or.inl ?_, ih hf.2⟩
    rw [hm.nameOf]
    decide
  | drop _ _ ih => exact ih hf.2
  | raw _ hname _ _ ih =>
    refine ⟨?_, ih hf.2⟩
    rw [hname]
    exact hf.1
  | block _ hname _ _ hname' _ ihi ih =>
    obtain ⟨h1, h2, h3, h4⟩ := hf
    refine ⟨?_, ?_, ?_, ih h4⟩
    · rw [hname]
      exact h1
    · rw [hname', hname]
      exact h2
    · rw [hname]
      exact ihi h3

/-- The number of `assign` tags of a body. -/
def assigns : Body → Nat
  | .nil => 0
  | .text _ r => assigns r
  | .output _ r => assigns r
  | .tag m r => (if nameOf m = "assign" then 1 else 0) + assigns r
  | .raw _ _ _ r => assigns r
  | .block _ inner _ r => assigns inner + assigns r

theorem Mends.assigns_le (h : Mends b b') : assigns b' ≤ assigns b := by
  induction h with
  | nil => exact Nat.le_refl _
  | text _ ih => exact ih
  | output _ _ ih => exact ih
  | tag _ hname _ ih =>
    rw [assigns, assigns, hname]
    omega
  | rename hname hm _ ih =>
    rw [assigns, assigns, hname, hm.nameOf, if_neg (by decide), if_neg (by decide)]
    omega
  | drop _ _ ih =>
    rw [assigns]
    omega
  | raw _ _ _ _ ih => exact ih
  | block _ _ _ _ _ _ ihi ih => exact Nat.add_le_add ihi ih

/-! ### Changes of spaces -/

/-- `b'` is `b` with spaces put in and taken out in the markup of outputs and tags, outside strings, and
in end tags. The markup of `liquid` tags is the same. -/
inductive Respaces : Body → Body → Prop where
  | nil : Respaces .nil .nil
  | text {chars : Text} {r r' : Body} : Respaces r r' → Respaces (.text chars r) (.text chars r')
  | output {m m' : Text} {r r' : Body} : DiffersBySpaces m m' → Respaces r r' →
      Respaces (.output m r) (.output m' r')
  | tag {m m' : Text} {r r' : Body} : DiffersBySpaces m m' → (nameOf m = "liquid" → m' = m) →
      Respaces r r' → Respaces (.tag m r) (.tag m' r')
  | raw {m m' chars close close' : Text} {r r' : Body} : DiffersBySpaces m m' →
      unspaced close' = unspaced close → Respaces r r' →
      Respaces (.raw m chars close r) (.raw m' chars close' r')
  | block {m m' close close' : Text} {inner inner' r r' : Body} : DiffersBySpaces m m' →
      Respaces inner inner' → unspaced close' = unspaced close → Respaces r r' →
      Respaces (.block m inner close r) (.block m' inner' close' r')

/-- Joining texts commutes with changes of spaces, which leave texts and their neighbours alone. -/
theorem Respaces.glue (h : Respaces b b') : Respaces b.glue b'.glue := by
  induction h with
  | nil => exact .nil
  | @text chars r r' _ ih =>
    rcases Body.glue_text chars r with ⟨more, rest, hr, hglue⟩ | ⟨hnot, hglue⟩
    · rw [hr] at ih
      generalize hr' : r'.glue = joined at ih
      cases ih with
      | text hrest =>
        rw [hglue, Body.glue, hr']
        exact .text hrest
    · rcases Body.glue_text chars r' with ⟨more, rest, hr', -⟩ | ⟨-, hglue'⟩
      · -- a text that follows on one side follows on the other
        rw [hr'] at ih
        generalize hr : r.glue = joined at ih
        cases ih with
        | text => exact absurd hr (hnot _ _)
      · rw [hglue, hglue']
        exact .text ih
  | output hm _ ih => exact .output hm ih
  | tag hm hliquid _ ih => exact .tag hm hliquid ih
  | raw hm hclose _ ih => exact .raw hm hclose ih
  | block hm _ hclose _ ihi ih => exact .block hm ihi hclose ih

end LiquidLint.Edit
