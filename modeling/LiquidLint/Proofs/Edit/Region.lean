import LiquidLint.Proofs.Correction.Taken
import LiquidLint.Proofs.Directive.Reading
import LiquidLint.Proofs.Edit.Pending
import LiquidLint.Proofs.Liquid.Tiling

/-!
# Regions where all checks are off

A comment that turns all checks off starts a region that goes up to the next comment that turns all of
them on again (`DisabledRanges.Region`). Every check is off in the region (`Region.isDisabled`), but
comments are asked about the place where something is reported, and an edit may lie elsewhere. What
keeps edits out of the region is that they do not leave their site, and that no comment starts inside
one: `Template.inside_of_mem_pending`. So a region stays as it is when pending corrections are applied
(`Template.exists_kept`).
-/

namespace LiquidLint

open Correction (Inside applyAll taken)
open Liquid (Body Node)

/-! ### Regions -/

namespace DisabledRanges

/-- The bytes from a comment that turns all checks off up to the next comment that turns all of them
on again, or up to the end of the template when there is none. -/
structure Region (root : Node) (source : Text) (start stop : Nat) : Prop where
  opens : TurnsOff root source none start
  closes : start < stop ∧ TurnsOn root source none stop ∨ stop = source.size
  first : ∀ x, start < x → x < stop → ¬ TurnsOn root source none x

variable {root : Node} {source : Text} {start stop x : Nat}

/-- Comments stand between characters of the template. -/
theorem HasComment.isBoundary {body : Text} (h : HasComment root source x body)
    (hparse : Liquid.parse source = .ok root) : source.isBoundary x = true := by
  obtain ⟨n, hn, hname, rfl, -⟩ := h
  obtain ⟨b, hfits, hcuts, rfl⟩ := Liquid.exists_body_of_parse hparse
  have hspell : b.spell = source := Body.spell_of_cuts hcuts
  rcases List.mem_cons.1 hn with rfl | hn
  · exact absurd hname (by decide : "document" ≠ "comment")
  · have hsource : source = [] ++ (b.spell ++ []) := by simp [hspell]
    exact (Liquid.placed_layout hfits hcuts.whole [] [] hsource rfl n hn).2.start

/-- A region has a first byte, and ends in the template. -/
theorem Region.bounds (h : Region root source start stop)
    (hparse : Liquid.parse source = .ok root) : start < stop ∧ stop ≤ source.size := by
  obtain ⟨-, hsize⟩ := pairwise_directives hparse
  rcases h.closes with ⟨hlt, hon⟩ | rfl
  · obtain ⟨d, hd, -⟩ := turnsOn_iff.1 hon
    exact ⟨hlt, Nat.le_of_lt (hsize _ hd)⟩
  · obtain ⟨d, hd, -⟩ := turnsOff_iff.1 h.opens
    exact ⟨hsize _ hd, Nat.le_refl _⟩

/-- A region can be cut out of the template. -/
theorem Region.exists_append (h : Region root source start stop)
    (hparse : Liquid.parse source = .ok root) :
    ∃ before region after, source = before ++ (region ++ after) ∧ before.size = start ∧
      (before ++ region).size = stop := by
  have hle := h.bounds hparse
  have hstart : source.isBoundary start = true := by
    obtain ⟨names, body, hbody, -⟩ := h.opens
    exact hbody.isBoundary hparse
  have hstop : source.isBoundary stop = true := by
    rcases h.closes with ⟨-, names, body, hbody, -⟩ | rfl
    · exact hbody.isBoundary hparse
    · exact Text.isBoundary_iff.2 ⟨source, [], by simp, rfl⟩
  obtain ⟨before, rest, hsource, hbefore⟩ := Text.isBoundary_iff.1 hstart
  obtain ⟨front, after, hfront, hsize⟩ := Text.isBoundary_iff.1 hstop
  obtain ⟨region, rfl, -⟩ := Text.exists_append_of_size_le (hsource.symm.trans hfront) (by omega)
  exact ⟨before, region, after, by rw [hfront, List.append_assoc], hbefore, hsize⟩

/-- **All checks are off in a region**, and at its end too. -/
theorem Region.isDisabled (h : Region root source start stop)
    (hparse : Liquid.parse source = .ok root) (check : String) (h1 : start ≤ x) (h2 : x ≤ stop) :
    (ofTemplate root source).isDisabled check x = true := by
  obtain ⟨hds, hsize⟩ := pairwise_directives hparse
  obtain ⟨d, hd, hopens⟩ := turnsOff_iff.1 h.opens
  have hle := (h.bounds hparse).2
  rw [isDisabled_iff_exists check hds fun d hd => Nat.le_of_lt (hsize d hd)]
  refine ⟨by omega, none, Or.inl rfl, (start, d), hd, h1, hopens, fun q hq hgt hlt hcloses => ?_⟩
  exact h.first q.1 hgt (by omega) (turnsOn_iff.2 ⟨q.2, hq, hcloses⟩)

end DisabledRanges

/-! ### Edits outside regions -/

namespace Edit

variable {on : Off → String → Bool} {b : Body} {s : Site} {c : Correction}

/-- An edit does not leave its site. -/
theorem Site.Owns.inside (h : s.Owns on c) : c.Inside s.start s.stop := by
  rcases h with h | h
  · have := h.bounds
    exact ⟨by omega, by omega, by omega⟩
  · have hle : s.start ≤ s.stop := Nat.le_add_right _ _
    unfold Inside
    rw [h.range]
    exact ⟨Nat.le_refl _, hle, Nat.le_refl _⟩

/-- No comment with a directive starts inside a site. -/
theorem not_mem_directives_of_mem_sites (hfits : b.Fits none) (hs : s ∈ sites nothing 0 b)
    {p : Nat × Directive} (hp : p ∈ DisabledRanges.directives b.document b.spell)
    (hstart : s.start < p.1) : s.stop ≤ p.1 := by
  rw [directives_document hfits] at hp
  by_contra hstop
  have hleads := leads_of_mem_sites hs (Nat.le_of_lt hstart) (by omega) fun _ _ _ => hstart
  exact hleads.2 p hp rfl

end Edit

namespace Template

variable {t : Template} {root : Node} {start stop : Nat} {c : Correction} {cs : List Correction}

/-- **Pending corrections stay out of regions**: each of them lies before the region or behind it. -/
theorem inside_of_mem_pending (hroot : t.root = .ok root)
    (hregion : DisabledRanges.Region root t.source start stop) (hc : c ∈ t.pending) :
    c.Inside 0 start ∨ c.Inside stop t.source.size := by
  obtain ⟨b, rfl, hsource, hfits, -⟩ := t.exists_body hroot
  obtain ⟨s, hs, howns, check, x, hx1, hx2, hon⟩ :=
    Edit.exists_site_of_mem_pending hroot hsource hfits hc
  obtain ⟨h1, h2, h3⟩ := howns.inside
  have hsize := (Edit.mem_sites_bounds hs).2
  rw [hsource] at hsize
  -- something is on in the site, so that place is not in the region
  have houtside : x < start ∨ stop < x := by
    by_contra hinside
    have hoff := hregion.isDisabled (x := x) hroot check (by omega) (by omega)
    unfold Template.isDisabled at hon
    rw [hroot] at hon
    exact Bool.false_ne_true (hon.symm.trans hoff)
  rcases houtside with hbefore | hbehind
  · -- the site starts before the region, and the comment that opens the region is not inside it
    obtain ⟨d, hd, -⟩ := DisabledRanges.turnsOff_iff.1 hregion.opens
    rw [← hsource] at hd
    have hstop : s.stop ≤ start :=
      Edit.not_mem_directives_of_mem_sites hfits hs hd (Nat.lt_of_le_of_lt hx1 hbefore)
    exact Or.inl ⟨Nat.zero_le _, h2, by omega⟩
  · -- the site ends behind the region, so it starts behind the comment that closes the region
    have hstart : stop ≤ s.start := by
      rcases hregion.closes with ⟨-, hcloses⟩ | rfl
      · obtain ⟨d, hd, -⟩ := DisabledRanges.turnsOn_iff.1 hcloses
        rw [← hsource] at hd
        by_contra hlt
        have := Edit.not_mem_directives_of_mem_sites hfits hs hd (Nat.lt_of_not_le hlt)
        simp only at this
        omega
      · omega
    exact Or.inr ⟨by omega, h2, by omega⟩

/-- **Regions are kept**: when pending corrections are applied to a template, a region where all checks
are off stands in the result as it was, between what the edits before it and what the edits behind it
make of the rest. -/
theorem exists_kept (hroot : t.root = .ok root)
    (hregion : DisabledRanges.Region root t.source start stop) (hcs : ∀ c ∈ cs, c ∈ t.pending) :
    ∃ before region after before' after',
      (t.source = before ++ (region ++ after) ∧ before.size = start ∧
        (before ++ region).size = stop) ∧
      (applyAll t.source cs).text = before' ++ (region ++ after') ∧
      (applyAll t.source ((taken t.source cs).filter (·.Inside 0 start))).text =
        before' ++ (region ++ after) ∧
      (applyAll t.source ((taken t.source cs).filter (·.Inside stop t.source.size))).text =
        before ++ (region ++ after') := by
  obtain ⟨before, region, after, hsource, rfl, rfl⟩ := hregion.exists_append hroot
  have hlt := (hregion.bounds hroot).1
  -- an empty region would not keep an edit before it apart from one behind it
  have hne : region ≠ [] := by
    rintro rfl
    rw [List.append_nil] at hlt
    exact Nat.lt_irrefl _ hlt
  have htidy : ∀ c ∈ cs, c.Tidy := by
    intro c hc
    obtain ⟨b, rfl, hspell, hfits, -⟩ := t.exists_body hroot
    obtain ⟨s, -, howns⟩ := Edit.edited_of_pending hroot hspell hfits hcs c hc
    exact howns.tidy
  have hclear : ∀ c ∈ taken t.source cs,
      c.Inside 0 before.size ∨ c.Inside (before ++ region).size t.source.size :=
    fun c hc => inside_of_mem_pending hroot hregion (hcs c (Correction.mem_of_mem_taken hc))
  obtain ⟨before', after', hframe⟩ := Correction.exists_frame hsource hne htidy hclear
  exact ⟨before, region, after, before', after', ⟨hsource, rfl, rfl⟩, hframe⟩

end Template

end LiquidLint
