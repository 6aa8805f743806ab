import LiquidLint.Proofs.Correction.Taken
import LiquidLint.Proofs.Edit.Findings
import LiquidLint.Proofs.Edit.Round

/-!
# Corrections keep templates whole

Whatever part of the corrections of a template is applied, the result is a template again, and its
tree is the old one as `Mends` allows it to change, with texts joined where an `assign` tag between
them is gone: `parse_applyAll`.
-/

namespace LiquidLint

open Liquid (Body Node)

/-- The checks that attach corrections to what they report. -/
def correctingChecks : List Check :=
  [.spaceInsideBraces, .unusedAssign .empty, .convertIncludeToRender]

/-- The corrections that checks attach to what they report about a template. -/
def Template.corrections (t : Template) : List Correction :=
  correctingChecks.flatMap fun c => (c.run t.events).2.filterMap (·.correction)

/-- The tree of a template is the layout of a derivation. -/
theorem Template.exists_body {t : Template} {root : Node} (hroot : t.root = .ok root) :
    ∃ b : Body, root = b.document ∧ b.spell = t.source ∧ b.Fits none ∧ b.Sound false := by
  obtain ⟨b, hfits, hcuts, rfl⟩ := Liquid.exists_body_of_parse hroot
  exact ⟨b, rfl, Body.spell_of_cuts hcuts, hfits, Body.sound_of_source hcuts⟩

namespace Edit

/-- Every check is on, whatever comments say. -/
def always : Off → String → Bool := fun _ _ => true

/-- Every correction of a template belongs to one of its sites. -/
theorem exists_site_of_mem_corrections {t : Template} {b : Body} (off : Off)
    (hroot : t.root = .ok b.document) (hfits : b.Fits none) (hsource : b.spell = t.source)
    {c : Correction} (hc : c ∈ t.corrections) : ∃ s ∈ sites off 0 b, s.Owns always c := by
  simp only [Template.corrections, correctingChecks, List.mem_flatMap, List.mem_cons,
    List.not_mem_nil, or_false, List.mem_filterMap] at hc
  obtain ⟨check, rfl | rfl | rfl, f, hf, hc⟩ := hc
  · obtain ⟨s, hs, h, -⟩ := (exists_spacing_iff off hroot hfits hsource).1 ⟨f, hf, hc, rfl⟩
    exact ⟨s, hs, Or.inl (Or.inl ⟨rfl, h⟩)⟩
  · obtain ⟨s, hs, _, hc', h, -⟩ := exists_drop_of_mem_run off hroot hfits hf
    rw [hc] at hc'
    exact ⟨s, hs, Or.inr (Option.some.inj hc' ▸ h)⟩
  · obtain ⟨s, hs, h, -⟩ := (exists_outdated_iff off hroot hfits hsource).1 ⟨f, hf, hc, rfl⟩
    exact ⟨s, hs, Or.inl (Or.inr ⟨rfl, h⟩)⟩

/-- **A round of corrections of sites** leaves a template, of which `Outcome` says how it came about. -/
theorem exists_outcome {on : Off → String → Bool} {off : Off} {b : Body} {cs : List Correction}
    (hfits : b.Fits none) (hsound : b.Sound false)
    (hcs : ∀ c ∈ cs, ∃ s ∈ sites off 0 b, s.Owns on c) :
    ∃ b', Outcome on b.spell off 0 (Correction.schedule cs) b b' ∧
      (Correction.applyAll b.spell cs).text = b'.spell ∧
      ((Correction.applyAll b.spell cs).applied = 0 ↔ cs = []) ∧
      Liquid.parse b'.spell = .ok b'.glue.document := by
  have hedited : Edited on (sites off 0 b) (Correction.schedule cs) :=
    fun c hc => hcs c (Correction.mem_schedule.1 hc)
  have htidy : ∀ c ∈ cs, c.Tidy := by
    intro c hc
    obtain ⟨s, -, h⟩ := hcs c hc
    exact h.tidy
  obtain ⟨b', h⟩ := settles_body hfits (Text.stands_self b.spell) _
    (Correction.pairwise_schedule htidy) hedited
  obtain ⟨htext, happlied⟩ := h.runs.applyAll
  exact ⟨b', h, htext, happlied, Body.parse_spell (h.mends.sound hsound) (h.mends.fits hfits)⟩

/-- A correction of a site has a place in the source. -/
theorem fits_of_owns {on : Off → String → Bool} {off : Off} {b : Body} {c : Correction}
    (hfits : b.Fits none) (hsound : b.Sound false) {s : Site} (hs : s ∈ sites off 0 b)
    (h : s.Owns on c) : c.Fits b.spell b.spell.size := by
  -- on its own it is applied, so it is one of those that are taken
  have howns : ∀ d ∈ [c], ∃ s ∈ sites off 0 b, s.Owns on d := by
    intro d hd
    exact ⟨s, hs, by rwa [List.mem_singleton.1 hd]⟩
  obtain ⟨-, -, -, happlied, -⟩ := exists_outcome hfits hsound howns
  rw [Correction.applied_applyAll, List.length_eq_zero_iff] at happlied
  obtain ⟨d, hd⟩ := List.exists_mem_of_ne_nil _ fun hnone => List.cons_ne_nil c [] (happlied.1 hnone)
  have hsame := List.mem_singleton.1 (Correction.mem_of_mem_taken hd)
  exact hsame ▸ Correction.fits_of_mem_taken hd

end Edit

/-- **Corrections keep templates whole**: any of the corrections of a template that parses can be
applied, and the result parses. Its tree is the old one with white space of markup changed, `include`
tags renamed and `assign` tags left out, and with texts joined that are neighbours now. -/
theorem parse_applyAll {t : Template} {root : Node} (hroot : t.root = .ok root)
    {cs : List Correction} (hcs : ∀ c ∈ cs, c ∈ t.corrections) :
    ∃ b b' : Body, t.source = b.spell ∧ root = b.document ∧ Edit.Mends b b' ∧
      (Correction.applyAll t.source cs).text = b'.spell ∧
      Liquid.parse (Correction.applyAll t.source cs).text = .ok b'.glue.document := by
  obtain ⟨b, rfl, hsource, hfits, hsound⟩ := t.exists_body hroot
  have hsites : ∀ c ∈ cs, ∃ s ∈ Edit.sites (fun _ => false) 0 b, s.Owns Edit.always c :=
    fun c hc => Edit.exists_site_of_mem_corrections _ hroot hfits hsource (hcs c hc)
  obtain ⟨b', h, htext, -, hparse⟩ := Edit.exists_outcome hfits hsound hsites
  rw [hsource] at htext
  exact ⟨b, b', hsource.symm, rfl, h.mends, htext, by rw [htext]; exact hparse⟩

/-- Two of the corrections of a template: the `assign` tag between two texts goes, and a space is put
in. -/
theorem parse_applyAll_joined :
    let source :=
      "a\x7b% assign x = 1 %\x7db\x7b%if y%\x7d\x7b\x7b y|upcase:2\x7d\x7d\x7b% endif %\x7d".toList
    let cs : List Correction := [.delete ⟨1, 19⟩, .insert 22 " "]
    ∃ root, Liquid.parse source = .ok root ∧ ∃ b b' : Body, source = b.spell ∧ root = b.document ∧
      Edit.Mends b b' ∧ (Correction.applyAll source cs).text = b'.spell ∧
      Liquid.parse (Correction.applyAll source cs).text = .ok b'.glue.document := by
  intro source cs
  obtain ⟨root, hroot⟩ := Liquid.exists_parse source (by decide +kernel)
  have hcs : ∀ c ∈ cs, c ∈ Template.corrections ⟨⟨⟨"a.liquid"⟩, source⟩, ⟨"a.liquid"⟩⟩ := by
    decide +kernel
  exact ⟨root, hroot, parse_applyAll (t := ⟨⟨⟨"a.liquid"⟩, source⟩, ⟨"a.liquid"⟩⟩) hroot hcs⟩

end LiquidLint
