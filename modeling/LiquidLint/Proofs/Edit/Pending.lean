import LiquidLint.Proofs.Edit.Disabled
import LiquidLint.Proofs.Edit.Safety

/-!
# What is left to correct in a template

A correction is pending when one of the correcting checks attaches it to something that no comment
turns off. A pass applies all pending corrections of a template (`Template.Passes`), as far as they do
not overlap. How many passes a template can still change is bounded by `Template.passesLeft`:

* after any pass only `assign` tags are left to be removed (`Template.Settled`), since nothing is
  skipped in a tag but its removal;
* a pass over such a template removes at least one `assign` tag, and no pass adds one;
* a template without pending corrections stays as it is.
-/

namespace LiquidLint

open Correction (applyAll schedule)
open Liquid (Body Node)

/-- Whether the comments of a template turn a check off at an offset. -/
def Template.isDisabled (t : Template) (check : String) (x : Nat) : Bool :=
  match t.root with
  | .ok root => (DisabledRanges.ofTemplate root t.source).isDisabled check x
  | .error _ => false

/-- The corrections of a template that no comment turns off. -/
def Template.pending (t : Template) : List Correction :=
  correctingChecks.flatMap fun c =>
    ((c.run t.events).2.filter fun f => !t.isDisabled c.name f.location.start).filterMap
      (·.correction)

/-- Only `assign` tags are left to be removed. -/
def Template.Settled (t : Template) : Prop := ∀ c ∈ t.pending, c.text = ""

instance (t : Template) : Decidable t.Settled := inferInstanceAs (Decidable (∀ c ∈ t.pending, _))

/-- The number of `assign` tags of a template. -/
def Template.assigns (t : Template) : Nat :=
  match t.root with
  | .ok root => root.descendants.countP (·.typeName == "assign")
  | .error _ => 0

/-- A bound for the number of passes that still change a template. -/
def Template.passesLeft (t : Template) : Nat :=
  if t.pending = [] then 0 else if t.Settled then t.assigns else t.assigns + 1

theorem Template.mem_pending {t : Template} {c : Correction} :
    c ∈ t.pending ↔ ∃ check ∈ correctingChecks, ∃ f ∈ (check.run t.events).2,
      t.isDisabled check.name f.location.start = false ∧ f.correction = some c := by
  simp only [Template.pending, List.mem_flatMap, List.mem_filterMap, List.mem_filter,
    Bool.not_eq_true']
  constructor
  · rintro ⟨check, hcheck, f, ⟨hf, hon⟩, hc⟩
    exact ⟨check, hcheck, f, hf, hon, hc⟩
  · rintro ⟨check, hcheck, f, hf, hon, hc⟩
    exact ⟨check, hcheck, f, ⟨hf, hon⟩, hc⟩

/-- Correcting checks report nothing about a template that does not parse. -/
theorem run_of_error {t : Template} {e : Liquid.ParseError} (h : t.root = .error e) :
    ∀ c ∈ correctingChecks, (c.run t.events).2 = [] := by
  intro c hc
  rw [Template.events_of_error h]
  simp only [correctingChecks, List.mem_cons, List.not_mem_nil, or_false] at hc
  rcases hc with rfl | rfl | rfl <;> rfl

theorem Template.pending_of_error {t : Template} {e : Liquid.ParseError} (h : t.root = .error e) :
    t.pending = [] := by
  rw [List.eq_nil_iff_forall_not_mem]
  intro c hc
  obtain ⟨check, hcheck, f, hf, -⟩ := Template.mem_pending.1 hc
  rw [run_of_error h check hcheck] at hf
  cases hf

namespace Edit

/-! ### Pending corrections and sites -/

/-- A check is on unless it has been turned off by its name or together with all others. -/
def unlessOff : Off → String → Bool := fun off check => !(off none || off (some check))

/-- Nothing is off before a template. -/
def nothing : Off := fun _ => false

variable {t : Template} {b : Body} {c : Correction}

theorem isDisabled_eq (hroot : t.root = .ok b.document) (hsource : b.spell = t.source)
    (hfits : b.Fits none) {s : Site} {x : Nat} (hs : s ∈ sites nothing 0 b) (hstart : s.start ≤ x)
    (hstop : x < s.stop)
    (hown : ∀ m, s.piece = .tag m → Liquid.nameOf m = "comment" → s.start < x) (check : String) :
    t.isDisabled check x = !unlessOff s.off check := by
  unfold Template.isDisabled unlessOff
  rw [hroot, ← hsource, Bool.not_not]
  exact isDisabled_of_mem_sites hfits hs hstart hstop hown check

/-- White space is reported inside a site, where the comments say what the site says. -/
theorem isDisabled_of_spaces (hroot : t.root = .ok b.document) (hsource : b.spell = t.source)
    (hfits : b.Fits none) {s : Site} (hs : s ∈ sites nothing 0 b) (h : s.Spaces c)
    (check : String) : t.isDisabled check c.range.start = !unlessOff s.off check := by
  have hbounds := h.bounds
  have hown : ∀ m, s.piece = .tag m → Liquid.nameOf m = "comment" → s.start < c.range.start := by
    intro m _ _
    omega
  exact isDisabled_eq hroot hsource hfits hs (by omega) (by omega) hown check

/-- Names are reported at the start of a site that is no comment. -/
theorem isDisabled_of_renames (hroot : t.root = .ok b.document) (hsource : b.spell = t.source)
    (hfits : b.Fits none) {s : Site} (hs : s ∈ sites nothing 0 b) (h : s.Renames c)
    (check : String) : t.isDisabled check s.start = !unlessOff s.off check := by
  have hbounds := h.bounds
  have hown : ∀ m, s.piece = .tag m → Liquid.nameOf m = "comment" → s.start < s.start := by
    intro m hm hcomment
    rw [Site.Renames, hm] at h
    rw [h.1] at hcomment
    exact absurd hcomment (by decide)
  exact isDisabled_eq hroot hsource hfits hs (Nat.le_refl _) (by omega) hown check

/-- Every pending correction belongs to a site where its check is on. -/
theorem exists_site_of_mem_pending (hroot : t.root = .ok b.document) (hsource : b.spell = t.source)
    (hfits : b.Fits none) (hc : c ∈ t.pending) :
    ∃ s ∈ sites nothing 0 b, s.Owns unlessOff c ∧
      ∃ check x, s.start ≤ x ∧ x < s.stop ∧ t.isDisabled check x = false := by
  obtain ⟨check, hcheck, f, hf, hon, hc⟩ := Template.mem_pending.1 hc
  simp only [correctingChecks, List.mem_cons, List.not_mem_nil, or_false] at hcheck
  -- each of the three checks has sites of its own, and an offense that is not disabled starts in
  -- one
  rcases hcheck with rfl | rfl | rfl
  · obtain ⟨s, hs, h, hx⟩ := (exists_spacing_iff nothing hroot hfits hsource).1 ⟨f, hf, hc, rfl⟩
    have hbounds := h.bounds
    have hx' : s.start ≤ f.location.start ∧ f.location.start < s.stop := by omega
    refine ⟨s, hs, Or.inl (Or.inl ⟨?_, h⟩), _, _, hx'.1, hx'.2, hon⟩
    rw [← hx, isDisabled_of_spaces hroot hsource hfits hs h] at hon
    simpa using hon
  · obtain ⟨s, hs, d, hd, h, hx⟩ := exists_drop_of_mem_run nothing hroot hfits hf
    rw [hc] at hd
    obtain rfl := Option.some.inj hd
    have howns : s.Owns unlessOff c := Or.inr h
    have hbounds := howns.bounds
    exact ⟨s, hs, howns, _, _, by omega, by omega, hon⟩
  · obtain ⟨s, hs, h, hx⟩ := (exists_outdated_iff nothing hroot hfits hsource).1 ⟨f, hf, hc, rfl⟩
    have hbounds := h.bounds
    refine ⟨s, hs, Or.inl (Or.inr ⟨?_, h⟩), _, _, by omega, by omega, hon⟩
    rw [← hx, isDisabled_of_renames hroot hsource hfits hs h] at hon
    simpa using hon

theorem edited_of_pending (hroot : t.root = .ok b.document) (hsource : b.spell = t.source)
    (hfits : b.Fits none) {cs : List Correction} (hcs : ∀ c ∈ cs, c ∈ t.pending) :
    Edited unlessOff (sites nothing 0 b) cs := by
  intro c hc
  obtain ⟨s, hs, howns, -⟩ := exists_site_of_mem_pending hroot hsource hfits (hcs c hc)
  exact ⟨s, hs, howns⟩

/-- Every fix of a site where its check is on is pending. -/
theorem mem_pending_of_fix (hroot : t.root = .ok b.document) (hsource : b.spell = t.source)
    (hfits : b.Fits none) {s : Site} (hs : s ∈ sites nothing 0 b) (h : s.Fix unlessOff c) :
    c ∈ t.pending := by
  rw [Template.mem_pending]
  rcases h with ⟨hon, h⟩ | ⟨hon, h⟩
  · obtain ⟨f, hf, hc, hx⟩ :=
      (exists_spacing_iff nothing hroot hfits hsource).2 ⟨s, hs, h, rfl⟩
    refine ⟨.spaceInsideBraces, by simp [correctingChecks], f, hf, ?_, hc⟩
    rw [hx, isDisabled_of_spaces hroot hsource hfits hs h, hon]
    rfl
  · obtain ⟨f, hf, hc, hx⟩ :=
      (exists_outdated_iff nothing hroot hfits hsource).2 ⟨s, hs, h, rfl⟩
    refine ⟨.convertIncludeToRender, by simp [correctingChecks], f, hf, ?_, hc⟩
    rw [hx, isDisabled_of_renames hroot hsource hfits hs h, hon]
    rfl

theorem Site.Fix.text_ne {on : Off → String → Bool} {s : Site} (h : s.Fix on c) : c.text ≠ "" := by
  rcases h with ⟨-, h⟩ | ⟨-, h⟩
  · rw [h.text_eq]
    decide
  · obtain ⟨off, start, piece⟩ := s
    cases piece with
    | output m => cases h
    | ending m => cases h
    | tag m =>
      rw [h.2]
      exact (by decide : "render" ≠ "")

theorem Site.Drop.text_eq {s : Site} (h : s.Drop c) : c.text = "" := by
  obtain ⟨off, start, piece⟩ := s
  cases piece with
  | output m => cases h
  | ending m => cases h
  | tag m => rw [h.2]; rfl

/-! ### Joined texts and counted tags -/

theorem after_glue (b : Body) (off : Off) : after off b.glue = after off b := by
  induction b generalizing off with
  | nil => rfl
  | text chars r ih =>
    rcases Body.glue_text chars r with ⟨more, rest, hr, hglue⟩ | ⟨-, hglue⟩
    · rw [hglue, after, after, ← ih, hr, after]
    · rw [hglue, after, after, ih]
  | output m r ih => exact ih off
  | tag m r ih => exact ih off
  | raw m chars close r ih => rw [Body.glue, after, after, ih]
  | block m inner close r ihi ih => rw [Body.glue, after, after, ihi, ih]

/-- Joining texts moves no site. -/
theorem sites_glue (b : Body) (off : Off) (offset : Nat) :
    sites off offset b.glue = sites off offset b := by
  induction b generalizing off offset with
  | nil => rfl
  | text chars r ih =>
    rcases Body.glue_text chars r with ⟨more, rest, hr, hglue⟩ | ⟨-, hglue⟩
    · have := ih off (offset + chars.size)
      rw [hr, sites] at this
      rw [hglue, sites, sites, Text.size_append, ← Nat.add_assoc, this]
    · rw [hglue, sites, sites, ih]
  | output m r ih => rw [Body.glue, sites, sites, ih]
  | tag m r ih => rw [Body.glue, sites, sites, ih]
  | raw m chars close r ih => rw [Body.glue, sites, sites, ih]
  | block m inner close r ihi ih =>
    rw [Body.glue, sites, sites, ihi, ih, after_glue, Body.spell_glue]

theorem assigns_glue (b : Body) : assigns b.glue = assigns b := by
  induction b with
  | nil => rfl
  | text chars r ih =>
    rcases Body.glue_text chars r with ⟨more, rest, hr, hglue⟩ | ⟨-, hglue⟩
    · rw [hglue, assigns, assigns, ← ih, hr, assigns]
    · rw [hglue, assigns, assigns, ih]
  | output m r ih => exact ih
  | tag m r ih => rw [Body.glue, assigns, assigns, ih]
  | raw m chars close r ih => exact ih
  | block m inner close r ihi ih => rw [Body.glue, assigns, assigns, ihi, ih]

/-- The `assign` tags of a body are the nodes of that name. -/
theorem countP_layout {parent : Option String} (hfits : b.Fits parent) (offset : Nat) :
    (Node.descendantsOf (b.layout offset)).countP (·.typeName == "assign") = assigns b := by
  have hcons : ∀ (n : Node) (ns : List Node),
      (Node.descendantsOf (n :: ns)).countP (·.typeName == "assign") =
        (if n.typeName = "assign" then 1 else 0) +
          (Node.descendantsOf n.children).countP (·.typeName == "assign") +
          (Node.descendantsOf ns).countP (·.typeName == "assign") := by
    rintro ⟨kind, span, markup, children⟩ ns
    rw [Node.descendantsOf, Node.descendants, List.cons_append, List.countP_cons,
      List.countP_append]
    simp only [beq_iff_eq]
    omega
  induction b generalizing parent offset with
  | nil => rfl
  | text chars r ih =>
    rw [Body.layout, hcons, ih hfits, assigns, if_neg (by exact (by decide : "text" ≠ "assign"))]
    exact Nat.zero_add _
  | output m r ih =>
    rw [Body.layout, hcons, ih hfits, assigns,
      if_neg (by exact (by decide : "variable" ≠ "assign"))]
    exact Nat.zero_add _
  | tag m r ih =>
    rw [Body.layout, hcons, ih hfits.2, assigns, Node.descendantsOf, List.countP_nil, Nat.add_zero]
    rfl
  | raw m chars close r ih =>
    have hname : Liquid.nameOf m ≠ "assign" := by
      intro h
      exact absurd (h ▸ hfits.1) (by decide)
    rw [Body.layout, hcons, ih hfits.2, assigns, if_neg (by exact hname)]
    have htext : (Node.descendantsOf (if chars.isEmpty then [] else
        [⟨.text, ⟨offset + 2 + m.size + 2, offset + 2 + m.size + 2 + chars.size⟩,
          ⟨offset + 2 + m.size + 2, offset + 2 + m.size + 2 + chars.size⟩, []⟩])).countP
        (·.typeName == "assign") = 0 := by
      split
      · rfl
      · rw [hcons, if_neg (by exact (by decide : "text" ≠ "assign"))]
        rfl
    rw [htext, Nat.zero_add]
  | block m inner close r ihi ih =>
    have hname : Liquid.nameOf m ≠ "assign" := by
      intro h
      exact absurd (h ▸ hfits.1) (by decide)
    rw [Body.layout, hcons, ihi hfits.2.2.1, ih hfits.2.2.2, assigns, if_neg (by exact hname),
      Nat.zero_add]

theorem assigns_of_root (hroot : t.root = .ok b.document) (hfits : b.Fits none) :
    t.assigns = assigns b := by
  unfold Template.assigns
  rw [hroot]
  exact countP_layout hfits 0

end Edit

/-! ### Passes over a template -/

theorem Correction.applyAll_nil (source : Text) : applyAll source [] = .start source := by
  unfold applyAll schedule
  rw [List.mergeSort_nil]
  rfl

namespace Template

variable {t t' : Template} {cs : List Correction}

/-- A pass over a template applies all corrections that are pending, and no others. -/
def Passes (t t' : Template) : Prop :=
  ∃ cs, (∀ c, c ∈ cs ↔ c ∈ t.pending) ∧ t' = t.setSource (applyAll t.source cs).text

theorem eq_nil_iff_pending (hcs : ∀ c, c ∈ cs ↔ c ∈ t.pending) : cs = [] ↔ t.pending = [] := by
  simp only [List.eq_nil_iff_forall_not_mem, hcs]

/-- What a pass makes of a template that parses. -/
theorem Passes.of_root {root : Node} (hroot : t.root = .ok root) (h : t.Passes t') :
    t'.Settled ∧ t'.assigns ≤ t.assigns ∧
      (t.Settled → t.pending ≠ [] → t'.assigns < t.assigns) := by
  obtain ⟨cs, hcs, rfl⟩ := h
  obtain ⟨b, rfl, hsource, hfits, hsound⟩ := t.exists_body hroot
  have hsites := Edit.edited_of_pending hroot hsource hfits fun c hc => (hcs c).1 hc
  obtain ⟨b', h, htext, -, hparse⟩ := Edit.exists_outcome hfits hsound hsites
  rw [hsource] at htext
  have hroot' : (t.setSource (applyAll t.source cs).text).root = .ok b'.glue.document := by
    rw [htext]
    exact hparse
  have hsource' : b'.glue.spell = (t.setSource (applyAll t.source cs).text).source := by
    rw [Body.spell_glue, htext]
    rfl
  have hfits' : b'.glue.Fits none := Body.fits_glue (h.mends.fits hfits)
  have hassigns : t.assigns = Edit.assigns b := Edit.assigns_of_root hroot hfits
  have hassigns' : (t.setSource (applyAll t.source cs).text).assigns = Edit.assigns b' := by
    rw [Edit.assigns_of_root hroot' hfits', Edit.assigns_glue]
  rw [hassigns, hassigns']
  refine ⟨fun c hc => ?_, h.mends.assigns_le, fun hsettled hne => h.fewer (fun c hc => ?_) ?_⟩
  · -- all fixes were among the corrections, so none is left
    obtain ⟨s, hs, howns, -⟩ := Edit.exists_site_of_mem_pending hroot' hsource' hfits' hc
    rw [Edit.sites_glue] at hs
    have hclean : Edit.Cleaned Edit.unlessOff Edit.nothing b' := by
      refine h.clean fun c s hs hfix => Correction.mem_schedule.2 ((hcs c).2 ?_)
      exact Edit.mem_pending_of_fix hroot hsource hfits hs hfix
    exact (howns.resolve_left (hclean 0 s hs c)).text_eq
  · have hc' := (hcs c).1 (Correction.mem_schedule.1 hc)
    obtain ⟨s, hs, howns, -⟩ := Edit.exists_site_of_mem_pending hroot hsource hfits hc'
    exact ⟨s, hs, howns.resolve_left fun hfix => hfix.text_ne (hsettled c hc')⟩
  · intro hnil
    apply hne
    rw [List.eq_nil_iff_forall_not_mem]
    intro c hc
    have hin : c ∈ schedule cs := Correction.mem_schedule.2 ((hcs c).2 hc)
    rw [hnil] at hin
    cases hin

/-- Without pending corrections a pass changes nothing. -/
theorem Passes.eq_of_pending (h : t.Passes t') (hnil : t.pending = []) : t' = t := by
  obtain ⟨cs, hcs, rfl⟩ := h
  rw [(eq_nil_iff_pending hcs).2 hnil, Correction.applyAll_nil]
  rfl

/-- **A pass applies something exactly when something is pending.** -/
theorem applied_eq_zero_iff (hcs : ∀ c, c ∈ cs ↔ c ∈ t.pending) :
    (applyAll t.source cs).applied = 0 ↔ t.pending = [] := by
  rw [← eq_nil_iff_pending hcs]
  cases hroot : t.root with
  | error e =>
    have hnil := (eq_nil_iff_pending hcs).2 (pending_of_error hroot)
    rw [hnil, Correction.applyAll_nil]
    exact iff_of_true rfl rfl
  | ok root =>
    obtain ⟨b, rfl, hsource, hfits, hsound⟩ := t.exists_body hroot
    have hsites := Edit.edited_of_pending hroot hsource hfits fun c hc => (hcs c).1 hc
    obtain ⟨b', -, -, happlied, -⟩ := Edit.exists_outcome hfits hsound hsites
    rwa [hsource] at happlied

theorem passesLeft_le (t : Template) : t.passesLeft ≤ t.assigns + 1 := by
  unfold passesLeft
  split
  · omega
  · split
    · omega
    · omega

theorem passesLeft_eq_zero_iff : t.passesLeft = 0 ↔ t.pending = [] := by
  by_cases hnil : t.pending = []
  · refine iff_of_true ?_ hnil
    unfold passesLeft
    rw [if_pos hnil]
  · refine iff_of_false ?_ hnil
    unfold passesLeft
    rw [if_neg hnil]
    by_cases hsettled : t.Settled
    · -- a pass would remove an `assign` tag, so there is one
      rw [if_pos hsettled]
      cases hroot : t.root with
      | error e => exact absurd (pending_of_error hroot) hnil
      | ok root =>
        have hfewer := (Passes.of_root hroot ⟨t.pending, fun _ => Iff.rfl, rfl⟩).2.2 hsettled hnil
        omega
    · rw [if_neg hsettled]
      exact Nat.succ_ne_zero _

/-- **Passes come to an end**: each one leaves fewer of them, as long as there are any. -/
theorem Passes.passesLeft_le (h : t.Passes t') : t'.passesLeft ≤ t.passesLeft - 1 := by
  by_cases hnil : t.pending = []
  · have hzero := passesLeft_eq_zero_iff.2 hnil
    rw [h.eq_of_pending hnil]
    omega
  · -- something is pending, so the template parses and the pass changes it
    cases hroot : t.root with
    | error e => exact absurd (pending_of_error hroot) hnil
    | ok root =>
      obtain ⟨hsettled, hle, hfewer⟩ := h.of_root hroot
      have hleft : t'.passesLeft ≤ t'.assigns := by
        unfold passesLeft
        rw [if_pos hsettled]
        split
        · exact Nat.zero_le _
        · exact Nat.le_refl _
      -- a settled template loses an assignment
      by_cases hbefore : t.Settled
      · have hlt := hfewer hbefore hnil
        have heq : t.passesLeft = t.assigns := by
          unfold passesLeft
          rw [if_neg hnil, if_pos hbefore]
        omega
      · have heq : t.passesLeft = t.assigns + 1 := by
          unfold passesLeft
          rw [if_neg hnil, if_neg hbefore]
        omega

end Template

end LiquidLint
