import LiquidLint.Proofs.Correction.Taken

/-!
# All edits at once

Edits are applied one after the other, and each changes the text under those that follow. Their offsets
are those of the source all the same: edits are tried from the highest offset down, so the text before
the last one that was applied is still that of the source (`Patch.Reflects`).

`Replaced` says what it means to apply edits at once: the source is read from left to right, and each
part that an edit takes away gives place to its text. Main statement: `applyAll` applies the edits that
are clear of those accepted before them, and its text is the source with all of these applied at once
(`applyAll_at_once`).
-/

namespace LiquidLint.Correction

open Patch (edit)

variable {source : Text} {done L : List Correction} {c : Correction} {P : Patch}

/-! ### Which edits are accepted -/

/-- The range of an edit is in order, lies between characters of the source and ends before every range
of `done` starts. -/
def Clear (source : Text) (done : List Correction) (c : Correction) : Prop :=
  c.range.start ≤ c.range.stop ∧ source.isBoundary c.range.start = true ∧
    source.isBoundary c.range.stop = true ∧ ∀ d ∈ done, c.range.stop ≤ d.range.start

instance (source : Text) (done : List Correction) (c : Correction) : Decidable (c.Clear source done) :=
  inferInstanceAs (Decidable (_ ∧ _ ∧ _ ∧ _))

/-- The accepted edits when `c` is tried after `done` have been accepted, newest first. -/
def accept (source : Text) (done : List Correction) (c : Correction) : List Correction :=
  if c.Clear source done then c :: done else done

/-- The edits of a list that are clear of all that are accepted before them, newest first. -/
def accepted (source : Text) (L : List Correction) : List Correction := L.foldl (accept source) []

/-! ### What edits do at once -/

/-- The edits `cs`, from left to right, turn a part `t` of the source that stands at `offset` into `t'`:
what an edit takes away gives place to its text, and everything else is kept. -/
inductive Replaced : Nat → List Correction → Text → Text → Prop
  /-- Without edits all is kept. -/
  | rest (offset : Nat) (t : Text) : Replaced offset [] t t
  /-- The first edit takes `gone` away, which stands behind `kept`. -/
  | edit {offset : Nat} {c : Correction} {cs : List Correction} {kept gone t t' : Text} :
      c.range = ⟨offset + kept.size, offset + kept.size + gone.size⟩ → Replaced c.range.stop cs t t' →
      Replaced offset (c :: cs) (kept ++ (gone ++ t)) (kept ++ (c.text.toList ++ t'))

namespace Replaced

variable {offset : Nat} {cs : List Correction} {a t t' u : Text}

/-- What stands before all edits is kept. -/
theorem keep (h : Replaced (offset + a.size) cs t t') : Replaced offset cs (a ++ t) (a ++ t') := by
  cases h with
  | rest => exact .rest offset (a ++ t)
  | @edit _ c _ kept gone t t' hrange hrest =>
    rw [← List.append_assoc, ← List.append_assoc a]
    refine .edit ?_ hrest
    rw [hrange, Text.size_append]
    congr 1 <;> omega

/-- **Edits at once have one outcome.** -/
theorem unique (h : Replaced offset cs t t') (h' : Replaced offset cs t u) : t' = u := by
  induction h generalizing u with
  | rest => cases h'; rfl
  | @edit offset c cs kept gone t t' hrange _ ih =>
    generalize hs : kept ++ (gone ++ t) = s at h'
    cases h' with
    | @edit _ _ _ kept' gone' r r' hrange' hrest' =>
      -- the range of the edit says where both outcomes are cut
      have hspan := hrange.symm.trans hrange'
      simp only [Span.mk.injEq] at hspan
      obtain ⟨g, hkept, hg⟩ := Text.exists_append_of_size_le hs (by omega)
      obtain rfl : g = [] := by
        apply Text.eq_nil_of_size
        have := congrArg Text.size hkept
        rw [Text.size_append] at this
        omega
      rw [List.append_nil] at hkept
      rw [List.nil_append] at hg
      obtain ⟨m, hgone, hm⟩ := Text.exists_append_of_size_le hg (by omega)
      obtain rfl : m = [] := by
        apply Text.eq_nil_of_size
        have := congrArg Text.size hgone
        rw [Text.size_append] at this
        omega
      rw [List.nil_append] at hm
      rw [hkept, ih (hm ▸ hrest')]

end Replaced

/-! ### One edit after the other -/

namespace Patch

/-- The accepted edits `done`, newest first, are what a patch has applied: they lie apart, the text
before the limit is untouched, and what stands behind it has been replaced by all of them at once. -/
structure Reflects (source : Text) (done : List Correction) (P : Patch) : Prop where
  ordered : ∀ d ∈ done, d.range.start ≤ d.range.stop
  apart : done.Pairwise fun c d => c.range.stop ≤ d.range.start
  le_start : ∀ d ∈ done, P.limit ≤ d.range.start
  limit : P.limit = source.size ∨ ∃ d ∈ done, d.range.start = P.limit
  text : ∃ kept rest settled, source = kept ++ rest ∧ kept.size = P.limit ∧
    P.text = kept ++ settled ∧ Replaced P.limit done rest settled
  applied : P.applied = done.length

theorem reflects_start (source : Text) : (start source).Reflects source [] where
  ordered := by simp
  apart := List.Pairwise.nil
  le_start := by simp
  limit := .inl rfl
  text := ⟨source, [], [], by simp, rfl, by simp [start], .rest _ _⟩
  applied := rfl

/-- **An edit is applied** exactly when it is clear of all that are applied. -/
theorem Reflects.accepts_iff (h : P.Reflects source done) :
    P.accepts source c = true ↔ c.Clear source done := by
  rw [Patch.accepts_iff]
  constructor
  · rintro ⟨⟨-, hle, hlimit⟩, hstart, hstop⟩
    refine ⟨hle, hstart, hstop, fun d hd => ?_⟩
    have := h.le_start d hd
    omega
  · rintro ⟨hle, hstart, hstop, hclear⟩
    refine ⟨⟨Nat.zero_le _, hle, ?_⟩, hstart, hstop⟩
    rcases h.limit with hsize | ⟨d, hd, hlimit⟩
    · obtain ⟨l, r, rfl, hl⟩ := Text.isBoundary_iff.1 hstop
      rw [hsize, Text.size_append]
      omega
    · rw [← hlimit]
      exact hclear d hd

/-- The untouched part of a patch is cut by the range of an edit that is clear. -/
theorem Reflects.exists_cut (h : P.Reflects source done) (hc : c.Clear source done) :
    ∃ kept gone between rest settled, source = kept ++ (gone ++ (between ++ rest)) ∧
      P.text = kept ++ (gone ++ (between ++ settled)) ∧ kept.size = c.range.start ∧
      c.range.start + gone.size = c.range.stop ∧ c.range.stop + between.size = P.limit ∧
      Replaced P.limit done rest settled := by
  obtain ⟨⟨-, hle, hlimit⟩, hstart, hstop⟩ := Patch.accepts_iff.1 (h.accepts_iff.2 hc)
  obtain ⟨untouched, rest, settled, hsource, huntouched, htext, hreplaced⟩ := h.text
  obtain ⟨u, v, hu, husize⟩ := Text.isBoundary_iff.1 hstop
  obtain ⟨between, rfl, -⟩ := Text.exists_append_of_size_le (hu.symm.trans hsource) (by omega)
  obtain ⟨kept, v', hv, hkept⟩ := Text.isBoundary_iff.1 hstart
  obtain ⟨gone, rfl, -⟩ := Text.exists_append_of_size_le (hv.symm.trans hu) (by omega)
  simp only [Text.size_append] at husize huntouched
  exact ⟨kept, gone, between, rest, settled, by simp [hsource], by simp [htext], hkept, by omega,
    by omega, hreplaced⟩

/-- **Edits fall on the text as it is now**: the ends of an edit that is clear lie between characters
of the partly edited text. -/
theorem Reflects.isBoundary (h : P.Reflects source done) (hc : c.Clear source done) :
    P.text.isBoundary c.range.start = true ∧ P.text.isBoundary c.range.stop = true := by
  obtain ⟨kept, gone, between, rest, settled, -, htext, hkept, hgone, -⟩ := h.exists_cut hc
  constructor
  · exact Text.isBoundary_iff.2 ⟨kept, gone ++ (between ++ settled), htext, hkept⟩
  · refine Text.isBoundary_iff.2 ⟨kept ++ gone, between ++ settled, by simp [htext], ?_⟩
    rw [Text.size_append]
    omega

/-- **One edit.** -/
theorem Reflects.edit (h : P.Reflects source done) (c : Correction) :
    (edit source P c).Reflects source (accept source done c) := by
  by_cases hc : c.Clear source done
  · -- the text up to the limit is still that of the source, and the edit cuts it in three
    obtain ⟨kept, gone, between, rest, settled, hsource, htext, hkept, hgone, hbetween, hreplaced⟩ :=
      h.exists_cut hc
    obtain ⟨hle, hstart, hstop, hclear⟩ := hc
    have hedit := edit_append (c := c) htext hkept.symm (by omega) hstart hstop (by omega)
    rw [accept, if_pos ⟨hle, hstart, hstop, hclear⟩, hedit]
    -- what lies between the edit and the earlier ones is kept
    have hlater : Replaced c.range.stop done (between ++ rest) (between ++ settled) :=
      Replaced.keep (by rw [hbetween]; exact hreplaced)
    have hfirst : Replaced c.range.start (c :: done) ([] ++ (gone ++ (between ++ rest)))
        ([] ++ (c.text.toList ++ (between ++ settled))) := by
      refine .edit ?_ hlater
      rw [Text.size_nil, Nat.add_zero, hgone]
    exact {
      ordered := List.forall_mem_cons.2 ⟨hle, h.ordered⟩
      apart := List.pairwise_cons.2 ⟨hclear, h.apart⟩
      le_start := by
        refine List.forall_mem_cons.2 ⟨Nat.le_refl _, fun d hd => ?_⟩
        exact Nat.le_trans hle (hclear d hd)
      limit := .inr ⟨c, List.mem_cons_self .., rfl⟩
      text := ⟨kept, _, _, hsource, hkept, rfl, hfirst⟩
      applied := by rw [h.applied, List.length_cons] }
  · -- an edit that is not clear is skipped and leaves no trace
    rw [accept, if_neg hc, edit_of_not_accepts fun haccepts => hc (h.accepts_iff.1 haccepts)]
    exact ⟨h.ordered, h.apart, h.le_start, h.limit, h.text, h.applied⟩

/-- **A run of edits.** -/
theorem Reflects.foldl (h : P.Reflects source done) (L : List Correction) :
    (L.foldl (Patch.edit source) P).Reflects source (L.foldl (accept source) done) := by
  induction L generalizing P done with
  | nil => exact h
  | cons c L ih => exact ih (h.edit c)

/-- Each edit is either applied or skipped. -/
theorem counts_foldl (source : Text) (P : Patch) (L : List Correction) :
    (L.foldl (Patch.edit source) P).applied + (L.foldl (Patch.edit source) P).skipped =
      P.applied + P.skipped + L.length := by
  have hedit : ∀ (P : Patch) (c : Correction), (Patch.edit source P c).applied +
      (Patch.edit source P c).skipped = P.applied + P.skipped + 1 := by
    intro P c
    unfold Patch.edit
    split
    · split
      · exact Nat.add_right_comm ..
      · exact (Nat.add_assoc ..).symm
    · exact (Nat.add_assoc ..).symm
  induction L generalizing P with
  | nil => rfl
  | cons c L ih =>
    rw [List.foldl_cons, ih, hedit, List.length_cons]
    omega

end Patch

/-- **From the highest offset down is all at once.** The edits of a list are tried in the order of their
schedule. Each is applied exactly when its range is in order, lies between characters of the source and
ends before the ranges of all that were applied before it; then the range lies between characters of
the partly edited text too. So the applied edits lie apart, and the text that comes out is the source
with all of them applied at once. They are what is counted as applied, and the others as skipped. -/
theorem applyAll_at_once (source : Text) (cs : List Correction) :
    (∀ before c after, schedule cs = before ++ c :: after →
      let P := before.foldl (edit source) (.start source)
      (P.accepts source c = true ↔ c.Clear source (accepted source before)) ∧
      (P.accepts source c = true →
        P.text.isBoundary c.range.start = true ∧ P.text.isBoundary c.range.stop = true)) ∧
    (accepted source (schedule cs)).Pairwise (fun c d => c.range.stop ≤ d.range.start) ∧
    (∀ t, Replaced 0 (accepted source (schedule cs)) source t ↔ (applyAll source cs).text = t) ∧
    (applyAll source cs).applied = (accepted source (schedule cs)).length ∧
    (applyAll source cs).applied + (applyAll source cs).skipped = (schedule cs).length := by
  -- before every edit of the schedule, the patch reflects those accepted so far
  have hrun : ∀ L : List Correction,
      (L.foldl (edit source) (.start source)).Reflects source (accepted source L) :=
    fun L => (Patch.reflects_start source).foldl L
  refine ⟨fun before c after _ => ⟨(hrun before).accepts_iff, fun haccepts => ?_⟩, ?_, fun t => ?_,
    (hrun _).applied, ?_⟩
  · exact (hrun before).isBoundary ((hrun before).accepts_iff.1 haccepts)
  · exact (hrun _).apart
  · obtain ⟨kept, rest, settled, hsource, hkept, htext, hreplaced⟩ := (hrun (schedule cs)).text
    -- what is left in front of the last accepted edit is kept
    have hall : Replaced 0 (accepted source (schedule cs)) source (applyAll source cs).text := by
      rw [applyAll, htext]
      nth_rewrite 2 [hsource]
      exact Replaced.keep (by rwa [Nat.zero_add, hkept])
    exact ⟨hall.unique, fun heq => heq ▸ hall⟩
  · exact (Patch.counts_foldl source _ _).trans (Nat.zero_add _)

/-- Two insertions at the same place, an edit that ends where they stand and one that overlaps it. -/
example : (applyAll "abcdef".toList [.delete ⟨1, 3⟩, .insert 3 "x", .insert 3 "y",
    .replace ⟨2, 4⟩ "z"]).text = "ayxdef".toList := by
  cbv

end LiquidLint.Correction
