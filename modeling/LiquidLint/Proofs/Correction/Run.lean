import LiquidLint.Proofs.Correction.Patch

/-!
# Runs of edits over a part of a text

`Runs source L offset t t'` says that the edits `L` turn the part `t` at `offset` into `t'`, whatever
stands before and after it, and touch nothing else. Runs over neighbouring parts make up a run over
both (`Runs.append`): the edits of the later part come first in a schedule, so they are done when
those of the earlier part begin. `exists_parts` takes a schedule apart for that, and `Runs.applyAll`
is what a run over the whole source means.
-/

namespace LiquidLint.Correction

open Patch (edit)

variable {source s s' t t' : Text} {L L₁ L₂ : List Correction} {offset : Nat}

/-! ### Parts of a schedule -/

/-- **Taking a schedule apart**: edits of two kinds, of which one lies from an offset on and the other
before it, come one kind after the other. -/
theorem exists_parts {A B : Correction → Prop} (hL : L.Pairwise Before)
    (hmem : ∀ c ∈ L, A c ∨ B c) (hA : ∀ c, A c → c.range.start < offset)
    (hB : ∀ c, B c → offset ≤ c.range.start) :
    ∃ L₁ L₂, L = L₁ ++ L₂ ∧ L₁.Pairwise Before ∧ L₂.Pairwise Before ∧
      (∀ c, c ∈ L₁ ↔ c ∈ L ∧ B c) ∧ ∀ c, c ∈ L₂ ↔ c ∈ L ∧ A c := by
  -- the list is cut at the offset, and there is nothing else that could tell the two kinds apart
  obtain ⟨L₁, L₂, rfl, h1, h2⟩ := exists_split hL offset
  obtain ⟨hL₁, hL₂, -⟩ := List.pairwise_append.1 hL
  refine ⟨L₁, L₂, rfl, hL₁, hL₂, fun c => ⟨fun hc => ?_, ?_⟩, fun c => ⟨fun hc => ?_, ?_⟩⟩
  · have hc' := List.mem_append_left L₂ hc
    refine ⟨hc', (hmem c hc').resolve_left fun ha => ?_⟩
    have := hA c ha
    have := h1 c hc
    omega
  · rintro ⟨hc, hb⟩
    refine (List.mem_append.1 hc).resolve_right fun hc => ?_
    have := hB c hb
    have := h2 c hc
    omega
  · have hc' := List.mem_append_right L₁ hc
    refine ⟨hc', (hmem c hc').resolve_right fun hb => ?_⟩
    have := hB c hb
    have := h2 c hc
    omega
  · rintro ⟨hc, ha⟩
    refine (List.mem_append.1 hc).resolve_left fun hc => ?_
    have := hA c ha
    have := h1 c hc
    omega

/-! ### Runs -/

/-- The edits `L` turn the part `t` at `offset` into `t'`, as long as nothing before its end is
settled. At least one of them is applied when there are some, and then the part is settled from
somewhere inside it on. -/
def Runs (source : Text) (L : List Correction) (offset : Nat) (t t' : Text) : Prop :=
  ∀ (P : Patch) (pre z : Text), P.text = pre ++ (t ++ z) → offset = pre.size →
    offset + t.size ≤ P.limit →
    (L.foldl (edit source) P).text = pre ++ (t' ++ z) ∧
      offset ≤ (L.foldl (edit source) P).limit ∧
      (L ≠ [] → P.applied < (L.foldl (edit source) P).applied ∧
        (L.foldl (edit source) P).limit ≤ offset + t.size)

theorem Runs.nil : Runs source [] offset t t := by
  intro P pre z htext _ hlimit
  exact ⟨htext, by simp only [List.foldl_nil]; omega, fun h => absurd rfl h⟩

/-- Without edits nothing changes. -/
theorem Runs.eq_of_nil (h : Runs source [] offset t t') (ht : Text.Stands source offset t) :
    t' = t := by
  obtain ⟨pre, z, hsource, hoffset⟩ := ht
  have hlimit : offset + t.size ≤ source.size := by
    simp only [hsource, hoffset, Text.size_append]
    omega
  obtain ⟨htext, -⟩ := h (.start source) pre z hsource hoffset hlimit
  have hsame : pre ++ (t ++ z) = pre ++ (t' ++ z) := hsource.symm.trans htext
  exact (List.append_cancel_right (List.append_cancel_left hsame)).symm

/-- **Neighbouring parts**: the edits of the later part come first. -/
theorem Runs.append (h1 : Runs source L₁ (offset + s.size) t t') (h2 : Runs source L₂ offset s s') :
    Runs source (L₁ ++ L₂) offset (s ++ t) (s' ++ t') := by
  intro P pre z htext hoffset hlimit
  rw [Text.size_append] at hlimit
  -- the later part is run first, while the earlier one is still as it was
  obtain ⟨htext1, hlimit1, hmore1⟩ :=
    h1 P (pre ++ s) z (by rw [htext]; simp) (by simp [hoffset]) (by omega)
  obtain ⟨htext2, hlimit2, hmore2⟩ :=
    h2 (L₁.foldl (edit source) P) pre (t' ++ z) (by rw [htext1]; simp) hoffset hlimit1
  rw [List.foldl_append]
  refine ⟨by rw [htext2]; simp, hlimit2, fun hne => ?_⟩
  rw [Text.size_append]
  -- an edit of either part is counted in the end
  have happlied : P.applied ≤ (L₁.foldl (edit source) P).applied := by
    by_cases hL₁ : L₁ = []
    · simp [hL₁]
    · exact Nat.le_of_lt (hmore1 hL₁).1
  by_cases hL₂ : L₂ = []
  · subst hL₂
    have := hmore1 (by simpa using hne)
    simp only [List.foldl_nil]
    omega
  · have := hmore2 hL₂
    omega

/-- What stands before a part stays. -/
theorem Runs.behind {a : Text} (h : Runs source L (offset + a.size) t t') :
    Runs source L offset (a ++ t) (a ++ t') := by
  have hrun := h.append (Runs.nil (t := a))
  rwa [List.append_nil] at hrun

/-- What stands around a part stays. -/
theorem Runs.frame {a z : Text} (h : Runs source L (offset + a.size) t t') :
    Runs source L offset (a ++ (t ++ z)) (a ++ (t' ++ z)) := by
  have hrun : Runs source ([] ++ L) (offset + a.size) (t ++ z) (t' ++ z) := Runs.nil.append h
  exact hrun.behind

/-- **One edit** of a whole part. -/
theorem Runs.single {c : Correction} (ht : Text.Stands source offset t)
    (hstart : c.range.start = offset) (hstop : c.range.stop = offset + t.size) :
    Runs source [c] offset t c.text.toList := by
  intro P pre z htext hoffset hlimit
  have hb : source.isBoundary c.range.stop = true := by
    rw [hstop]
    exact Text.Stands.isBoundary (t := []) (Text.Stands.right (by simpa using ht))
  rw [List.foldl_cons, List.foldl_nil, Patch.edit_append htext (by rw [hstart, hoffset])
    (by rw [hstop, hoffset]) (by rw [hstart]; exact ht.isBoundary) hb (by rw [hstop]; exact hlimit)]
  refine ⟨rfl, ?_, fun _ => ⟨Nat.lt_succ_self _, ?_⟩⟩ <;> simp only <;> omega

/-- **An edit that comes too late**: it reaches past the end of a part that is partly settled. -/
theorem Runs.skip {a z : Text} {c : Correction} (h : Runs source L (offset + a.size) t t')
    (hL : L ≠ []) (hc : offset + a.size + t.size < c.range.stop) :
    Runs source (L ++ [c]) offset (a ++ (t ++ z)) (a ++ (t' ++ z)) := by
  intro P pre z' htext hoffset hlimit
  simp only [Text.size_append] at hlimit
  obtain ⟨htext1, hlimit1, hmore⟩ :=
    h P (pre ++ a) (z ++ z') (by rw [htext]; simp) (by simp [hoffset]) (by omega)
  have hmore := hmore hL
  have hskip : edit source (L.foldl (edit source) P) c = (L.foldl (edit source) P).skip :=
    Patch.edit_of_limit_lt (by omega)
  rw [List.foldl_append, List.foldl_cons, List.foldl_nil, hskip, Text.size_append, Text.size_append]
  refine ⟨?_, ?_, fun _ => ⟨hmore.1, ?_⟩⟩
  · show (L.foldl (edit source) P).text = _
    rw [htext1]
    simp
  · show offset ≤ (L.foldl (edit source) P).limit
    omega
  · show (L.foldl (edit source) P).limit ≤ _
    omega

/-- **A round of corrections** is a run of its schedule over the whole source. -/
theorem Runs.applyAll {cs : List Correction} (h : Runs source (schedule cs) 0 source t) :
    (Correction.applyAll source cs).text = t ∧
      ((Correction.applyAll source cs).applied = 0 ↔ cs = []) := by
  obtain ⟨htext, -, hmore⟩ :=
    h (.start source) [] [] (by simp [Patch.start]) rfl (by simp [Patch.start])
  rw [Correction.applyAll]
  refine ⟨by simpa using htext, fun h0 => ?_, ?_⟩
  · by_contra hne
    obtain ⟨c, hc⟩ := List.exists_mem_of_ne_nil cs hne
    have := (hmore (List.ne_nil_of_mem (mem_schedule.2 hc))).1
    omega
  · rintro rfl
    have hnil : schedule [] = [] := List.eq_nil_iff_forall_not_mem.2 (by simp [mem_schedule])
    rw [hnil]
    rfl

end LiquidLint.Correction
